import Jack.Proofs.Flaw.Statement
import Jack.Proofs.Parse.Class

namespace Jack

theorem Scopes.enterAll_append_eq_none {s : Scopes} {es fs : List Entry}
    (h : s.enterAll (es ++ fs) = none) :
    s.enterAll es = none ∨ ∃ t, s.enterAll es = some t ∧ t.enterAll fs = none := by
  rw [enterAll_append] at h
  cases ht : s.enterAll es with
  | none => exact .inl rfl
  | some t =>
    rw [ht] at h
    exact .inr ⟨t, rfl, h⟩

namespace Grammar

open Parse
open Event (parenthesized braced)

variable {w v : Window} {scopes : Scopes}

theorem stops_declare {kind : VariableKind} {type x : String}
    (h : scopes.enterAll [⟨kind, type, x⟩] = none) :
    ∃ fault, ∀ w : Window, Stops (declare kind type x scopes w) ⟨w.last.location, fault⟩ := by
  cases hr : scopes.refusal? x kind with
  | none => simp [Scopes.enter?, hr] at h
  | some fault =>
    refine ⟨fault, fun w => ?_⟩
    simp [declare, Scopes.declare, hr]

theorem newName_flawed {kind : VariableKind} {type : DataType} {x : String}
    (h : scopes.enterAll [⟨kind, type.name, x⟩] = none) :
    Flawed [.word x] anything fun w => Stops (newName kind type scopes w) := by
  obtain ⟨fault, hf⟩ := stops_declare h
  refine Flawed.here fault [.word x] [] rfl (by simp) fun w u v hw _ _ => ?_
  unfold newName
  exact (identifier_of_follow hw).stops_bind ((hf u).bind _)

theorem nextName_flawed {kind : VariableKind} {type : DataType} {x : String}
    (h : scopes.enterAll [⟨kind, type.name, x⟩] = none) :
    Flawed [.symbol .comma, .word x] anything fun w => Stops (nextName kind type scopes w) := by
  refine (newName_flawed h).lift [.symbol .comma] [] rfl ?_
  intro w u u' v hw _ _ _
  refine ⟨trivial, fun e he => ?_⟩
  unfold nextName
  exact (symbol_of_follow hw).stops_bind (he.bind _)

def BreaksItems {α : Type} (starts : List TokenKind)
    (item : Scopes → (v : Window) → Attempt (Parsed v.remaining (α × Scopes))) (s : Scopes)
    (w : Window) (e : Error) : Prop :=
  ∃ xs, Breaks starts (fun x s w s' v => Yields (item s w) (x, s') v)
    (fun s w => Stops (item s w) e) xs s w

theorem items_flawed {α γ : Type} {starts : List TokenKind}
    {item : Scopes → (v : Window) → Attempt (Parsed v.remaining (α × Scopes))}
    {events : γ → List Event} {entries : γ → List Entry} {f : γ → α}
    (hY : ∀ g s s' w v, w.follow (events g) = some v → s.enterAll (entries g) = some s' →
      Yields (item s w) (f g, s') v)
    (hF : ∀ g s, s.enterAll (entries g) = none →
      Flawed (events g) anything fun w => Stops (item s w))
    (hs : ∀ g (w v : Window), w.follow (events g) = some v → w.nextIsAmong starts = true)
    {gs : List γ} (h : scopes.enterAll (gs.flatMap entries) = none) :
    Flawed (gs.flatMap events) anything (BreaksItems starts item scopes) := by
  induction gs generalizing scopes with
  | nil => cases h
  | cons g gs ih =>
    rw [List.flatMap_cons] at h ⊢
    -- Either this item is refused, or it is read and a later one is refused.
    obtain hg | ⟨s, hg, hgs⟩ := Scopes.enterAll_append_eq_none h
    · refine (hF g scopes hg).lift [] (gs.flatMap events) rfl ?_
      intro w u u' v hw hu _ _
      cases hw
      exact ⟨trivial, fun e he => ⟨[], hs g _ _ hu, he⟩⟩
    · refine (ih hgs).lift (events g) [] (by simp) ?_
      intro w u u' v hw _ _ _
      exact ⟨trivial, fun e ⟨xs, he⟩ => ⟨f g :: xs, hs g w u hw, s, u, hY g _ s w u hw hg, he⟩⟩

theorem declaration_flawed {kind : VariableKind} {g : Variables}
    (h : scopes.enterAll (g.entries kind) = none) :
    Flawed g.derivation anything fun w => Stops (declaration kind scopes w) := by
  obtain ⟨type, x, xs⟩ := g
  have he : Variables.entries kind ⟨type, x, xs⟩ =
      [⟨kind, type.name, x⟩] ++ xs.map (⟨kind, type.name, ·⟩) := rfl
  rw [he] at h
  obtain hx | ⟨s, hx, hxs⟩ := Scopes.enterAll_append_eq_none h
  · refine (newName_flawed hx).lift [.consumed type.token]
      (xs.flatMap (fun x => [.symbol .comma, .word x]) ++ [.symbol .semicolon])
      (by simp [Variables.derivation]) ?_
    intro w u u' v hw _ _ _
    obtain ⟨w₁, h₁, hw⟩ := Window.follow_cons_iff.mp hw
    cases hw
    refine ⟨trivial, fun e he => ?_⟩
    unfold declaration
    exact (yields_type.mpr h₁).stops_bind (he.bind _)
  · have hn : Flawed (xs.flatMap fun x => [.symbol .comma, .word x]) anything
        (BreaksItems [.symbol .comma] (nextName kind type) s) := by
      rw [List.map_eq_flatMap] at hxs
      exact items_flawed (f := id) (fun x s s' w v hw hs => yields_nextName.mpr ⟨hw, hs⟩)
        (fun x s hx => nextName_flawed hx) (fun x w v hw => comma_of_follow hw) hxs
    refine hn.lift [.consumed type.token, .word x] [.symbol .semicolon]
      (by simp [Variables.derivation]) ?_
    intro w u u' v hw _ _ _
    obtain ⟨w₁, h₁, hw⟩ := Window.follow_cons_iff.mp hw
    refine ⟨trivial, fun e he => ?_⟩
    have hx : Yields (newName kind type scopes w₁) (x, s) u := yields_newName.mpr ⟨hw, hx⟩
    unfold declaration
    exact (yields_type.mpr h₁).stops_bind
      (hx.stops_bind (Stops.bind (stops_manyWith.mpr he) _))

theorem classVarDec_flawed {g : ClassVariable × Variables}
    (h : scopes.enterAll (g.2.entries g.1.kind) = none) :
    Flawed (classVarDec g) anything fun w => Stops (Parse.classVarDec scopes w) := by
  refine (declaration_flawed h).lift [.enter .classVarDec, .keyword g.1.keyword]
    [.leave .classVarDec] rfl ?_
  intro w u u' v hw _ _ _
  obtain ⟨w₁, h₁, hw⟩ := Window.follow_cons_iff.mp hw
  cases h₁
  obtain ⟨w₂, h₂, hw⟩ := Window.follow_cons_iff.mp hw
  cases hw
  refine ⟨trivial, fun e he => ?_⟩
  rw [Parse.classVarDec, stops_within]
  exact (yields_classVariable.mpr ⟨g.1, rfl, h₂⟩).stops_bind (he.bind _)

theorem varDec_flawed {g : Variables} (h : scopes.enterAll (g.entries .local) = none) :
    Flawed (varDec g) anything fun w => Stops (Parse.varDec scopes w) := by
  refine (declaration_flawed h).lift [.enter .varDec, .keyword .var] [.leave .varDec] rfl ?_
  intro w u u' v hw _ _ _
  obtain ⟨-, w₁, hk, h⟩ := keyword_of_follow hw
  cases h
  refine ⟨trivial, fun e he => ?_⟩
  rw [Parse.varDec, stops_within]
  exact hk.stops_bind (he.bind _)

theorem parameter_flawed {p : Parameter} (h : scopes.enterAll [parameterEntry p] = none) :
    Flawed (parameterDerivation p) anything fun w => Stops (parameter scopes w) := by
  refine (newName_flawed h).lift [.consumed p.type.token] [] rfl ?_
  intro w u u' v hw _ _ _
  obtain ⟨w₁, h₁, hw⟩ := Window.follow_cons_iff.mp hw
  cases hw
  refine ⟨trivial, fun e he => ?_⟩
  unfold parameter
  exact (yields_type.mpr h₁).stops_bind (he.bind _)

theorem nextParameter_flawed {p : Parameter} (h : scopes.enterAll [parameterEntry p] = none) :
    Flawed (.symbol .comma :: parameterDerivation p) anything
      fun w => Stops (nextParameter scopes w) := by
  refine (parameter_flawed h).lift [.symbol .comma] [] (by simp) ?_
  intro w u u' v hw _ _ _
  refine ⟨trivial, fun e he => ?_⟩
  unfold nextParameter
  exact (symbol_of_follow hw).stops_bind (he.bind _)

theorem parameterList_flawed {ps : List Parameter}
    (h : scopes.enterAll (ps.map parameterEntry) = none) :
    Flawed (Event.span .parameterList (parameterDerivations ps)) anything
      fun w => Stops (parameterList scopes w) := by
  cases ps with
  | nil => cases h
  | cons p ps =>
    rw [List.map_cons, ← List.singleton_append] at h
    obtain hp | ⟨s, hp, hps⟩ := Scopes.enterAll_append_eq_none h
    · refine (parameter_flawed hp).lift [.enter .parameterList]
        (ps.flatMap (fun q => .symbol .comma :: parameterDerivation q) ++ [.leave .parameterList])
        (by simp [parameterDerivations, Event.span]) ?_
      intro w u u' v hw hu _ _
      cases hw
      have hn : ¬ (w.enter .parameterList).nextIs (.symbol .rightParen) = true :=
        not_closed_of_parameter hu
      refine ⟨trivial, fun e he => ?_⟩
      rw [parameterList, stops_within, if_neg hn]
      exact he.bind _
    · have hm : Flawed (ps.flatMap fun q => .symbol .comma :: parameterDerivation q) anything
          (BreaksItems [.symbol .comma] nextParameter s) := by
        rw [List.map_eq_flatMap] at hps
        exact items_flawed (f := id) (fun q s s' w v hw hs => yields_nextParameter.mpr ⟨hw, hs⟩)
          (fun q s hq => nextParameter_flawed hq) (fun q w v hw => comma_of_follow hw) hps
      refine hm.lift (.enter .parameterList :: parameterDerivation p) [.leave .parameterList]
        (by simp [parameterDerivations, Event.span]) ?_
      intro w u u' v hw _ _ _
      obtain ⟨w₁, h₁, hw⟩ := Window.follow_cons_iff.mp hw
      cases h₁
      have hn : ¬ (w.enter .parameterList).nextIs (.symbol .rightParen) = true :=
        not_closed_of_parameter hw
      refine ⟨trivial, fun e he => ?_⟩
      rw [parameterList, stops_within, if_neg hn]
      exact (yields_parameter.mpr ⟨hw, hp⟩).stops_bind (Stops.bind (stops_manyWith.mpr he) _)

/-- A subroutine is flawed where it declares too much, or in the statements behind what it declares. -/
theorem subroutineBody_flawed {className : String} {gs : List Variables} {ss : List Statement}
    (h : scopes.enterAll (gs.flatMap (·.entries .local)) = none ∨
      ∃ s, scopes.enterAll (gs.flatMap (·.entries .local)) = some s ∧
        Statement.resolveAll ⟨className, s⟩ ss = none) :
    Flawed (Event.span .subroutineBody (braced
        (gs.flatMap varDec ++ Event.span .statements (Statement.derivationAll ss)))) anything
      fun w => Stops (subroutineBody className scopes w) := by
  have hb {w v : Window} {es : List Event}
      (hw : w.follow (.enter .subroutineBody :: .symbol .leftBrace :: es) = some v) :
      ∃ u, Yields (symbol .leftBrace (w.enter .subroutineBody)) () u ∧ u.follow es = some v := by
    obtain ⟨_, h₁, hw⟩ := Window.follow_cons_iff.mp hw
    cases h₁
    obtain ⟨u, h₂, hw⟩ := Window.follow_cons_iff.mp hw
    exact ⟨u, yields_symbol.mpr h₂, hw⟩
  obtain hgs | ⟨s, hgs, hss⟩ := h
  · have hl : Flawed (gs.flatMap varDec) anything
        (BreaksItems [.keyword .var] Parse.varDec scopes) :=
      items_flawed (f := (·.declaration .local))
        (fun g s s' w v hw hs => yields_varDec.mpr ⟨g, rfl, hw, hs⟩)
        (fun g s h => varDec_flawed h) (fun g w v hw => var_of_follow hw) hgs
    refine hl.lift [.enter .subroutineBody, .symbol .leftBrace]
      (Event.span .statements (Statement.derivationAll ss) ++
        [.symbol .rightBrace, .leave .subroutineBody]) (by simp [Event.span, braced]) ?_
    intro w u u' v hw _ _ _
    obtain ⟨_, hy, h⟩ := hb hw
    cases h
    refine ⟨trivial, fun e he => ?_⟩
    rw [subroutineBody, stops_within]
    exact hy.stops_bind (Stops.bind (stops_manyWith.mpr he) _)
  · refine (statements_flawed_of (Statement.flawed_all ss hss)).lift
      (.enter .subroutineBody :: .symbol .leftBrace :: gs.flatMap varDec)
      [.symbol .rightBrace, .leave .subroutineBody] (by simp [Event.span, braced]) ?_
    intro w u u' v hw hu hv _
    obtain ⟨w₁, hy, hd⟩ := hb hw
    obtain ⟨_, h₃, -⟩ := Window.follow_cons_iff.mp hv
    have hr := Window.next_token_of_perform h₃
    have hm := many_varDec.mpr ⟨gs, rfl, hd, hgs, not_var_of_statements hu hr⟩
    refine ⟨hr, fun e he => ?_⟩
    rw [subroutineBody, stops_within]
    exact hy.stops_bind (Yields.stops_bind (yields_manyWith.mpr hm) (he.bind _))

namespace Subroutine

variable {g : Subroutine} {className : String}

def heading (g : Subroutine) : List Event :=
  [.enter .subroutineDec, .keyword g.kind.keyword, .consumed g.returnType.token, .word g.name]

theorem yields_heading (hw : w.follow g.heading = some v) : ∃ w₁ w₂,
    Yields (accept subroutineStarts subroutineKind? (w.enter .subroutineDec)) g.kind w₁ ∧
      Yields (accept (typeKinds ++ [.keyword .void]) returnType? w₁) g.returnType w₂ ∧
      Yields (identifier w₂) g.name v := by
  obtain ⟨_, h, hw⟩ := Window.follow_cons_iff.mp hw
  cases h
  obtain ⟨w₁, h₁, hw⟩ := Window.follow_cons_iff.mp hw
  obtain ⟨w₂, h₂, hw⟩ := Window.follow_cons_iff.mp hw
  exact ⟨w₁, w₂, yields_subroutineKind.mpr h₁, yields_returnType.mpr h₂, identifier_of_follow hw⟩

theorem resolve_eq_none_iff : g.resolve className scopes = none ↔
    scopes.leaveSubroutine.enterAll (g.entries className) = none ∨
      ∃ s, scopes.leaveSubroutine.enterAll (g.entries className) = some s ∧
        Statement.resolveAll ⟨className, s⟩ g.body = none := by
  cases hs : scopes.leaveSubroutine.enterAll (g.entries className) with
  | none => simp [resolve, hs]
  | some s => cases hb : Statement.resolveAll ⟨className, s⟩ g.body <;> simp [resolve, hs, hb]

theorem receiver_stops {kind : SubroutineKind}
    (h : scopes.enterAll (receiverEntry className kind) = none) :
    ∃ fault, ∀ w : Window, Stops (receiver kind className scopes w) ⟨w.last.location, fault⟩ := by
  cases kind with
  | method => exact stops_declare h
  | constructor | function => cases h

theorem flawed_of_parameters {s : Scopes}
    (hr : scopes.leaveSubroutine.enterAll (receiverEntry className g.kind) = some s)
    (h : s.enterAll (g.parameters.map parameterEntry) = none) (behind : List Event) :
    Flawed (g.heading ++ (.symbol .leftParen ::
        (Event.span .parameterList (parameterDerivations g.parameters) ++ behind))) anything
      fun w => Stops (subroutine className scopes w) := by
  refine (parameterList_flawed h).lift (g.heading ++ [.symbol .leftParen]) behind (by simp) ?_
  intro w u u' v hw _ _ _
  obtain ⟨w₃, hw, hp⟩ := Window.follow_append_iff.mp hw
  obtain ⟨w₁, w₂, h₁, h₂, h₃⟩ := yields_heading hw
  have h₄ : Yields (receiver g.kind className scopes.leaveSubroutine w₃) s w₃ :=
    yields_receiver.mpr ⟨hr, rfl⟩
  refine ⟨trivial, fun e he => ?_⟩
  rw [subroutine, stops_within]
  exact h₁.stops_bind (h₂.stops_bind (h₃.stops_bind (h₄.stops_bind
    ((symbol_of_follow hp).stops_bind (he.bind _)))))

theorem flawed_of_body {s t : Scopes}
    (hr : scopes.leaveSubroutine.enterAll (receiverEntry className g.kind) = some s)
    (hp : s.enterAll (g.parameters.map parameterEntry) = some t) {body : List Event}
    (h : Flawed body anything fun w => Stops (subroutineBody className t w)) :
    Flawed (g.heading ++ (.symbol .leftParen ::
        (Event.span .parameterList (parameterDerivations g.parameters) ++
          (.symbol .rightParen :: (body ++ [.leave .subroutineDec]))))) anything
      fun w => Stops (subroutine className scopes w) := by
  refine h.lift (g.heading ++ (.symbol .leftParen ::
    (Event.span .parameterList (parameterDerivations g.parameters) ++ [.symbol .rightParen])))
    [.leave .subroutineDec] (by simp) ?_
  intro w u u' v hw _ _ _
  obtain ⟨w₃, hw, hps⟩ := Window.follow_append_iff.mp hw
  obtain ⟨w₁, w₂, h₁, h₂, h₃⟩ := yields_heading hw
  have h₄ : Yields (receiver g.kind className scopes.leaveSubroutine w₃) s w₃ :=
    yields_receiver.mpr ⟨hr, rfl⟩
  obtain ⟨w₅, h₅, hps⟩ := Window.follow_cons_iff.mp hps
  obtain ⟨w₆, h₆, hps⟩ := Window.follow_append_iff.mp hps
  obtain ⟨_, h₇, hu⟩ := Window.follow_cons_iff.mp hps
  cases hu
  have h₅ : Yields (symbol .leftParen w₃) () w₅ := yields_symbol.mpr h₅
  have h₆ := (yields_parameterList (Window.next_token_of_perform h₇)).mpr ⟨h₆, hp⟩
  have h₇ : Yields (symbol .rightParen w₆) () u := yields_symbol.mpr h₇
  refine ⟨trivial, fun e he => ?_⟩
  rw [subroutine, stops_within]
  exact h₁.stops_bind (h₂.stops_bind (h₃.stops_bind (h₄.stops_bind
    (h₅.stops_bind (h₆.stops_bind (h₇.stops_bind (he.bind _)))))))

theorem flawed (g : Subroutine) (h : g.resolve className scopes = none) :
    Flawed g.derivation anything fun w => Stops (subroutine className scopes w) := by
  have hd : g.derivation = g.heading ++ (.symbol .leftParen ::
      (Event.span .parameterList (parameterDerivations g.parameters) ++ (.symbol .rightParen ::
        (Event.span .subroutineBody (braced (g.locals.flatMap varDec ++
          Event.span .statements (Statement.derivationAll g.body))) ++ [.leave .subroutineDec])))) := by
    simp [derivation, heading, parenthesized, Event.span]
  rw [hd]
  rw [resolve_eq_none_iff] at h
  cases hr : scopes.leaveSubroutine.enterAll (receiverEntry className g.kind) with
  | none =>
    -- What a receiver is refused for is reported at the name of the subroutine.
    obtain ⟨fault, hf⟩ := receiver_stops hr
    refine Flawed.here fault g.heading _ rfl (by simp [heading]) ?_
    intro w u v hw _ _
    obtain ⟨w₁, w₂, h₁, h₂, h₃⟩ := yields_heading hw
    rw [subroutine, stops_within]
    exact h₁.stops_bind (h₂.stops_bind (h₃.stops_bind ((hf u).bind _)))
  | some s => cases hp : s.enterAll (g.parameters.map parameterEntry) with
    | none => exact flawed_of_parameters hr hp _
    | some t => exact flawed_of_body hr hp (subroutineBody_flawed (by simpa [entries, hr, hp] using h))

theorem breaks {gs : List Subroutine} {rs : List Jack.Subroutine} {e : Error}
    (hr : gs.mapM (·.resolve className scopes) = some rs)
    (hw : w.follow (gs.flatMap (·.derivation)) = some v)
    (hn : v.nextIsAmong subroutineStarts = true) (he : Stops (subroutine className scopes v) e) :
    Breaks subroutineStarts (fun r (_ : Unit) w _ v => Yields (subroutine className scopes w) r v)
      (fun _ w => Stops (subroutine className scopes w) e) rs () w := by
  induction gs generalizing w rs with
  | nil =>
    cases hr
    cases hw
    exact ⟨hn, he⟩
  | cons g gs ih =>
    rw [List.mapM_cons] at hr
    obtain ⟨r, hg, rs, hgs, h⟩ := bind₂_eq_some_iff.mp hr
    cases h
    rw [List.flatMap_cons, Window.follow_append_iff] at hw
    obtain ⟨u, hu, hw⟩ := hw
    exact ⟨g.nextIsAmong hu, (), u, yields_subroutine.mpr ⟨g, hu, hg⟩, ih hgs hw⟩

end Subroutine

namespace Class

variable {name : String} {ds : List (ClassVariable × Variables)}

def opening (name : String) (ds : List (ClassVariable × Variables)) : List Event :=
  .enter .class :: .keyword .class :: .word name :: .symbol .leftBrace :: ds.flatMap classVarDec

theorem derivation_eq (gs : List Subroutine) :
    (Class.mk name ds gs).derivation =
      opening name ds ++ (gs.flatMap (·.derivation) ++ [.symbol .rightBrace, .leave .class]) := by
  simp [derivation, opening, Event.span, braced]

theorem yields_opening {es : List Event}
    (hw : w.follow (.enter .class :: .keyword .class :: .word name :: .symbol .leftBrace :: es) =
      some v) : ∃ w₁ w₂ w₃, Yields (Parse.keyword .class (w.enter .class)) () w₁ ∧
        Yields (identifier w₁) name w₂ ∧ Yields (symbol .leftBrace w₂) () w₃ ∧
        w₃.follow es = some v := by
  obtain ⟨-, w₁, h₁, hw⟩ := keyword_of_follow hw
  obtain ⟨w₂, h₂, hw⟩ := Window.follow_cons_iff.mp hw
  obtain ⟨w₃, h₃, hw⟩ := Window.follow_cons_iff.mp hw
  exact ⟨w₁, w₂, w₃, h₁, yields_identifier.mpr h₂, yields_symbol.mpr h₃, hw⟩

theorem shows_of_declarations
    (h : Scopes.empty.enterAll (ds.flatMap fun d => d.2.entries d.1.kind) = none) :
    ∃ f : Flaw, f.before <+: opening name ds ∧
      ∀ gs, f.Shows (Class.mk name ds gs).derivation anything fun w => Stops (classDec w) := by
  have hm : Flawed (ds.flatMap classVarDec) anything
      (BreaksItems [.keyword .static, .keyword .field] Parse.classVarDec .empty) :=
    items_flawed (f := fun g => g.2.declaration g.1.kind)
      (fun g s s' w v hw hs => yields_classVarDec.mpr ⟨g, rfl, hw, hs⟩)
      (fun g s h => classVarDec_flawed h) (fun g w v hw => classVariable_of_follow hw) h
  obtain ⟨f, hf⟩ := hm
  let front : List Event := [.enter .class, .keyword .class, .word name, .symbol .leftBrace]
  refine ⟨⟨front ++ f.before, f.fault⟩, ?_, fun gs => ?_⟩
  · exact (List.prefix_append_right_inj front).mpr hf.initial
  · rw [derivation_eq]
    refine hf.lift front (gs.flatMap (·.derivation) ++ [.symbol .rightBrace, .leave .class]) ?_
    intro w u u' v hw _ _ _
    obtain ⟨w₁, w₂, w₃, h₁, h₂, h₃, hu⟩ := yields_opening hw
    cases hu
    refine ⟨trivial, fun e he => ?_⟩
    rw [classDec, stops_within]
    exact h₁.stops_bind (h₂.stops_bind (h₃.stops_bind (Stops.bind (stops_manyWith.mpr he) _)))

/-- A flaw of a subroutine shows in whatever class has it behind others that can be resolved. -/
theorem shows_of_subroutine {f : Flaw} {g : Subroutine}
    (hd : Scopes.empty.enterAll (ds.flatMap fun d => d.2.entries d.1.kind) = some scopes)
    (hf : f.Shows g.derivation anything fun w => Stops (subroutine name scopes w))
    {gs : List Subroutine} {rs : List Jack.Subroutine}
    (hr : gs.mapM (·.resolve name scopes) = some rs) (gs' : List Subroutine) :
    Flaw.Shows ⟨opening name ds ++ gs.flatMap (·.derivation) ++ f.before, f.fault⟩
      (Class.mk name ds (gs ++ g :: gs')).derivation anything fun w => Stops (classDec w) := by
  have he : (Class.mk name ds (gs ++ g :: gs')).derivation =
      opening name ds ++ gs.flatMap (·.derivation) ++ (g.derivation ++
        (gs'.flatMap (·.derivation) ++ [.symbol .rightBrace, .leave .class])) := by
    rw [derivation_eq]
    simp
  rw [he]
  refine hf.lift (opening name ds ++ gs.flatMap (·.derivation))
    (gs'.flatMap (·.derivation) ++ [.symbol .rightBrace, .leave .class]) ?_
  intro w u u' v hw hu _ _
  obtain ⟨w₄, hw, hgs⟩ := Window.follow_append_iff.mp hw
  obtain ⟨w₁, w₂, w₃, h₁, h₂, h₃, h₄⟩ := yields_opening hw
  have hn : u.nextIsAmong [.keyword .static, .keyword .field] = false := by
    rw [Window.nextIsAmong, g.next_token hu]
    cases g.kind <;> rfl
  have hm := many_classVarDec.mpr ⟨ds, rfl, h₄, hd, not_classVariable_of_subroutines hgs hn⟩
  refine ⟨trivial, fun e he => ?_⟩
  rw [classDec, stops_within]
  refine h₁.stops_bind (h₂.stops_bind (h₃.stops_bind (Yields.stops_bind
    (yields_manyWith.mpr hm) ?_)))
  exact Stops.bind (stops_many (Subroutine.breaks hr hgs (g.nextIsAmong hu) he)) _

end Class

end Grammar

end Jack
