import Jack.Proofs.Flaw.Class
import Jack.Proofs.Rejection.Statement

namespace Jack

theorem Scopes.refusal?_leaveSubroutine (s : Scopes) (x : String) :
    s.leaveSubroutine.refusal? x .argument = none := by
  simp [refusal?, declares, leaveSubroutine, VariableKind.extent, count, maxSlots]

namespace Grammar

open Parse
open Event (tokens parenthesized braced)

/-- Where nothing but brackets and separators is left. -/
def Closing (es : List Event) : Prop :=
  ∀ t ∈ tokens es, ∃ c, t = .symbol c

theorem closing_nil : Closing [] := by simp [Closing]

/-- The name at the end of the events is that of the last entry, which the scopes refuse behind the others. The
events `rest` complete a derivation. -/
inductive Refused (scopes : Scopes) : List Event → List Event → List Entry → Stop → Prop where
  | intro (front : List Event) (before : List Entry) (e : Entry) {rest : List Event} {t : Scopes} {s : Stop}
      (closing : Closing rest) (entered : scopes.enterAll before = some t)
      (refused : t.refusal? e.name e.kind = some s.error.fault) :
      Refused scopes (front ++ [.word e.name]) rest (before ++ [e]) s

variable {scopes t : Scopes} {w : Window} {es rest front : List Event} {entries first : List Entry} {s : Stop}

theorem Refused.lift (h : Refused t es rest entries s) (ht : scopes.enterAll first = some t) (front : List Event)
    {behind : List Event} (hb : Closing behind) :
    Refused scopes (front ++ es) (rest ++ behind) (first ++ entries) s := by
  obtain ⟨front', before, e, closing, entered, refused⟩ := h
  rw [← List.append_assoc, ← List.append_assoc]
  refine .intro _ _ e (fun tk htk => ?_) (by simp [ht, entered]) refused
  rw [Event.tokens_append, List.mem_append] at htk
  exact htk.elim (closing tk) (hb tk)

section Parts

variable {α γ δ : Type} {n : Nat} {events : γ → List Event} {whole : δ → List Event} {entries : γ → List Entry}
  {allEntries : δ → List Entry}

def RefusedIn (scopes : Scopes) (derivation : γ → List Event) (entries : γ → List Entry) (es : List Event)
    (s : Stop) : Prop :=
  ∃ g rest, derivation g = es ++ rest ∧ Refused scopes es rest (entries g) s

/-- What a part declares is entered behind the entries `first`. -/
theorem RefusedIn.part (h : RefusedIn t events entries es s) (ht : scopes.enterAll first = some t)
    (hw : ∀ g, ∃ r behind, whole r = front ++ (events g ++ behind) ∧ Closing behind ∧
      allEntries r = first ++ entries g) : RefusedIn scopes whole allEntries (front ++ es) s := by
  obtain ⟨g, rest, hg, hr⟩ := h
  obtain ⟨r, behind, hr', hb, he⟩ := hw g
  exact ⟨r, rest ++ behind, by simp [hr', hg], he ▸ hr.lift ht front hb⟩

theorem rejects_items {starts : List TokenKind}
    {item : Scopes → (v : Window) → Attempt (Parsed v.remaining (α × Scopes))}
    (hY : ∀ x s w s' v, Yields (item s w) (x, s') v →
      ∃ g, w.follow (events g) = some v ∧ s.enterAll (entries g) = some s')
    (hR : ∀ s w, Rejects (RefusedIn s events entries) [] (item s w) w) {h : w.remaining < n} :
    Rejects (RefusedIn scopes (fun gs : List γ => gs.flatMap events) (fun gs => gs.flatMap entries)) []
      (manyWith starts n (fun s v _ => item s v) scopes w h) w := by
  refine Rejects.manyFrom
    (Q := fun es s => ∃ gs, es = gs.flatMap events ∧ scopes.enterAll (gs.flatMap entries) = some s) ?_ ?_
    ⟨[], rfl, rfl⟩ h
  · rintro _ s u x s' v ⟨gs, rfl, hs⟩ - hv
    obtain ⟨g, hg, he⟩ := hY x s u s' v hv
    exact ⟨events g, hg, gs ++ [g], by simp, by simp [hs, he]⟩
  · rintro _ s u ⟨gs, rfl, hs⟩ -
    refine (hR s u).part fun es st h => h.part hs fun g => ?_
    exact ⟨gs ++ [g], [], by simp, by simp [Closing], by simp⟩

end Parts

theorem declare_rejects {P : List Event → Stop → Prop} {kind : VariableKind} {type x : String}
    (h : ∀ fault, scopes.refusal? x kind = some fault → P front ⟨⟨w.last.location, fault⟩, w⟩) :
    Rejects P front (declare kind type x scopes w) w := by
  unfold declare Scopes.declare
  cases hr : scopes.refusal? x kind with
  | none => exact rejects_ok
  | some fault => exact rejects_reject (h fault hr)

theorem newName_rejects {kind : VariableKind} {type : DataType} :
    Rejects (RefusedIn scopes (fun x : String => [.word x]) fun x => [⟨kind, type.name, x⟩]) []
      (newName kind type scopes w) w := by
  refine Rejects.identifier_bind fun x u _ => (declare_rejects fun fault hf => ?_).last fun _ _ _ => rejects_pure
  exact ⟨x, [], rfl, .intro [] [] ⟨kind, type.name, x⟩ closing_nil rfl hf⟩

theorem nextName_rejects {kind : VariableKind} {type : DataType} :
    Rejects (RefusedIn scopes (fun x : String => [.symbol .comma, .word x]) fun x => [⟨kind, type.name, x⟩]) []
      (nextName kind type scopes w) w := by
  refine Rejects.symbol_bind fun u _ => Rejects.last ?_ fun _ _ _ => rejects_pure
  exact newName_rejects.part fun es s h => h.part (Scopes.enterAll_nil _) fun x =>
    ⟨x, [], rfl, closing_nil, rfl⟩

theorem declaration_rejects {kind : VariableKind} :
    Rejects (RefusedIn scopes Variables.derivation (Variables.entries kind)) [] (declaration kind scopes w) w := by
  refine rejects_accept.bind fun type u h => ⟨[.consumed type.token], ?_, Rejects.bind ?first fun p v hv => ?_⟩
  · exact Window.follow_cons_of (yields_type.mp h) rfl
  case first =>
    refine newName_rejects.part fun es s h => h.part (Scopes.enterAll_nil _) fun x => ?_
    exact ⟨⟨type, x, []⟩, [.symbol .semicolon], rfl, by simp [Closing], rfl⟩
  obtain ⟨x, t⟩ := p
  obtain ⟨hx, he⟩ := yields_newName.mp hv
  refine ⟨[.word x], hx, Rejects.last ?_ fun _ _ _ => rejects_accept.last fun _ _ _ => rejects_pure⟩
  refine (rejects_items (fun y s w s' v hy => ⟨y, yields_nextName.mp hy⟩) fun _ _ => nextName_rejects).part
    fun es s h => h.part he fun ys => ?_
  exact ⟨⟨type, x, ys⟩, [.symbol .semicolon], by simp [Variables.derivation], by simp [Closing],
    by simp [Variables.entries, Variables.names, List.map_eq_flatMap]⟩

theorem classVarDec_rejects :
    Rejects (RefusedIn scopes classVarDec fun d => d.2.entries d.1.kind) [] (Parse.classVarDec scopes w) w := by
  refine Rejects.within (rejects_accept.bind fun kind u h => ?_)
  obtain ⟨k, rfl, hk⟩ := yields_classVariable.mp h
  refine ⟨[.keyword k.keyword], Window.follow_cons_of hk rfl, Rejects.last ?_ fun _ _ _ => rejects_pure⟩
  refine declaration_rejects.part fun es s h => h.part (Scopes.enterAll_nil _) fun d => ?_
  exact ⟨(k, d), [.leave .classVarDec], by simp [classVarDec, Event.span], by simp [Closing], rfl⟩

theorem varDec_rejects :
    Rejects (RefusedIn scopes varDec (Variables.entries .local)) [] (Parse.varDec scopes w) w := by
  refine Rejects.within (Rejects.keyword_bind fun u _ => Rejects.last ?_ fun _ _ _ => rejects_pure)
  refine declaration_rejects.part fun es s h => h.part (Scopes.enterAll_nil _) fun d => ?_
  exact ⟨d, [.leave .varDec], by simp [varDec, Event.span], by simp [Closing], rfl⟩

theorem parameter_rejects :
    Rejects (RefusedIn scopes parameterDerivation fun p => [parameterEntry p]) [] (parameter scopes w) w := by
  refine rejects_accept.bind fun type u h => ⟨[.consumed type.token], ?_, Rejects.last ?_ fun _ _ _ => rejects_pure⟩
  · exact Window.follow_cons_of (yields_type.mp h) rfl
  · refine newName_rejects.part fun es s h => h.part (Scopes.enterAll_nil _) fun x => ?_
    exact ⟨⟨type, x⟩, [], rfl, closing_nil, rfl⟩

theorem nextParameter_rejects :
    Rejects (RefusedIn scopes (fun p => .symbol .comma :: parameterDerivation p) fun p => [parameterEntry p]) []
      (nextParameter scopes w) w := by
  refine Rejects.symbol_bind fun u _ => Rejects.last ?_ fun _ _ _ => rejects_pure
  exact parameter_rejects.part fun es s h => h.part (Scopes.enterAll_nil _) fun p =>
    ⟨p, [], by simp, closing_nil, rfl⟩

theorem parameterList_rejects :
    Rejects (RefusedIn scopes (fun ps => Event.span .parameterList (parameterDerivations ps))
        fun ps => ps.map parameterEntry) [] (parameterList scopes w) w := by
  refine Rejects.within ?_
  split
  next => exact rejects_pure
  next =>
    refine Rejects.bind ?first fun p v hv => ?_
    case first =>
      refine parameter_rejects.part fun es s h => h.part (Scopes.enterAll_nil _) fun p => ?_
      exact ⟨[p], [.leave .parameterList], by simp [Event.span, parameterDerivations], by simp [Closing], rfl⟩
    obtain ⟨p, t⟩ := p
    obtain ⟨hp, he⟩ := yields_parameter.mp hv
    refine ⟨_, hp, Rejects.last ?_ fun _ _ _ => rejects_pure⟩
    refine (rejects_items (fun q s w s' v hq => ⟨q, yields_nextParameter.mp hq⟩) fun _ _ =>
      nextParameter_rejects).part fun es s h => h.part he fun qs => ?_
    exact ⟨p :: qs, [.leave .parameterList], by simp [Event.span, parameterDerivations], by simp [Closing],
      by simp [List.map_eq_flatMap]⟩

/-- The events lead to a declaration that is refused, before the statements begin, or to a misfit in them. -/
def FlawIn {γ : Type} (className : String) (scopes : Scopes) (declaring derivation : γ → List Event)
    (entries : γ → List Entry) (es : List Event) (s : Stop) : Prop :=
  RefusedIn scopes declaring entries es s ∨
    ∃ g rest t, derivation g = es ++ rest ∧ scopes.enterAll (entries g) = some t ∧
      Misfit ⟨className, t⟩ es rest s

def bodyDeclaring (ds : List Variables) : List Event :=
  .enter .subroutineBody :: .symbol .leftBrace :: ds.flatMap varDec

def bodyDerivation (ds : List Variables) (ss : List Statement) : List Event :=
  Event.span .subroutineBody (braced (ds.flatMap varDec ++ Event.span .statements (Statement.derivationAll ss)))

theorem subroutineBody_rejects {className : String} :
    Rejects (FlawIn className scopes (fun b : List Variables × List Statement => bodyDeclaring b.1)
        (fun b => bodyDerivation b.1 b.2) fun b => b.1.flatMap (·.entries .local)) []
      (subroutineBody className scopes w) w := by
  refine Rejects.within (Rejects.symbol_bind fun u _ => Rejects.bind ?locals fun p v hv => ?_)
  case locals =>
    refine (rejects_items (fun d s w s' v hd => ?_) fun _ _ => varDec_rejects).part
      fun es s h => .inl (h.part (Scopes.enterAll_nil _) fun ds => ?_)
    · obtain ⟨g, -, hg⟩ := yields_varDec.mp hd
      exact ⟨g, hg⟩
    · exact ⟨(ds, []), [], by simp [bodyDeclaring], closing_nil, rfl⟩
  obtain ⟨ds, t⟩ := p
  obtain ⟨ds, -, hds, he, -⟩ := many_varDec.mp (yields_manyWith.mp hv)
  refine ⟨_, hds, Rejects.last ?_ fun _ _ _ => rejects_accept.last fun _ _ _ => rejects_pure⟩
  refine (statements_rejects ⟨className, t⟩ v).part fun es s ⟨ss, rest, hss, hm⟩ => .inr ?_
  refine ⟨(ds, ss), rest ++ [.symbol .rightBrace, .leave .subroutineBody], t, ?_, he, hm.lift _ _⟩
  change bodyDerivation ds ss = _
  rw [bodyDerivation, show Event.span .statements (Statement.derivationAll ss) = es ++ rest from hss]
  simp [Event.span, braced]

def Subroutine.declaring (g : Subroutine) : List Event :=
  g.heading ++ (parenthesized (Event.span .parameterList (parameterDerivations g.parameters)) ++
    bodyDeclaring g.locals)

theorem Subroutine.derivation_eq (g : Subroutine) :
    g.derivation = g.heading ++ (parenthesized (Event.span .parameterList (parameterDerivations g.parameters)) ++
      (bodyDerivation g.locals g.body ++ [.leave .subroutineDec])) := by
  simp [derivation, heading, bodyDerivation, Event.span]

theorem receiver_rejects {P : List Event → Stop → Prop} {kind : SubroutineKind} {className : String} :
    Rejects P front (receiver kind className scopes.leaveSubroutine w) w := by
  cases kind with
  | method =>
    refine declare_rejects fun fault hf => ?_
    rw [Scopes.refusal?_leaveSubroutine] at hf
    cases hf
  | constructor | function => exact rejects_ok

theorem subroutine_rejects {className : String} :
    Rejects (FlawIn className scopes.leaveSubroutine Subroutine.declaring Subroutine.derivation
      (Subroutine.entries className)) [] (subroutine className scopes w) w := by
  refine Rejects.within (rejects_accept.bind fun kind w₁ h₁ => ⟨[.keyword kind.keyword], ?_, ?_⟩)
  · exact Window.follow_cons_of (yields_subroutineKind.mp h₁) rfl
  refine rejects_accept.bind fun type w₂ h₂ => ⟨[.consumed type.token], ?_, ?_⟩
  · exact Window.follow_cons_of (yields_returnType.mp h₂) rfl
  refine Rejects.identifier_bind fun x w₃ _ => receiver_rejects.bind fun t₁ w₄ h₄ => ?_
  obtain ⟨ht₁, rfl⟩ := yields_receiver.mp h₄
  refine ⟨[], rfl, Rejects.symbol_bind fun w₅ _ => Rejects.bind ?parameters fun p w₆ h₆ => ?_⟩
  case parameters =>
    refine parameterList_rejects.part fun es s h => .inl (h.part ht₁ fun ps => ?_)
    refine ⟨⟨kind, type, x, ps, [], []⟩, [.symbol .rightParen, .enter .subroutineBody, .symbol .leftBrace],
      ?_, ?_, ?_⟩
    · simp [Subroutine.declaring, Subroutine.heading, parenthesized, bodyDeclaring]
    · simp [Closing]
    · simp [Subroutine.entries]
  obtain ⟨ps, t₂⟩ := p
  obtain ⟨hps, ht₂⟩ := parameterList_sound h₆
  have ht : scopes.leaveSubroutine.enterAll (receiverEntry className kind ++ ps.map parameterEntry) = some t₂ := by
    simp [ht₁, ht₂]
  refine ⟨_, hps, Rejects.symbol_bind fun w₇ _ => Rejects.last ?_ fun _ _ _ => rejects_pure⟩
  refine subroutineBody_rejects.part fun es s h => ?_
  obtain h | ⟨⟨ds, ss⟩, rest, t, hb, he, hm⟩ := h
  · refine .inl (h.part ht fun b => ⟨⟨kind, type, x, ps, b.1, b.2⟩, [], ?_, closing_nil, ?_⟩)
    · simp [Subroutine.declaring, Subroutine.heading, parenthesized]
    · simp [Subroutine.entries]
  · refine .inr ⟨⟨kind, type, x, ps, ds, ss⟩, rest ++ [.leave .subroutineDec], t, ?_, ?_, hm.lift _ _⟩
    · rw [Subroutine.derivation_eq, show bodyDerivation ds ss = es ++ rest from hb]
      simp [Subroutine.heading, parenthesized]
    · simp [Subroutine.entries, ht₁, ht₂, show t₂.enterAll (ds.flatMap (·.entries .local)) = some t from he]

def Class.unclosed (c : Class) : List Event :=
  Class.opening c.name c.declarations ++ c.subroutines.flatMap (·.derivation)

/-- The events lead to a refused variable of the class, or to what is wrong in a subroutine of it. -/
def ClassFlaw (es : List Event) (s : Stop) : Prop :=
  RefusedIn .empty (fun c : Class => Class.opening c.name c.declarations) Class.entries es s ∨
    ∃ (c : Class) (t : Scopes) (fs : List Event), es = c.unclosed ++ fs ∧
      Scopes.empty.enterAll c.entries = some t ∧
      FlawIn c.name t.leaveSubroutine Subroutine.declaring Subroutine.derivation (Subroutine.entries c.name) fs s

theorem classDec_rejects : Rejects ClassFlaw [] (classDec w) w := by
  refine Rejects.within (Rejects.keyword_bind fun w₁ _ => Rejects.identifier_bind fun x w₂ _ => ?_)
  refine Rejects.symbol_bind fun w₃ _ => Rejects.bind ?classVariables fun p w₄ h₄ => ?_
  case classVariables =>
    refine (rejects_items (fun d s w s' v hd => ?_) fun _ _ => classVarDec_rejects).part
      fun es s h => .inl (h.part (Scopes.enterAll_nil _) fun ds => ?_)
    · obtain ⟨g, -, hg⟩ := yields_classVarDec.mp hd
      exact ⟨g, hg⟩
    · exact ⟨⟨x, ds, []⟩, [], by simp [Class.opening], closing_nil, rfl⟩
  obtain ⟨ds, t⟩ := p
  obtain ⟨ds, -, hds, he, -⟩ := many_classVarDec.mp (yields_manyWith.mp h₄)
  refine ⟨_, hds, Rejects.last ?_ fun _ _ _ => rejects_accept.last fun _ _ _ => rejects_pure⟩
  refine Rejects.many (Q := fun es => ∃ gs, es = (Class.mk x ds gs).unclosed) ?_ ?_
    ⟨[], by simp [Class.unclosed, Class.opening]⟩ _
  · rintro _ v r v' ⟨gs, rfl⟩ - hv
    obtain ⟨g, hg, -⟩ := yields_subroutine.mp hv
    exact ⟨_, hg, gs ++ [g], by simp [Class.unclosed]⟩
  · rintro _ v ⟨gs, rfl⟩ -
    exact subroutine_rejects.part fun es s h => .inr ⟨⟨x, ds, gs⟩, t, es, rfl, he, h⟩

end Grammar

end Jack
