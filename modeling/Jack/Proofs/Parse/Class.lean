import Jack.Proofs.Parse.Statement

namespace Jack

theorem DataType.not_closing (type : DataType) : type.token ∉ Grammar.closing := by
  cases type <;> simp [token, Grammar.closing]

namespace Grammar

open Parse
open Event (parenthesized braced)

variable {w v : Window} {scopes scopes' : Scopes}

theorem type?_eq_some_iff {t : Token} {type : DataType} : type? t = some type ↔ t = type.token := by
  constructor
  · intro h
    unfold type? at h
    split at h <;> cases h <;> rfl
  · rintro rfl
    cases type <;> rfl

theorem yields_type {type : DataType} :
    Yields (accept typeKinds type? w) type v ↔ w.perform (.consumed type.token) = some v :=
  yields_accept.trans (by simp [type?_eq_some_iff])

theorem yields_returnType {type : ReturnType} :
    Yields (accept (typeKinds ++ [.keyword .void]) returnType? w) type v ↔
      w.perform (.consumed type.token) = some v := by
  have hr (t : Token) : returnType? t = some type ↔ t = type.token := by
    constructor
    · intro h
      unfold returnType? at h
      split at h
      next =>
        cases h
        rfl
      next =>
        obtain ⟨d, hd, rfl⟩ := Option.map_eq_some_iff.mp h
        exact type?_eq_some_iff.mp hd
    · rintro rfl
      cases type with
      | void => rfl
      | value d => cases d <;> rfl
  exact yields_accept.trans (by simp [hr])

theorem yields_classVariable {kind : VariableKind} :
    Yields (accept [.keyword .static, .keyword .field] classVariable? w) kind v ↔
      ∃ c : ClassVariable, c.kind = kind ∧ w.perform (.keyword c.keyword) = some v := by
  refine yields_accept.trans ?_
  constructor
  · rintro ⟨t, ht, h⟩
    unfold classVariable? at ht
    split at ht
    next =>
      cases ht
      exact ⟨.static, rfl, h⟩
    next =>
      cases ht
      exact ⟨.field, rfl, h⟩
    next => cases ht
  · rintro ⟨c, rfl, h⟩
    exact ⟨_, by cases c <;> rfl, h⟩

theorem yields_subroutineKind {kind : SubroutineKind} :
    Yields (accept subroutineStarts subroutineKind? w) kind v ↔
      w.perform (.keyword kind.keyword) = some v := by
  have hk (t : Token) : subroutineKind? t = some kind ↔ t = .keyword kind.keyword := by
    constructor
    · intro h
      unfold subroutineKind? at h
      split at h <;> cases h <;> rfl
    · rintro rfl
      cases kind <;> rfl
  exact yields_accept.trans (by simp [hk])

theorem yields_declare {kind : VariableKind} {type x : String} :
    Yields (declare kind type x scopes w) scopes' v ↔
      scopes.enter? ⟨kind, type, x⟩ = some scopes' ∧ w = v := by
  unfold declare Scopes.enter? Scopes.declare
  cases h : scopes.refusal? x kind <;> simp

theorem yields_newName {kind : VariableKind} {type : DataType} {x : String} :
    Yields (newName kind type scopes w) (x, scopes') v ↔
      w.follow [.word x] = some v ∧ scopes.enterAll [⟨kind, type.name, x⟩] = some scopes' := by
  unfold newName
  simp only [yields_bind, yields_identifier, yields_declare, yields_pure, Prod.mk.injEq]
  constructor
  · rintro ⟨_, w₁, h₁, _, _, ⟨he, rfl⟩, ⟨rfl, rfl⟩, rfl⟩
    exact ⟨by simp [h₁], by simp [he]⟩
  · rintro ⟨hw, he⟩
    obtain ⟨w₁, h₁, h⟩ := Window.follow_cons_iff.mp hw
    cases h
    exact ⟨x, _, h₁, scopes', _, ⟨by simpa using he, rfl⟩, ⟨rfl, rfl⟩, rfl⟩

theorem yields_nextName {kind : VariableKind} {type : DataType} {x : String} :
    Yields (nextName kind type scopes w) (x, scopes') v ↔
      w.follow [.symbol .comma, .word x] = some v ∧
        scopes.enterAll [⟨kind, type.name, x⟩] = some scopes' := by
  unfold nextName
  simp only [yields_bind, yields_symbol, yields_pure]
  constructor
  · rintro ⟨_, w₁, h₁, p, w₂, h₂, rfl, rfl⟩
    obtain ⟨hx, he⟩ := yields_newName.mp h₂
    exact ⟨Window.follow_cons_of h₁ hx, he⟩
  · rintro ⟨hw, he⟩
    obtain ⟨w₁, h₁, hw⟩ := Window.follow_cons_iff.mp hw
    exact ⟨(), w₁, h₁, (x, scopes'), v, yields_newName.mpr ⟨hw, he⟩, rfl, rfl⟩

/-- Where the items of a repetition are told apart from what follows by their first token, what it
reads is one item after the other. -/
theorem many_iff {α γ : Type} {starts : List TokenKind}
    {R : α → Scopes → Window → Scopes → Window → Prop} {events : γ → List Event}
    {entries : γ → List Entry} {f : γ → α}
    (hR : ∀ x (s : Scopes) (w : Window) s' v, R x s w s' v ↔
      ∃ g, f g = x ∧ w.follow (events g) = some v ∧ s.enterAll (entries g) = some s')
    (hs : ∀ g (w v : Window), w.follow (events g) = some v → w.nextIsAmong starts = true)
    {xs : List α} :
    Many starts R xs scopes w scopes' v ↔
      ∃ gs : List γ, gs.map f = xs ∧ w.follow (gs.flatMap events) = some v ∧
        scopes.enterAll (gs.flatMap entries) = some scopes' ∧ v.nextIsAmong starts = false := by
  induction xs generalizing scopes w with
  | nil =>
    constructor
    · rintro ⟨hn, rfl, rfl⟩
      exact ⟨[], rfl, rfl, rfl, hn⟩
    · rintro ⟨gs, hg, hw, he, hn⟩
      obtain rfl := List.map_eq_nil_iff.mp hg
      cases hw
      cases he
      exact ⟨hn, rfl, rfl⟩
  | cons x xs ih =>
    constructor
    · rintro ⟨-, s₁, w₁, hx, hxs⟩
      obtain ⟨g, rfl, hw, he⟩ := (hR _ _ _ _ _).mp hx
      obtain ⟨gs, rfl, hws, hes, hn⟩ := ih.mp hxs
      refine ⟨g :: gs, rfl, ?_, ?_, hn⟩
      · simp [hw, hws]
      · simp [he, hes]
    · rintro ⟨gs, hg, hw, he, hn⟩
      obtain ⟨g, gs, rfl, rfl, rfl⟩ := List.map_eq_cons_iff.mp hg
      rw [List.flatMap_cons, Window.follow_append_iff] at hw
      rw [List.flatMap_cons, Scopes.enterAll_append, Option.bind_eq_some_iff] at he
      obtain ⟨w₁, hw, hws⟩ := hw
      obtain ⟨s₁, he, hes⟩ := he
      have hx : R (f g) scopes w s₁ w₁ := (hR _ _ _ _ _).mpr ⟨g, rfl, hw, he⟩
      have hxs := ih.mpr ⟨gs, rfl, hws, hes, hn⟩
      exact ⟨hs g w w₁ hw, s₁, w₁, hx, hxs⟩

theorem many_nextName {kind : VariableKind} {type : DataType} {xs : List String} :
    Many [.symbol .comma] (fun x s w s' v => Yields (nextName kind type s w) (x, s') v) xs
        scopes w scopes' v ↔
      w.follow (xs.flatMap fun x => [.symbol .comma, .word x]) = some v ∧
        scopes.enterAll (xs.map (⟨kind, type.name, ·⟩)) = some scopes' ∧
        v.nextIsAmong [.symbol .comma] = false := by
  have hR (x : String) (s : Scopes) (w : Window) (s' : Scopes) (v : Window) :
      Yields (nextName kind type s w) (x, s') v ↔ ∃ g, id g = x ∧
        w.follow [.symbol .comma, .word g] = some v ∧
        s.enterAll [⟨kind, type.name, g⟩] = some s' := by
    rw [yields_nextName]
    simp
  rw [many_iff hR ?starts]
  · simp [List.map_eq_flatMap]
  · exact fun x w v h => comma_of_follow h

theorem yields_declaration {kind : VariableKind} {d : Declaration} :
    Yields (declaration kind scopes w) (d, scopes') v ↔
      ∃ g : Variables, g.declaration kind = d ∧ w.follow g.derivation = some v ∧
        scopes.enterAll (g.entries kind) = some scopes' := by
  have he (type : DataType) (x : String) (xs : List String) :
      Variables.entries kind ⟨type, x, xs⟩ =
        [⟨kind, type.name, x⟩] ++ xs.map (⟨kind, type.name, ·⟩) := rfl
  unfold declaration
  simp only [yields_bind, yields_type, yields_symbol, yields_pure]
  constructor
  · rintro ⟨type, w₁, h₁, ⟨x, s₁⟩, w₂, h₂, ⟨xs, s₂⟩, w₃, h₃, _, w₄, h₄, hd, rfl⟩
    cases hd
    obtain ⟨hx, hex⟩ := yields_newName.mp h₂
    obtain ⟨hxs, hexs, -⟩ := many_nextName.mp (yields_manyWith.mp h₃)
    refine ⟨⟨type, x, xs⟩, rfl, ?_, ?_⟩
    · refine Window.follow_cons_of h₁ ?_
      rw [← List.singleton_append, Window.follow_append, hx]
      simp [hxs, h₄]
    · rw [he, Scopes.enterAll_append, hex]
      exact hexs
  · rintro ⟨⟨type, x, xs⟩, rfl, hw, hs⟩
    obtain ⟨w₁, h₁, hw⟩ := Window.follow_cons_iff.mp hw
    rw [← List.singleton_append, Window.follow_append_iff] at hw
    obtain ⟨w₂, hx, hw⟩ := hw
    obtain ⟨w₃, hxs, hw⟩ := Window.follow_append_iff.mp hw
    obtain ⟨w₄, h₄, h⟩ := Window.follow_cons_iff.mp hw
    cases h
    rw [he, Scopes.enterAll_append, Option.bind_eq_some_iff] at hs
    obtain ⟨s₁, hex, hexs⟩ := hs
    have hn : w₃.nextIsAmong [.symbol .comma] = false := by
      rw [Window.nextIsAmong, Window.next_token_of_perform h₄]
      rfl
    have h₂ := yields_newName.mpr ⟨hx, hex⟩
    have h₃ := many_nextName.mpr ⟨hxs, hexs, hn⟩
    exact ⟨type, w₁, h₁, (x, s₁), w₂, h₂, (xs, scopes'), w₃, yields_manyWith.mpr h₃, (), _, h₄,
      rfl, rfl⟩

theorem yields_classVarDec {d : Declaration} :
    Yields (Parse.classVarDec scopes w) (d, scopes') v ↔
      ∃ g : ClassVariable × Variables, g.2.declaration g.1.kind = d ∧
        w.follow (classVarDec g) = some v ∧ scopes.enterAll (g.2.entries g.1.kind) = some scopes' := by
  unfold Parse.classVarDec
  simp only [yields_within, yields_bind, yields_classVariable, yields_pure]
  constructor
  · rintro ⟨u, ⟨_, w₁, ⟨c, rfl, h₁⟩, p, w₂, h₂, rfl, rfl⟩, rfl⟩
    obtain ⟨g, rfl, hw, he⟩ := yields_declaration.mp h₂
    exact ⟨(c, g), rfl, Window.follow_span (Window.follow_cons_of h₁ hw), he⟩
  · rintro ⟨⟨c, g⟩, rfl, hw, he⟩
    rw [classVarDec, Window.follow_span_iff] at hw
    obtain ⟨u, hw, rfl⟩ := hw
    obtain ⟨w₁, h₁, hw⟩ := Window.follow_cons_iff.mp hw
    have h₂ := yields_declaration.mpr ⟨g, rfl, hw, he⟩
    exact ⟨u, ⟨_, w₁, ⟨c, rfl, h₁⟩, (_, scopes'), u, h₂, rfl, rfl⟩, rfl⟩

theorem yields_varDec {d : Declaration} :
    Yields (Parse.varDec scopes w) (d, scopes') v ↔
      ∃ g : Variables, g.declaration .local = d ∧ w.follow (varDec g) = some v ∧
        scopes.enterAll (g.entries .local) = some scopes' := by
  unfold Parse.varDec
  simp only [yields_within, yields_bind, yields_keyword, yields_pure]
  constructor
  · rintro ⟨u, ⟨_, w₁, h₁, p, w₂, h₂, rfl, rfl⟩, rfl⟩
    obtain ⟨g, rfl, hw, he⟩ := yields_declaration.mp h₂
    exact ⟨g, rfl, Window.follow_span (Window.follow_cons_of h₁ hw), he⟩
  · rintro ⟨g, rfl, hw, he⟩
    rw [varDec, Window.follow_span_iff] at hw
    obtain ⟨u, hw, rfl⟩ := hw
    obtain ⟨w₁, h₁, hw⟩ := Window.follow_cons_iff.mp hw
    have h₂ := yields_declaration.mpr ⟨g, rfl, hw, he⟩
    exact ⟨u, ⟨(), w₁, h₁, (_, scopes'), u, h₂, rfl, rfl⟩, rfl⟩

theorem yields_parameter {p : Parameter} :
    Yields (parameter scopes w) (p, scopes') v ↔
      w.follow (parameterDerivation p) = some v ∧
        scopes.enterAll [parameterEntry p] = some scopes' := by
  unfold parameter
  simp only [yields_bind, yields_type, yields_pure]
  constructor
  · rintro ⟨type, w₁, h₁, ⟨x, s₁⟩, w₂, h₂, hp, rfl⟩
    cases hp
    obtain ⟨hx, he⟩ := yields_newName.mp h₂
    exact ⟨Window.follow_cons_of h₁ hx, he⟩
  · rintro ⟨hw, he⟩
    obtain ⟨w₁, h₁, hw⟩ := Window.follow_cons_iff.mp hw
    exact ⟨p.type, w₁, h₁, (p.name, scopes'), v, yields_newName.mpr ⟨hw, he⟩, rfl, rfl⟩

theorem yields_nextParameter {p : Parameter} :
    Yields (nextParameter scopes w) (p, scopes') v ↔
      w.follow (.symbol .comma :: parameterDerivation p) = some v ∧
        scopes.enterAll [parameterEntry p] = some scopes' := by
  unfold nextParameter
  simp only [yields_bind, yields_symbol, yields_pure]
  constructor
  · rintro ⟨_, w₁, h₁, _, w₂, h₂, rfl, rfl⟩
    obtain ⟨hw, he⟩ := yields_parameter.mp h₂
    exact ⟨Window.follow_cons_of h₁ hw, he⟩
  · rintro ⟨hw, he⟩
    obtain ⟨w₁, h₁, hw⟩ := Window.follow_cons_iff.mp hw
    exact ⟨(), w₁, h₁, (p, scopes'), v, yields_parameter.mpr ⟨hw, he⟩, rfl, rfl⟩

theorem many_nextParameter {ps : List Parameter} :
    Many [.symbol .comma] (fun p s w s' v => Yields (nextParameter s w) (p, s') v) ps
        scopes w scopes' v ↔
      w.follow (ps.flatMap fun p => .symbol .comma :: parameterDerivation p) = some v ∧
        scopes.enterAll (ps.map parameterEntry) = some scopes' ∧
        v.nextIsAmong [.symbol .comma] = false := by
  have hR (p : Parameter) (s : Scopes) (w : Window) (s' : Scopes) (v : Window) :
      Yields (nextParameter s w) (p, s') v ↔ ∃ g, id g = p ∧
        w.follow (.symbol .comma :: parameterDerivation g) = some v ∧
        s.enterAll [parameterEntry g] = some s' := by
    rw [yields_nextParameter]
    simp
  rw [many_iff hR ?starts]
  · simp [List.map_eq_flatMap]
  · exact fun p w v h => comma_of_follow h

theorem not_closed_of_parameter {p : Parameter} (hw : w.follow (parameterDerivation p) = some v) :
    ¬ w.nextIs (.symbol .rightParen) = true := by
  intro h
  have ht : w.next.token = p.type.token := Window.next_token_of_follow hw
  rw [Window.nextIs_symbol.mp h] at ht
  exact p.type.not_closing (ht ▸ by decide)

theorem parameterList_sound {ps : List Parameter} (h : Yields (parameterList scopes w) (ps, scopes') v) :
    w.follow (Event.span .parameterList (parameterDerivations ps)) = some v ∧
      scopes.enterAll (ps.map parameterEntry) = some scopes' := by
  rw [parameterList, yields_within] at h
  obtain ⟨u, h, rfl⟩ := h
  split at h
  next =>
    obtain ⟨hp, rfl⟩ := yields_pure.mp h
    cases hp
    exact ⟨Window.follow_span rfl, rfl⟩
  next =>
    simp only [yields_bind, yields_pure] at h
    obtain ⟨⟨p, s₁⟩, w₁, h₁, ⟨ps, s₂⟩, w₂, h₂, hp, rfl⟩ := h
    cases hp
    obtain ⟨hw, he⟩ := yields_parameter.mp h₁
    obtain ⟨hws, hes, -⟩ := many_nextParameter.mp (yields_manyWith.mp h₂)
    refine ⟨Window.follow_span ?_, ?_⟩
    · exact Window.follow_append_iff.mpr ⟨w₁, hw, hws⟩
    · rw [List.map_cons, ← List.singleton_append, Scopes.enterAll_append, he]
      exact hes

theorem yields_parameterList {ps : List Parameter} (hv : v.next.token = .symbol .rightParen) :
    Yields (parameterList scopes w) (ps, scopes') v ↔
      w.follow (Event.span .parameterList (parameterDerivations ps)) = some v ∧
        scopes.enterAll (ps.map parameterEntry) = some scopes' := by
  constructor
  · exact parameterList_sound
  · rw [parameterList, yields_within]
    rintro ⟨hw, he⟩
    rw [Window.follow_span_iff] at hw
    obtain ⟨u, hw, rfl⟩ := hw
    refine ⟨u, ?_, rfl⟩
    cases ps with
    | nil =>
      have hu : w.enter .parameterList = u := Option.some.inj hw
      subst hu
      cases he
      have hn : (w.enter .parameterList).nextIs (.symbol .rightParen) = true :=
        Window.nextIs_symbol.mpr hv
      rw [if_pos hn]
      exact yields_pure.mpr ⟨rfl, rfl⟩
    | cons p ps =>
      obtain ⟨w₁, h₁, hws⟩ := Window.follow_append_iff.mp hw
      rw [List.map_cons, ← List.singleton_append, Scopes.enterAll_append,
        Option.bind_eq_some_iff] at he
      obtain ⟨s₁, he, hes⟩ := he
      have hc : u.nextIsAmong [.symbol .comma] = false := by
        rw [Window.nextIsAmong, show u.next.token = _ from hv]
        rfl
      have hp := yields_parameter.mpr ⟨h₁, he⟩
      have hps := many_nextParameter.mpr ⟨hws, hes, hc⟩
      rw [if_neg (not_closed_of_parameter h₁)]
      simp only [yields_bind, yields_pure]
      exact ⟨(p, s₁), w₁, hp, (ps, scopes'), u, yields_manyWith.mpr hps, rfl, rfl⟩

theorem var_of_follow {g : Variables} (hw : w.follow (varDec g) = some v) :
    w.nextIsAmong [.keyword .var] = true := by
  rw [Window.nextIsAmong, Window.next_token_of_follow hw]
  rfl

theorem classVariable_of_follow {g : ClassVariable × Variables}
    (hw : w.follow (classVarDec g) = some v) :
    w.nextIsAmong [.keyword .static, .keyword .field] = true := by
  rw [Window.nextIsAmong, Window.next_token_of_follow hw]
  obtain ⟨c, d⟩ := g
  cases c <;> rfl

theorem many_varDec {ds : List Declaration} :
    Many [.keyword .var] (fun d s w s' v => Yields (Parse.varDec s w) (d, s') v) ds
        scopes w scopes' v ↔
      ∃ gs : List Variables, gs.map (·.declaration .local) = ds ∧
        w.follow (gs.flatMap varDec) = some v ∧
        scopes.enterAll (gs.flatMap (·.entries .local)) = some scopes' ∧
        v.nextIsAmong [.keyword .var] = false :=
  many_iff (fun _ _ _ _ _ => yields_varDec) fun _ _ _ h => var_of_follow h

theorem many_classVarDec {ds : List Declaration} :
    Many [.keyword .static, .keyword .field]
        (fun d s w s' v => Yields (Parse.classVarDec s w) (d, s') v) ds scopes w scopes' v ↔
      ∃ gs : List (ClassVariable × Variables), gs.map (fun g => g.2.declaration g.1.kind) = ds ∧
        w.follow (gs.flatMap classVarDec) = some v ∧
        scopes.enterAll (gs.flatMap fun g => g.2.entries g.1.kind) = some scopes' ∧
        v.nextIsAmong [.keyword .static, .keyword .field] = false :=
  many_iff (fun _ _ _ _ _ => yields_classVarDec) fun _ _ _ h => classVariable_of_follow h

/-- Statements are told apart from the declarations that may stand in front of them. -/
theorem not_var_of_statements {ss : List Statement}
    (hw : w.follow (Event.span .statements (Statement.derivationAll ss)) = some v)
    (hv : v.next.token = .symbol .rightBrace) : w.nextIsAmong [.keyword .var] = false := by
  obtain ⟨u, hu, rfl⟩ := Window.follow_span_iff.mp hw
  obtain h | ⟨s, h⟩ := Statement.next_token_all hu
  · rw [Window.nextIsAmong, show w.next.token = _ from h, show u.next.token = _ from hv]
    rfl
  · rw [Window.nextIsAmong, show w.next.token = _ from h]
    cases s <;> rfl

theorem yields_subroutineBody {className : String} {ds : List Declaration}
    {rs : List Jack.Statement} :
    Yields (subroutineBody className scopes w) (ds, rs) v ↔
      ∃ (gs : List Variables) (ss : List Statement) (s : Scopes),
        gs.map (·.declaration .local) = ds ∧
        scopes.enterAll (gs.flatMap (·.entries .local)) = some s ∧
        Statement.resolveAll ⟨className, s⟩ ss = some rs ∧
        w.follow (Event.span .subroutineBody (braced
          (gs.flatMap varDec ++ Event.span .statements (Statement.derivationAll ss)))) = some v := by
  rw [subroutineBody, yields_within]
  simp only [yields_bind, yields_symbol, yields_endBlock, yields_pure]
  constructor
  · rintro ⟨u, ⟨_, w₁, h₁, ⟨ds, s⟩, w₂, h₂, rs, w₃, h₃, _, w₄, h₄, hr, rfl⟩, rfl⟩
    cases hr
    obtain ⟨gs, rfl, hgs, he, -⟩ := many_varDec.mp (yields_manyWith.mp h₂)
    obtain ⟨ss, hss, hrs⟩ := statements_sound h₃
    refine ⟨gs, ss, s, rfl, he, hrs, Window.follow_span ?_⟩
    simp [braced, h₁, hgs, hss, h₄]
  · rintro ⟨gs, ss, s, rfl, he, hrs, hw⟩
    rw [Window.follow_span_iff] at hw
    obtain ⟨u, hw, rfl⟩ := hw
    simp only [braced, Window.follow_cons_iff, Window.follow_append_iff, Window.follow_nil] at hw
    obtain ⟨w₁, h₁, w₃, ⟨w₂, h₂, h₃⟩, w₄, h₄, h⟩ := hw
    cases h
    have hb := Window.next_token_of_perform h₄
    have hs := statements_complete_of (fun _ _ hw hv => Statement.complete_all ss hw hrs hv) h₃ hb
    have hd := many_varDec.mpr ⟨gs, rfl, h₂, he, not_var_of_statements h₃ hb⟩
    exact ⟨_, ⟨(), w₁, h₁, (_, s), w₂, yields_manyWith.mpr hd, rs, w₃, hs, (), _, h₄, rfl, rfl⟩, rfl⟩

theorem yields_receiver {kind : SubroutineKind} {className : String} :
    Yields (receiver kind className scopes w) scopes' v ↔
      scopes.enterAll (receiverEntry className kind) = some scopes' ∧ w = v := by
  cases kind with
  | method => simp [receiver, receiverEntry, yields_declare]
  | constructor | function => simp [receiver, receiverEntry]

theorem yields_subroutine {className : String} {r : Jack.Subroutine} :
    Yields (subroutine className scopes w) r v ↔
      ∃ g : Subroutine, w.follow g.derivation = some v ∧ g.resolve className scopes = some r := by
  rw [subroutine, yields_within]
  simp only [yields_bind, yields_subroutineKind, yields_returnType, yields_identifier,
    yields_receiver, yields_symbol, yields_pure]
  constructor
  · rintro ⟨u, ⟨kind, w₁, h₁, type, w₂, h₂, x, w₃, h₃, s₁, _, ⟨he₁, rfl⟩, _, w₄, h₄, ⟨ps, s₂⟩, w₅, h₅,
      _, w₆, h₆, ⟨ds, rs⟩, w₇, h₇, rfl, rfl⟩, rfl⟩
    obtain ⟨hps, he₂⟩ := (yields_parameterList (Window.next_token_of_perform h₆)).mp h₅
    obtain ⟨gs, ss, s₃, rfl, he₃, hrs, hw⟩ := yields_subroutineBody.mp h₇
    refine ⟨⟨kind, type, x, ps, gs, ss⟩, Window.follow_span ?_, ?_⟩
    · simp [parenthesized, h₁, h₂, h₃, h₄, hps, h₆, hw]
    · simp [Subroutine.resolve_eq_some_iff, Subroutine.entries, he₁, he₂, he₃, hrs]
  · rintro ⟨⟨kind, type, x, ps, gs, ss⟩, hw, hr⟩
    simp only [Subroutine.resolve_eq_some_iff, Subroutine.entries, Scopes.enterAll_append,
      Option.bind_eq_some_iff] at hr
    obtain ⟨s₃, ⟨s₂, ⟨s₁, he₁, he₂⟩, he₃⟩, rs, hrs, rfl⟩ := hr
    rw [Subroutine.derivation, Window.follow_span_iff] at hw
    obtain ⟨u, hw, rfl⟩ := hw
    obtain ⟨w₁, h₁, hw⟩ := Window.follow_cons_iff.mp hw
    obtain ⟨w₂, h₂, hw⟩ := Window.follow_cons_iff.mp hw
    obtain ⟨w₃, h₃, hw⟩ := Window.follow_cons_iff.mp hw
    obtain ⟨w₆, hp, hb⟩ := Window.follow_append_iff.mp hw
    simp only [parenthesized, Window.follow_cons_iff, Window.follow_append_iff, Window.follow_nil] at hp
    obtain ⟨w₄, h₄, w₅, h₅, _, h₆, h⟩ := hp
    cases h
    have hps := (yields_parameterList (Window.next_token_of_perform h₆)).mpr ⟨h₅, he₂⟩
    have hbs := yields_subroutineBody.mpr ⟨gs, ss, s₃, rfl, he₃, hrs, hb⟩
    exact ⟨u, ⟨kind, w₁, h₁, type, w₂, h₂, x, w₃, h₃, s₁, w₃, ⟨he₁, rfl⟩, (), w₄, h₄, (ps, s₂), w₅, hps,
      (), _, h₆, (_, rs), u, hbs, rfl, rfl⟩, rfl⟩

theorem Subroutine.next_token {g : Subroutine} (h : w.follow g.derivation = some v) :
    w.next.token = .keyword g.kind.keyword :=
  Window.next_token_of_follow h

theorem Subroutine.nextIsAmong {g : Subroutine} (h : w.follow g.derivation = some v) :
    w.nextIsAmong subroutineStarts = true := by
  rw [Window.nextIsAmong, g.next_token h]
  cases g.kind <;> rfl

theorem many_subroutine {className : String} {rs : List Jack.Subroutine} :
    Many subroutineStarts (fun r (_ : Unit) w _ v => Yields (subroutine className scopes w) r v) rs
        () w () v ↔
      ∃ gs : List Subroutine, gs.mapM (·.resolve className scopes) = some rs ∧
        w.follow (gs.flatMap (·.derivation)) = some v ∧ v.nextIsAmong subroutineStarts = false := by
  induction rs generalizing w with
  | nil =>
    constructor
    · rintro ⟨hn, -, rfl⟩
      exact ⟨[], rfl, rfl, hn⟩
    · rintro ⟨gs, hr, hw, hn⟩
      cases gs with
      | nil =>
        cases hw
        exact ⟨hn, rfl, rfl⟩
      | cons g gs =>
        rw [List.mapM_cons] at hr
        obtain ⟨r, -, rs, -, h⟩ := bind₂_eq_some_iff.mp hr
        cases h
  | cons r rs ih =>
    constructor
    · rintro ⟨-, _, w₁, hx, hxs⟩
      obtain ⟨g, hw, hr⟩ := yields_subroutine.mp hx
      obtain ⟨gs, hrs, hws, hn⟩ := ih.mp hxs
      exact ⟨g :: gs, by simp [hr, hrs], by simp [hw, hws], hn⟩
    · rintro ⟨gs, hr, hw, hn⟩
      cases gs with
      | nil => cases hr
      | cons g gs =>
        rw [List.mapM_cons] at hr
        obtain ⟨r, hr, rs, hrs, h⟩ := bind₂_eq_some_iff.mp hr
        cases h
        rw [List.flatMap_cons, Window.follow_append_iff] at hw
        obtain ⟨w₁, hw, hws⟩ := hw
        have hx := yields_subroutine.mpr ⟨g, hw, hr⟩
        have hxs := ih.mpr ⟨gs, hrs, hws, hn⟩
        exact ⟨g.nextIsAmong hw, (), w₁, hx, hxs⟩

theorem Subroutine.next_token_all {gs : List Subroutine}
    (hw : w.follow (gs.flatMap (·.derivation)) = some v) :
    w.next.token = v.next.token ∨ ∃ kind : SubroutineKind, w.next.token = .keyword kind.keyword := by
  cases gs with
  | nil =>
    cases hw
    exact .inl rfl
  | cons g gs =>
    rw [List.flatMap_cons, Window.follow_append_iff] at hw
    obtain ⟨u, hu, -⟩ := hw
    exact .inr ⟨g.kind, g.next_token hu⟩

theorem not_classVariable_of_subroutines {gs : List Subroutine}
    (hw : w.follow (gs.flatMap (·.derivation)) = some v)
    (hv : v.nextIsAmong [.keyword .static, .keyword .field] = false) :
    w.nextIsAmong [.keyword .static, .keyword .field] = false := by
  obtain h | ⟨kind, h⟩ := Subroutine.next_token_all hw
  · rwa [Window.nextIsAmong, h]
  · rw [Window.nextIsAmong, h]
    cases kind <;> rfl

theorem yields_endClass {u : Unit} :
    Yields (endClass w) u v ↔ w.perform (.symbol .rightBrace) = some v :=
  yields_token

theorem yields_classDec {r : Jack.Class} :
    Yields (classDec w) r v ↔
      ∃ g : Class, w.follow g.derivation = some v ∧ g.resolve = some r := by
  rw [classDec, yields_within]
  simp only [yields_bind, yields_keyword, yields_identifier, yields_symbol, yields_many,
    yields_endClass, yields_pure]
  constructor
  · rintro ⟨u, ⟨_, w₁, h₁, x, w₂, h₂, _, w₃, h₃, ⟨ds, s⟩, w₄, h₄, rs, w₅, h₅, _, w₆, h₆, rfl, rfl⟩, rfl⟩
    obtain ⟨ds, rfl, hds, he, -⟩ := many_classVarDec.mp (yields_manyWith.mp h₄)
    obtain ⟨gs, hrs, hgs, -⟩ := many_subroutine.mp h₅
    refine ⟨⟨x, ds, gs⟩, Window.follow_span ?_, ?_⟩
    · simp [braced, h₁, h₂, h₃, hds, hgs, h₆]
    · simp [Class.resolve_eq_some_iff, Class.entries, he, hrs]
  · rintro ⟨⟨x, ds, gs⟩, hw, hr⟩
    obtain ⟨s, he, rs, hrs, rfl⟩ := Class.resolve_eq_some_iff.mp hr
    rw [Class.derivation, Window.follow_span_iff] at hw
    obtain ⟨u, hw, rfl⟩ := hw
    simp only [braced, Window.follow_cons_iff, Window.follow_append_iff, Window.follow_nil] at hw
    obtain ⟨w₁, h₁, w₂, h₂, w₃, h₃, w₅, ⟨w₄, h₄, h₅⟩, w₆, h₆, h⟩ := hw
    cases h
    have hb := Window.next_token_of_perform h₆
    have hn : w₅.nextIsAmong subroutineStarts = false := by
      rw [Window.nextIsAmong, hb]
      rfl
    have hc : w₅.nextIsAmong [.keyword .static, .keyword .field] = false := by
      rw [Window.nextIsAmong, hb]
      rfl
    have hds := many_classVarDec.mpr ⟨ds, rfl, h₄, he, not_classVariable_of_subroutines h₅ hc⟩
    have hss := many_subroutine.mpr ⟨gs, hrs, h₅, hn⟩
    exact ⟨_, ⟨(), w₁, h₁, x, w₂, h₂, (), w₃, h₃, (_, s), w₄, yields_manyWith.mpr hds, rs, w₅, hss,
      (), _, h₆, rfl, rfl⟩, rfl⟩

end Grammar

end Jack
