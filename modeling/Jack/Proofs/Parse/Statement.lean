import Jack.Proofs.Parse.Expression

namespace Jack

namespace Grammar

open Parse
open Event (parenthesized bracketed braced)

variable {names : Names} {w v : Window}

theorem yields_endBlock {u : Unit} :
    Yields (endBlock w) u v ↔ w.perform (.symbol .rightBrace) = some v :=
  yields_token

section Soundness

/-- Between the windows lies a statement, of which `r` is made. -/
def ReadsStatement (names : Names) (w : Window) (r : Jack.Statement) (v : Window) : Prop :=
  ∃ s : Statement, w.follow s.derivation = some v ∧ s.resolve names = some r

/-- The parser is right about the statements that fewer than `n` lexemes are left for. -/
def StatementsSound (names : Names) (n : Nat) : Prop :=
  ∀ w : Window, w.remaining < n → ∀ r v, Yields (statement names w) r v → ReadsStatement names w r v

theorem StatementsSound.mono {k n : Nat} (h : StatementsSound names n) (hk : k ≤ n) :
    StatementsSound names k :=
  fun w hw => h w (Nat.lt_of_lt_of_le hw hk)

theorem assigned_sound {e : Jack.Expression} (h : Yields (assigned names w) e v) :
    ∃ s : Expression, w.follow (.symbol .equals :: (s.derivation ++ [.symbol .semicolon])) = some v ∧
      s.resolve names = some e := by
  unfold assigned at h
  simp only [yields_bind, yields_symbol, yields_pure] at h
  obtain ⟨_, w₁, h₁, e, w₂, h₂, _, w₃, h₃, rfl, rfl⟩ := h
  obtain ⟨s, hs, he⟩ := expression_sound h₂
  exact ⟨s, by simp [h₁, hs, h₃], he⟩

theorem condition_sound {e : Jack.Expression} (h : Yields (condition names w) e v) :
    ∃ s : Expression, w.follow (parenthesized s.derivation) = some v ∧ s.resolve names = some e := by
  unfold condition at h
  simp only [yields_bind, yields_symbol, yields_pure] at h
  obtain ⟨_, w₁, h₁, e, w₂, h₂, _, w₃, h₃, rfl, rfl⟩ := h
  obtain ⟨s, hs, he⟩ := expression_sound h₂
  exact ⟨s, by simp [parenthesized, h₁, hs, h₃], he⟩

theorem letStatement_sound {r : Jack.Statement} (h : Yields (letStatement names w) r v) :
    ReadsStatement names w r v := by
  rw [letStatement, yields_within] at h
  obtain ⟨v, h, rfl⟩ := h
  simp only [yields_bind, yields_keyword, yields_identifier, yields_resolve] at h
  obtain ⟨_, w₁, h₁, x, w₂, h₂, a, _, ⟨ha, rfl⟩, h⟩ := h
  split at h
  next =>
    simp only [yields_bind, yields_pure] at h
    obtain ⟨i, w₃, h₃, e, w₄, h₄, rfl, rfl⟩ := h
    obtain ⟨si, hsi, hi⟩ := subscript_sound (fun _ _ _ _ h => expression_sound h) h₃
    obtain ⟨s, hs, he⟩ := assigned_sound h₄
    refine ⟨.store x si s, Window.follow_span ?_, by simp [Statement.resolve, ha, hi, he]⟩
    exact Window.follow_cons_of h₁ (Window.follow_cons_of h₂ (Window.follow_append_iff.mpr ⟨_, hsi, hs⟩))
  next =>
    simp only [yields_bind, yields_pure] at h
    obtain ⟨e, w₃, h₃, rfl, rfl⟩ := h
    obtain ⟨s, hs, he⟩ := assigned_sound h₃
    refine ⟨.assign x s, Window.follow_span ?_, by simp [Statement.resolve, ha, he]⟩
    exact Window.follow_cons_of h₁ (Window.follow_cons_of h₂ hs)

theorem doStatement_sound {r : Jack.Statement} (h : Yields (doStatement names w) r v) :
    ReadsStatement names w r v := by
  rw [doStatement, yields_within] at h
  obtain ⟨v, h, rfl⟩ := h
  simp only [yields_bind, yields_keyword, yields_identifier, yields_symbol, yields_pure] at h
  obtain ⟨_, w₁, h₁, x, w₂, h₂, ⟨f, es⟩, w₃, h₃, _, w₄, h₄, rfl, rfl⟩ := h
  obtain ⟨called, ss, rfl, hss, rfl, hes⟩ := call_sound (fun _ _ _ _ h => expression_sound h) h₃
  refine ⟨.do called ss, Window.follow_span ?_, by simp [Statement.resolve, hes]⟩
  rw [called.derivation_eq]
  refine Window.follow_cons_of h₁ (Window.follow_append_iff.mpr ⟨w₃, ?_, by simp [h₄]⟩)
  exact Window.follow_cons_of h₂ hss

theorem returnStatement_sound {r : Jack.Statement} (h : Yields (returnStatement names w) r v) :
    ReadsStatement names w r v := by
  rw [returnStatement, yields_within] at h
  obtain ⟨v, h, rfl⟩ := h
  simp only [yields_bind, yields_keyword] at h
  obtain ⟨_, w₁, h₁, h⟩ := h
  split at h
  next =>
    simp only [yields_bind, yields_symbol, yields_pure] at h
    obtain ⟨_, w₂, h₂, rfl, rfl⟩ := h
    exact ⟨.return none, Window.follow_span (by simp [h₁, h₂]), rfl⟩
  next =>
    simp only [yields_bind, yields_symbol, yields_pure] at h
    obtain ⟨e, w₂, h₂, _, w₃, h₃, rfl, rfl⟩ := h
    obtain ⟨s, hs, he⟩ := expression_sound h₂
    refine ⟨.return (some s), Window.follow_span ?_, by simp [Statement.resolve, he]⟩
    simp [h₁, hs, h₃]

theorem many_statements_sound {rs : List Jack.Statement}
    (hS : StatementsSound names (w.remaining + 1))
    (h : Many statementStarts (fun r (_ : Unit) w _ v => Yields (statement names w) r v)
      rs () w () v) :
    ∃ ss, w.follow (Statement.derivationAll ss) = some v ∧
      Statement.resolveAll names ss = some rs := by
  induction rs generalizing w with
  | nil =>
    obtain ⟨-, -, rfl⟩ := h
    exact ⟨[], rfl, rfl⟩
  | cons r rs ih =>
    obtain ⟨-, _, w₁, hx, h⟩ := h
    have hw₁ : w₁.remaining + 1 ≤ w.remaining + 1 := Nat.le_succ_of_le hx.bound
    obtain ⟨s, hs, hr⟩ := hS w (Nat.lt_succ_self _) r w₁ hx
    obtain ⟨ss, hss, hrs⟩ := ih (hS.mono hw₁) h
    refine ⟨s :: ss, ?_, ?_⟩
    · exact Window.follow_append_iff.mpr ⟨w₁, hs, hss⟩
    · simp [Statement.resolveAll, hr, hrs]

theorem statements_sound_of {rs : List Jack.Statement}
    (hS : StatementsSound names (w.remaining + 1))
    (h : Yields (statements names w) rs v) :
    ∃ ss, w.follow (Event.span .statements (Statement.derivationAll ss)) = some v ∧
      Statement.resolveAll names ss = some rs := by
  rw [statements, yields_within] at h
  obtain ⟨v, h, rfl⟩ := h
  have hS' : StatementsSound names ((w.enter .statements).remaining + 1) := hS
  obtain ⟨ss, hss, hrs⟩ := many_statements_sound hS' (yields_many.mp h)
  exact ⟨ss, Window.follow_span hss, hrs⟩

theorem block_sound {rs : List Jack.Statement}
    (hS : StatementsSound names w.remaining)
    (h : Yields (block names w) rs v) :
    ∃ ss, w.follow (braced (Event.span .statements (Statement.derivationAll ss))) = some v ∧
      Statement.resolveAll names ss = some rs := by
  unfold block at h
  simp only [yields_bind, yields_symbol, yields_endBlock, yields_pure] at h
  obtain ⟨_, w₁, h₁, rs, w₂, h₂, _, w₃, h₃, rfl, rfl⟩ := h
  have hw₁ := Window.remaining_perform h₁ (by simp)
  obtain ⟨ss, hss, hrs⟩ := statements_sound_of (hS.mono hw₁) h₂
  exact ⟨ss, by simp [braced, h₁, hss, h₃], hrs⟩

theorem ifStatement_sound {r : Jack.Statement}
    (hS : StatementsSound names w.remaining)
    (h : Yields (ifStatement names w) r v) : ReadsStatement names w r v := by
  rw [ifStatement, yields_within] at h
  obtain ⟨v, h, rfl⟩ := h
  simp only [yields_bind, yields_keyword] at h
  obtain ⟨_, w₁, h₁, e, w₂, h₂, ys, w₃, h₃, h⟩ := h
  have hw₁ := Window.remaining_perform h₁ (by simp)
  have hw₂ := h₂.bound
  have hw₃ := h₃.bound
  rw [Window.remaining_enter] at hw₁
  obtain ⟨s, hs, he⟩ := condition_sound h₂
  obtain ⟨yes, hyes, hys⟩ := block_sound (hS.mono (by omega)) h₃
  split at h
  next =>
    simp only [yields_bind, yields_keyword, yields_pure] at h
    obtain ⟨_, w₄, h₄, ns, w₅, h₅, rfl, rfl⟩ := h
    have hw₄ := Window.remaining_perform h₄ (by simp)
    obtain ⟨no, hno, hns⟩ := block_sound (hS.mono (by omega)) h₅
    refine ⟨.ifElse s yes no, Window.follow_span ?_, by simp [Statement.resolve, he, hys, hns]⟩
    simp [h₁, hs, hyes, h₄, hno]
  next =>
    obtain ⟨rfl, rfl⟩ := yields_pure.mp h
    refine ⟨.ifThen s yes, Window.follow_span ?_, by simp [Statement.resolve, he, hys]⟩
    simp [h₁, hs, hyes]

theorem whileStatement_sound {r : Jack.Statement}
    (hS : StatementsSound names w.remaining)
    (h : Yields (whileStatement names w) r v) : ReadsStatement names w r v := by
  rw [whileStatement, yields_within] at h
  obtain ⟨v, h, rfl⟩ := h
  simp only [yields_bind, yields_keyword, yields_pure] at h
  obtain ⟨_, w₁, h₁, e, w₂, h₂, rs, w₃, h₃, rfl, rfl⟩ := h
  have hw₁ := Window.remaining_perform h₁ (by simp)
  have hw₂ := h₂.bound
  rw [Window.remaining_enter] at hw₁
  obtain ⟨s, hs, he⟩ := condition_sound h₂
  obtain ⟨ss, hss, hrs⟩ := block_sound (hS.mono (by omega)) h₃
  refine ⟨.while s ss, Window.follow_span ?_, by simp [Statement.resolve, he, hrs]⟩
  simp [h₁, hs, hss]

theorem statement_sound {r : Jack.Statement} (h : Yields (statement names w) r v) :
    ReadsStatement names w r v := by
  induction hr : w.remaining using Nat.strongRecOn generalizing w r v with
  | ind n ih =>
    subst hr
    have hS : StatementsSound names w.remaining := fun u hu r v h => ih _ hu h rfl
    unfold statement at h
    split at h
    next => exact letStatement_sound h
    next => exact ifStatement_sound hS h
    next => exact whileStatement_sound hS h
    next => exact doStatement_sound h
    next => exact returnStatement_sound h
    next => exact (not_yields_unexpected h).elim

theorem statements_sound {rs : List Jack.Statement} (h : Yields (statements names w) rs v) :
    ∃ ss, w.follow (Event.span .statements (Statement.derivationAll ss)) = some v ∧
      Statement.resolveAll names ss = some rs :=
  statements_sound_of (fun _ _ _ _ h => statement_sound h) h

end Soundness

section Completeness

def Statement.keyword : Statement → Keyword
  | .assign _ _ | .store _ _ _ => .let
  | .ifThen _ _ | .ifElse _ _ _ => .if
  | .while _ _ => .while
  | .do _ _ => .do
  | .return _ => .return

theorem Statement.next_token {s : Statement} (hw : w.follow s.derivation = some v) :
    w.next.token = .keyword s.keyword := by
  rw [Window.next_token_of_follow hw]
  cases s with
  | «return» value => cases value <;> rfl
  | assign | store | ifThen | ifElse | «while» | «do» => rfl

theorem Statement.next_token_all {ss : List Statement}
    (hw : w.follow (Statement.derivationAll ss) = some v) :
    w.next.token = v.next.token ∨ ∃ s : Statement, w.next.token = .keyword s.keyword := by
  cases ss with
  | nil =>
    cases hw
    exact .inl rfl
  | cons s ss =>
    obtain ⟨u, hu, -⟩ := Window.follow_append_iff.mp hw
    exact .inr ⟨s, s.next_token hu⟩

theorem not_else_of_all {ss : List Statement} (hw : w.follow (Statement.derivationAll ss) = some v)
    (hv : v.next.token = .symbol .rightBrace) : w.next.token ≠ .keyword .else := by
  obtain h | ⟨s, h⟩ := Statement.next_token_all hw
  · simp [h, hv]
  · cases s <;> simp [h, Statement.keyword]

theorem assigned_complete {s : Expression} {e : Jack.Expression}
    (hw : w.follow (.symbol .equals :: (s.derivation ++ [.symbol .semicolon])) = some v)
    (hs : s.resolve names = some e) : Yields (assigned names w) e v := by
  simp only [Window.follow_cons_iff, Window.follow_append_iff, Window.follow_nil] at hw
  obtain ⟨w₁, h₁, w₂, h₂, w₃, h₃, h⟩ := hw
  cases h
  have he : Yields (expression names w₁) e w₂ :=
    s.complete h₂ hs (closing_of_perform h₃ (by decide))
  unfold assigned
  simp only [yields_bind, yields_symbol, yields_pure]
  exact ⟨(), w₁, h₁, e, w₂, he, (), _, h₃, rfl, rfl⟩

theorem condition_complete {s : Expression} {e : Jack.Expression}
    (hw : w.follow (parenthesized s.derivation) = some v) (hs : s.resolve names = some e) :
    Yields (condition names w) e v := by
  simp only [parenthesized, Window.follow_cons_iff, Window.follow_append_iff, Window.follow_nil] at hw
  obtain ⟨w₁, h₁, w₂, h₂, w₃, h₃, h⟩ := hw
  cases h
  have he : Yields (expression names w₁) e w₂ :=
    s.complete h₂ hs (closing_of_perform h₃ (by decide))
  unfold condition
  simp only [yields_bind, yields_symbol, yields_pure]
  exact ⟨(), w₁, h₁, e, w₂, he, (), _, h₃, rfl, rfl⟩

theorem assign_complete {x : String} {value : Expression} {r : Jack.Statement}
    (hw : w.follow (Statement.assign x value).derivation = some v)
    (hs : (Statement.assign x value).resolve names = some r) : Yields (letStatement names w) r v := by
  obtain ⟨a, ha, e, he, rfl⟩ := bind₂_eq_some_iff.mp hs
  simp only [Statement.derivation, Window.follow_span_iff] at hw
  obtain ⟨u, hw, rfl⟩ := hw
  obtain ⟨w₁, h₁, hw⟩ := Window.follow_cons_iff.mp hw
  obtain ⟨w₂, h₂, hw⟩ := Window.follow_cons_iff.mp hw
  have hb : ¬ w₂.nextIs (.symbol .leftBracket) = true := by
    rw [Window.nextIs_symbol, Window.next_token_of_follow hw]
    simp
  rw [letStatement, yields_within]
  simp only [yields_bind, yields_keyword, yields_identifier, yields_resolve]
  refine ⟨u, ⟨(), w₁, h₁, x, w₂, h₂, a, w₂, ⟨ha, rfl⟩, ?_⟩, rfl⟩
  rw [if_neg hb]
  have he : Yields (assigned names w₂) e u := assigned_complete hw he
  exact yields_bind.mpr ⟨e, u, he, yields_pure.mpr ⟨rfl, rfl⟩⟩

theorem store_complete {x : String} {index value : Expression} {r : Jack.Statement}
    (hw : w.follow (Statement.store x index value).derivation = some v)
    (hs : (Statement.store x index value).resolve names = some r) :
    Yields (letStatement names w) r v := by
  obtain ⟨a, ha, i, hi, e, he, rfl⟩ := bind₃_eq_some_iff.mp hs
  simp only [Statement.derivation, Window.follow_span_iff] at hw
  obtain ⟨u, hw, rfl⟩ := hw
  obtain ⟨w₁, h₁, hw⟩ := Window.follow_cons_iff.mp hw
  obtain ⟨w₂, h₂, hw⟩ := Window.follow_cons_iff.mp hw
  obtain ⟨w₃, h₃, hw⟩ := Window.follow_append_iff.mp hw
  have hb : w₂.nextIs (.symbol .leftBracket) = true :=
    Window.nextIs_symbol.mpr (Window.next_token_of_follow h₃)
  have hi := subscript_complete (fun _ _ hw hv => index.complete hw hi hv) h₃
  have he : Yields (assigned names w₃) e u := assigned_complete hw he
  rw [letStatement, yields_within]
  simp only [yields_bind, yields_keyword, yields_identifier, yields_resolve]
  refine ⟨u, ⟨(), w₁, h₁, x, w₂, h₂, a, w₂, ⟨ha, rfl⟩, ?_⟩, rfl⟩
  rw [if_pos hb]
  simp only [yields_bind, yields_pure]
  exact ⟨i, w₃, hi, e, u, he, rfl, rfl⟩

theorem do_complete {called : Called} {arguments : List Expression} {r : Jack.Statement}
    (hw : w.follow (Statement.do called arguments).derivation = some v)
    (hs : (Statement.do called arguments).resolve names = some r) :
    Yields (doStatement names w) r v := by
  obtain ⟨es, hes, rfl⟩ := Option.map_eq_some_iff.mp hs
  simp only [Statement.derivation, Window.follow_span_iff] at hw
  obtain ⟨u, hw, rfl⟩ := hw
  obtain ⟨w₁, h₁, hw⟩ := Window.follow_cons_iff.mp hw
  rw [called.derivation_eq] at hw
  obtain ⟨w₃, hw, h⟩ := Window.follow_append_iff.mp hw
  obtain ⟨w₂, h₂, h₃⟩ := Window.follow_cons_iff.mp hw
  obtain ⟨w₄, h₄, h⟩ := Window.follow_cons_iff.mp h
  cases h
  have hc := call_complete (fun _ _ hw hv => Expression.complete_all arguments hw hes hv) h₃
  rw [doStatement, yields_within]
  simp only [yields_bind, yields_keyword, yields_identifier, yields_symbol, yields_pure]
  exact ⟨_, ⟨(), w₁, h₁, called.first, w₂, h₂, _, w₃, hc, (), _, h₄, rfl, rfl⟩, rfl⟩

theorem return_complete {value : Option Expression} {r : Jack.Statement}
    (hw : w.follow (Statement.return value).derivation = some v)
    (hs : (Statement.return value).resolve names = some r) :
    Yields (returnStatement names w) r v := by
  rw [returnStatement, yields_within]
  simp only [yields_bind, yields_keyword]
  cases value with
  | none =>
    cases hs
    simp only [Statement.derivation, Window.follow_span_iff] at hw
    obtain ⟨u, hw, rfl⟩ := hw
    obtain ⟨w₁, h₁, hw⟩ := Window.follow_cons_iff.mp hw
    obtain ⟨w₂, h₂, h⟩ := Window.follow_cons_iff.mp hw
    cases h
    refine ⟨_, ⟨(), w₁, h₁, ?_⟩, rfl⟩
    rw [if_pos (Window.nextIs_symbol.mpr (Window.next_token_of_perform h₂))]
    simp only [yields_bind, yields_symbol, yields_pure]
    exact ⟨(), _, h₂, trivial, rfl⟩
  | some value =>
    obtain ⟨e, he, rfl⟩ := Option.map_eq_some_iff.mp hs
    simp only [Statement.derivation, Window.follow_span_iff] at hw
    obtain ⟨u, hw, rfl⟩ := hw
    obtain ⟨w₁, h₁, hw⟩ := Window.follow_cons_iff.mp hw
    obtain ⟨w₂, h₂, hw⟩ := Window.follow_append_iff.mp hw
    obtain ⟨w₃, h₃, h⟩ := Window.follow_cons_iff.mp hw
    cases h
    have hn := value.not_nextIs (c := .semicolon) h₂ (by decide)
    have he : Yields (expression names w₁) e w₂ :=
      value.complete h₂ he (closing_of_perform h₃ (by decide))
    refine ⟨_, ⟨(), w₁, h₁, ?_⟩, rfl⟩
    rw [if_neg hn]
    simp only [yields_bind, yields_symbol, yields_pure]
    exact ⟨e, w₂, he, (), _, h₃, rfl, rfl⟩

theorem statements_complete_of {ss : List Statement} {rs : List Jack.Statement}
    (hS : ∀ w v, w.follow (Statement.derivationAll ss) = some v →
      v.next.token = .symbol .rightBrace →
      Many statementStarts (fun r (_ : Unit) w _ v => Yields (statement names w) r v) rs () w () v)
    (hw : w.follow (Event.span .statements (Statement.derivationAll ss)) = some v)
    (hv : v.next.token = .symbol .rightBrace) : Yields (statements names w) rs v := by
  rw [Window.follow_span_iff] at hw
  obtain ⟨u, hw, rfl⟩ := hw
  rw [statements, yields_within]
  exact ⟨u, yields_many.mpr (hS _ u hw hv), rfl⟩

theorem block_complete {ss : List Statement} {rs : List Jack.Statement}
    (hS : ∀ w v, w.follow (Statement.derivationAll ss) = some v →
      v.next.token = .symbol .rightBrace →
      Many statementStarts (fun r (_ : Unit) w _ v => Yields (statement names w) r v) rs () w () v)
    (hw : w.follow (braced (Event.span .statements (Statement.derivationAll ss))) = some v) :
    Yields (block names w) rs v := by
  simp only [braced, Window.follow_cons_iff, Window.follow_append_iff, Window.follow_nil] at hw
  obtain ⟨w₁, h₁, w₂, h₂, w₃, h₃, h⟩ := hw
  cases h
  have hs := statements_complete_of hS h₂ (Window.next_token_of_perform h₃)
  unfold block
  simp only [yields_bind, yields_symbol, yields_endBlock, yields_pure]
  exact ⟨(), w₁, h₁, rs, w₂, hs, (), _, h₃, rfl, rfl⟩

mutual

theorem Statement.complete (s : Statement) {w v : Window} {r : Jack.Statement}
    (hw : w.follow s.derivation = some v) (hs : s.resolve names = some r)
    (hv : v.next.token ≠ .keyword .else) : Yields (statement names w) r v := by
  have hn := s.next_token hw
  cases s with
  | assign x value =>
    simp only [statement, hn, Statement.keyword]
    exact assign_complete hw hs
  | store x index value =>
    simp only [statement, hn, Statement.keyword]
    exact store_complete hw hs
  | «do» called arguments =>
    simp only [statement, hn, Statement.keyword]
    exact do_complete hw hs
  | «return» value =>
    simp only [statement, hn, Statement.keyword]
    exact return_complete hw hs
  | ifThen condition yes =>
    obtain ⟨e, he, ys, hys, rfl⟩ := bind₂_eq_some_iff.mp hs
    simp only [Statement.derivation, Window.follow_span_iff] at hw
    obtain ⟨u, hw, rfl⟩ := hw
    obtain ⟨w₁, h₁, hw⟩ := Window.follow_cons_iff.mp hw
    obtain ⟨w₂, h₂, hw⟩ := Window.follow_append_iff.mp hw
    have hy := block_complete (fun _ _ hw hv => Statement.complete_all yes hw hys hv) hw
    have he := condition_complete h₂ he
    have hv : ¬ u.nextIs (.keyword .else) = true := fun h => hv (Window.nextIs_keyword.mp h)
    simp only [statement, hn, Statement.keyword]
    rw [ifStatement, yields_within]
    simp only [yields_bind, yields_keyword]
    refine ⟨u, ⟨(), w₁, h₁, e, w₂, he, ys, u, hy, ?_⟩, rfl⟩
    rw [if_neg hv]
    exact yields_pure.mpr ⟨rfl, rfl⟩
  | ifElse condition yes no =>
    obtain ⟨e, he, ys, hys, ns, hns, rfl⟩ := bind₃_eq_some_iff.mp hs
    simp only [Statement.derivation, Window.follow_span_iff] at hw
    obtain ⟨u, hw, rfl⟩ := hw
    obtain ⟨w₁, h₁, hw⟩ := Window.follow_cons_iff.mp hw
    obtain ⟨w₃, h₃, hw⟩ := Window.follow_append_iff.mp hw
    obtain ⟨w₂, h₂, h₃⟩ := Window.follow_append_iff.mp h₃
    obtain ⟨w₄, h₄, hw⟩ := Window.follow_cons_iff.mp hw
    have he := condition_complete h₂ he
    have hy := block_complete (fun _ _ hw hv => Statement.complete_all yes hw hys hv) h₃
    have hn' := block_complete (fun _ _ hw hv => Statement.complete_all no hw hns hv) hw
    simp only [statement, hn, Statement.keyword]
    rw [ifStatement, yields_within]
    simp only [yields_bind, yields_keyword]
    refine ⟨u, ⟨(), w₁, h₁, e, w₂, he, ys, w₃, hy, ?_⟩, rfl⟩
    rw [if_pos (Window.nextIs_keyword.mpr (Window.next_token_of_perform h₄))]
    simp only [yields_bind, yields_keyword, yields_pure]
    exact ⟨(), w₄, h₄, ns, u, hn', rfl, rfl⟩
  | «while» condition body =>
    obtain ⟨e, he, ss, hss, rfl⟩ := bind₂_eq_some_iff.mp hs
    simp only [Statement.derivation, Window.follow_span_iff] at hw
    obtain ⟨u, hw, rfl⟩ := hw
    obtain ⟨w₁, h₁, hw⟩ := Window.follow_cons_iff.mp hw
    obtain ⟨w₂, h₂, hw⟩ := Window.follow_append_iff.mp hw
    have he := condition_complete h₂ he
    have hb := block_complete (fun _ _ hw hv => Statement.complete_all body hw hss hv) hw
    simp only [statement, hn, Statement.keyword]
    rw [whileStatement, yields_within]
    simp only [yields_bind, yields_keyword, yields_pure]
    exact ⟨u, ⟨(), w₁, h₁, e, w₂, he, ss, u, hb, rfl, rfl⟩, rfl⟩

theorem Statement.complete_all (ss : List Statement) {w v : Window} {rs : List Jack.Statement}
    (hw : w.follow (Statement.derivationAll ss) = some v)
    (hs : Statement.resolveAll names ss = some rs) (hv : v.next.token = .symbol .rightBrace) :
    Many statementStarts (fun r (_ : Unit) w _ v => Yields (statement names w) r v) rs () w () v := by
  match ss with
  | [] =>
    have hu : w = v := Option.some.inj hw
    subst hu
    cases hs
    refine ⟨?_, rfl, rfl⟩
    rw [Window.nextIsAmong, hv]
    rfl
  | s :: ss =>
    obtain ⟨w₁, h₁, hw⟩ := Window.follow_append_iff.mp hw
    obtain ⟨r, hr, rs, hrs, rfl⟩ := bind₂_eq_some_iff.mp hs
    have hn : w.nextIsAmong statementStarts = true := by
      rw [Window.nextIsAmong, s.next_token h₁]
      cases s <;> rfl
    have hs : Yields (statement names w) r w₁ := s.complete h₁ hr (not_else_of_all hw hv)
    exact ⟨hn, (), w₁, hs, Statement.complete_all ss hw hrs hv⟩

end

end Completeness

end Grammar

end Jack
