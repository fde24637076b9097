import Jack.Proofs.Parse.Statement
import Jack.Proofs.Rejection.Expression

namespace Jack

namespace Grammar

open Parse
open Event (parenthesized bracketed braced)

variable {names : Names} {w : Window}

theorem Statement.derivationAll_append (ss ts : List Statement) :
    Statement.derivationAll (ss ++ ts) = Statement.derivationAll ss ++ Statement.derivationAll ts := by
  induction ss with
  | nil => rfl
  | cons s ss ih => simp [Statement.derivationAll, ih]

theorem assigned_rejects :
    Rejects (MisfitIn names fun e : Expression => .symbol .equals :: (e.derivation ++ [.symbol .semicolon])) []
      (assigned names w) w := by
  refine Rejects.symbol_bind fun u _ => Rejects.last ?_ fun _ _ _ => rejects_accept.last fun _ _ _ => rejects_pure
  exact rejects_part (expression_rejects names u) fun e => ⟨e, by simp⟩

theorem condition_rejects :
    Rejects (MisfitIn names fun e : Expression => parenthesized e.derivation) [] (condition names w) w := by
  refine Rejects.symbol_bind fun u _ => Rejects.last ?_ fun _ _ _ => rejects_accept.last fun _ _ _ => rejects_pure
  exact rejects_part (expression_rejects names u) fun e => ⟨e, by simp [parenthesized]⟩

/-- An expression to complete a derivation with. -/
def Expression.trivial : Expression := .chain (.constant .true) []

theorem letStatement_rejects :
    Rejects (MisfitIn names Statement.derivation) [] (letStatement names w) w := by
  refine Rejects.within (Rejects.keyword_bind fun _ _ => Rejects.identifier_bind fun x u _ => ?_)
  refine (resolve_rejects fun hx => ?_).bind fun a v hv => ?_
  · exact ⟨.assign x .trivial, _, rfl, .target [] hx rfl⟩
  obtain ⟨-, rfl⟩ := yields_resolve.mp hv
  refine ⟨[], rfl, ?_⟩
  dsimp only
  split
  next =>
    refine Rejects.bind ?index fun i v h => ?_
    case index =>
      refine rejects_part (subscript_rejects (expressions_reject names _)) fun e => ?_
      exact ⟨.store x e .trivial, by simp [Statement.derivation, Event.span]⟩
    obtain ⟨i, hi, -⟩ := subscript_sound (fun _ _ _ _ h => expression_sound h) h
    refine ⟨_, hi, Rejects.last ?_ fun _ _ _ => rejects_pure⟩
    refine rejects_part assigned_rejects fun e => ⟨.store x i e, ?_⟩
    simp [Statement.derivation, Event.span]
  next =>
    refine Rejects.last ?_ fun _ _ _ => rejects_pure
    refine rejects_part assigned_rejects fun e => ⟨.assign x e, ?_⟩
    simp [Statement.derivation, Event.span]

theorem doStatement_rejects :
    Rejects (MisfitIn names Statement.derivation) [] (doStatement names w) w := by
  refine Rejects.within (Rejects.keyword_bind fun _ _ => Rejects.identifier_bind fun x u _ => ?_)
  refine Rejects.last ?_ fun _ _ _ => rejects_accept.last fun _ _ _ => rejects_pure
  refine rejects_part (call_rejects (expressions_reject names _)) fun c => ?_
  refine ⟨.do c.1 c.2, ?_⟩
  simp [Statement.derivation, c.1.1.derivation_eq, c.1.2, Event.span]

theorem returnStatement_rejects :
    Rejects (MisfitIn names Statement.derivation) [] (returnStatement names w) w := by
  refine Rejects.within (Rejects.keyword_bind fun u _ => ?_)
  dsimp only
  split
  next => exact rejects_accept.last fun _ _ _ => rejects_pure
  next =>
    refine Rejects.last ?_ fun _ _ _ => rejects_accept.last fun _ _ _ => rejects_pure
    refine rejects_part (expression_rejects names u) fun e => ?_
    refine ⟨.return (some e), ?_⟩
    simp [Statement.derivation, Event.span]

def StatementsReject (names : Names) (n : Nat) : Prop :=
  ∀ w : Window, w.remaining < n → Rejects (MisfitIn names Statement.derivation) [] (statement names w) w

theorem StatementsReject.mono {k n : Nat} (h : StatementsReject names n) (hk : k ≤ n) :
    StatementsReject names k :=
  fun w hw => h w (Nat.lt_of_lt_of_le hw hk)

theorem statements_rejects_of (hS : StatementsReject names (w.remaining + 1)) :
    Rejects (MisfitIn names fun ss => Event.span .statements (Statement.derivationAll ss)) []
      (statements names w) w := by
  rw [statements]
  refine Rejects.within (Rejects.many
    (Q := fun es => ∃ ss, es = .enter .statements :: Statement.derivationAll ss) ?_ ?_ ⟨[], rfl⟩ _)
  · rintro _ v r v' ⟨ss, rfl⟩ - hv
    obtain ⟨r, hr, -⟩ := statement_sound hv
    refine ⟨_, hr, ss ++ [r], ?_⟩
    simp [Statement.derivationAll_append, Statement.derivationAll]
  · rintro _ v ⟨ss, rfl⟩ hv
    refine rejects_part (hS v hv) fun r => ⟨ss ++ [r], ?_⟩
    simp [Event.span, Statement.derivationAll_append, Statement.derivationAll]

theorem block_rejects (hS : StatementsReject names w.remaining) :
    Rejects (MisfitIn names fun ss => braced (Event.span .statements (Statement.derivationAll ss))) []
      (block names w) w := by
  rw [block]
  refine Rejects.symbol_bind fun u h => ?_
  refine Rejects.last ?_ fun _ _ _ => rejects_accept.last fun _ _ _ => rejects_pure
  refine rejects_part (statements_rejects_of (hS.mono h.bound)) fun ss => ?_
  exact ⟨ss, by simp [braced]⟩

theorem ifStatement_rejects (hS : StatementsReject names w.remaining) :
    Rejects (MisfitIn names Statement.derivation) [] (ifStatement names w) w := by
  rw [ifStatement]
  refine Rejects.within (Rejects.keyword_bind fun w₁ h₁ => Rejects.bind ?condition fun e w₂ h₂ => ?_)
  case condition =>
    refine rejects_part condition_rejects fun e => ⟨.ifThen e [], ?_⟩
    simp [Statement.derivation, Event.span]
  obtain ⟨e, he, -⟩ := condition_sound h₂
  have hw₁ : w₁.remaining < w.remaining := h₁.bound
  have hw₂ := h₂.bound
  refine ⟨_, he, Rejects.bind ?yes fun yes w₃ h₃ => ?_⟩
  case yes =>
    refine rejects_part (block_rejects (hS.mono (by omega))) fun ss => ⟨.ifThen e ss, ?_⟩
    simp [Statement.derivation, Event.span]
  have hw₃ := h₃.bound
  obtain ⟨yes, hyes, -⟩ := block_sound (fun _ _ _ _ h => statement_sound h) h₃
  refine ⟨_, hyes, ?_⟩
  dsimp only
  split
  next =>
    refine Rejects.keyword_bind fun w₄ h₄ => Rejects.last ?_ fun _ _ _ => rejects_pure
    have hw₄ : w₄.remaining < w₃.remaining := h₄.bound
    have hw : w₄.remaining ≤ w.remaining := by omega
    refine rejects_part (block_rejects (hS.mono hw)) fun no => ?_
    refine ⟨.ifElse e yes no, ?_⟩
    simp [Statement.derivation, Event.span]
  next => exact rejects_pure

theorem whileStatement_rejects (hS : StatementsReject names w.remaining) :
    Rejects (MisfitIn names Statement.derivation) [] (whileStatement names w) w := by
  rw [whileStatement]
  refine Rejects.within (Rejects.keyword_bind fun w₁ h₁ => Rejects.bind ?condition fun e w₂ h₂ => ?_)
  case condition =>
    refine rejects_part condition_rejects fun e => ⟨.while e [], ?_⟩
    simp [Statement.derivation, Event.span]
  obtain ⟨e, he, -⟩ := condition_sound h₂
  have hw₁ : w₁.remaining < w.remaining := h₁.bound
  have hw₂ := h₂.bound
  refine ⟨_, he, Rejects.last ?_ fun _ _ _ => rejects_pure⟩
  refine rejects_part (block_rejects (hS.mono (by omega))) fun ss => ⟨.while e ss, ?_⟩
  simp [Statement.derivation, Event.span]

theorem statements_reject (names : Names) (n : Nat) : StatementsReject names n := by
  induction n with
  | zero => exact fun w hw => absurd hw (Nat.not_lt_zero _)
  | succ n ih =>
    intro w hw
    have hS : StatementsReject names w.remaining := ih.mono (Nat.le_of_lt_succ hw)
    unfold statement
    split
    next => exact letStatement_rejects
    next => exact ifStatement_rejects hS
    next => exact whileStatement_rejects hS
    next => exact doStatement_rejects
    next => exact returnStatement_rejects
    next => exact rejects_unexpected

theorem statements_rejects (names : Names) (w : Window) :
    Rejects (MisfitIn names fun ss => Event.span .statements (Statement.derivationAll ss)) []
      (statements names w) w :=
  statements_rejects_of (statements_reject names _)

end Grammar

end Jack
