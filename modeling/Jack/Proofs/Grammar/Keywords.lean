import Jack.Proofs.Grammar.Tree

namespace Jack

namespace Grammar

open Event (tokens)

def Structural (k : Keyword) : Prop :=
  ∀ c : NamedConstant, c.keyword ≠ k

variable {k : Keyword}

theorem Called.keyword_not_mem (called : Called) : .keyword k ∉ tokens called.derivation := by
  cases called <;> simp [Called.derivation]

mutual

theorem Term.keyword_not_mem (hk : Structural k) (s : Term) : .keyword k ∉ tokens s.derivation := by
  cases s with
  | integer | string | name => simp [Term.derivation]
  | constant value => simpa [Term.derivation] using (hk value).symm
  | element x index => simp [Term.derivation, Event.bracketed, index.keyword_not_mem hk]
  | call called arguments =>
    simp [Term.derivation, Event.parenthesized, called.keyword_not_mem,
      Expression.keyword_not_mem_all hk arguments]
  | group inner => simp [Term.derivation, Event.parenthesized, inner.keyword_not_mem hk]
  | unary op operand => simp [Term.derivation, operand.keyword_not_mem hk]

theorem Expression.keyword_not_mem (hk : Structural k) (s : Expression) :
    .keyword k ∉ tokens s.derivation := by
  obtain ⟨first, rest⟩ := s
  simp [Expression.derivation, first.keyword_not_mem hk, Expression.keyword_not_mem_rest hk rest]

theorem Expression.keyword_not_mem_rest (hk : Structural k) (ss : List (BinaryOp × Term)) :
    .keyword k ∉ tokens (Expression.derivationRest ss) := by
  match ss with
  | [] => simp [Expression.derivationRest]
  | (op, s) :: ss =>
    simp [Expression.derivationRest, s.keyword_not_mem hk, Expression.keyword_not_mem_rest hk ss]

theorem Expression.keyword_not_mem_all (hk : Structural k) (ss : List Expression) :
    .keyword k ∉ tokens (Expression.derivationAll ss) := by
  match ss with
  | [] => simp [Expression.derivationAll]
  | s :: ss =>
    simp [Expression.derivationAll, s.keyword_not_mem hk, Expression.keyword_not_mem_more hk ss]

theorem Expression.keyword_not_mem_more (hk : Structural k) (ss : List Expression) :
    .keyword k ∉ tokens (Expression.derivationMore ss) := by
  match ss with
  | [] => simp [Expression.derivationMore]
  | s :: ss =>
    simp [Expression.derivationMore, s.keyword_not_mem hk, Expression.keyword_not_mem_more hk ss]

end

theorem structural_if : Structural .if := by
  intro c
  cases c <;> decide

theorem structural_while : Structural .while := by
  intro c
  cases c <;> decide

theorem structural_return : Structural .return := by
  intro c
  cases c <;> decide

theorem Expression.count_keyword (hk : Structural k) (s : Expression) :
    (tokens s.derivation).count (.keyword k) = 0 :=
  List.count_eq_zero.mpr (s.keyword_not_mem hk)

theorem Expression.count_keyword_all (hk : Structural k) (ss : List Expression) :
    (tokens (Expression.derivationAll ss)).count (.keyword k) = 0 :=
  List.count_eq_zero.mpr (Expression.keyword_not_mem_all hk ss)

theorem Called.count_keyword (called : Called) :
    (tokens called.derivation).count (.keyword k) = 0 :=
  List.count_eq_zero.mpr called.keyword_not_mem

end Grammar

end Jack
