import Jack.Proofs.Grammar.Nesting

namespace Jack.Grammar

open Event (Balanced span parenthesized)

section Balanced

theorem Called.balanced (called : Called) : Balanced called.derivation := by
  cases called <;> rfl

mutual

theorem Term.balanced (t : Term) : Balanced t.derivation := by
  cases t with
  | integer | string | constant | name => exact .span _ rfl
  | element x index => exact .span _ (.consumed _ (index.balanced.enclosed _ _))
  | call called arguments =>
    exact .span _ (called.balanced.append (((Expression.balanced_all arguments).span _).enclosed _ _))
  | group inner => exact .span _ (inner.balanced.enclosed _ _)
  | unary op operand => exact .span _ (.consumed _ operand.balanced)

theorem Expression.balanced (e : Expression) : Balanced e.derivation := by
  obtain ⟨first, rest⟩ := e
  exact .span _ (first.balanced.append (Expression.balanced_rest rest))

theorem Expression.balanced_rest (rest : List (BinaryOp × Term)) :
    Balanced (Expression.derivationRest rest) := by
  match rest with
  | [] => exact .nil
  | (op, operand) :: rest => exact .consumed _ (operand.balanced.append (Expression.balanced_rest rest))

theorem Expression.balanced_all (es : List Expression) : Balanced (Expression.derivationAll es) := by
  match es with
  | [] => exact .nil
  | e :: es => exact e.balanced.append (Expression.balanced_more es)

theorem Expression.balanced_more (es : List Expression) : Balanced (Expression.derivationMore es) := by
  match es with
  | [] => exact .nil
  | e :: es => exact .consumed _ (e.balanced.append (Expression.balanced_more es))

end

mutual

theorem Statement.balanced (s : Statement) : Balanced s.derivation := by
  cases s with
  | assign x value =>
    exact .span _ (.consumed _ (.consumed _ (value.balanced.enclosed _ _)))
  | store x index value =>
    exact .span _ (.consumed _ (.consumed _ ((index.balanced.enclosed _ _).append
      (value.balanced.enclosed _ _))))
  | ifThen condition yes =>
    exact .span _ (.consumed _ ((condition.balanced.enclosed _ _).append
      (((Statement.balanced_all yes).span _).enclosed _ _)))
  | ifElse condition yes no =>
    exact .span _ (.consumed _ (((condition.balanced.enclosed _ _).append
      (((Statement.balanced_all yes).span _).enclosed _ _)).append
        (.consumed _ (((Statement.balanced_all no).span _).enclosed _ _))))
  | «while» condition body =>
    exact .span _ (.consumed _ ((condition.balanced.enclosed _ _).append
      (((Statement.balanced_all body).span _).enclosed _ _)))
  | «do» called arguments =>
    exact .span _ (.consumed _ ((called.balanced.append
      (((Expression.balanced_all arguments).span _).enclosed _ _)).append rfl))
  | «return» value => cases value with
    | none => exact .span _ rfl
    | some value => exact .span _ (value.balanced.enclosed _ _)

theorem Statement.balanced_all (ss : List Statement) : Balanced (Statement.derivationAll ss) := by
  match ss with
  | [] => exact .nil
  | s :: ss => exact s.balanced.append (Statement.balanced_all ss)

end

theorem balanced_tokens (ts : List Token) : Balanced (ts.map .consumed) := by
  induction ts with
  | nil => exact .nil
  | cons t ts ih => exact ih.consumed t

theorem Variables.derivation_eq (d : Variables) : d.derivation = (d.type.token :: .identifier d.first ::
    (d.more.flatMap (fun x => [.symbol .comma, .identifier x]) ++ [.symbol .semicolon])).map .consumed := by
  simp [derivation, List.map_flatMap]

theorem parameterDerivations_eq (ps : List Parameter) :
    ∃ ts : List Token, parameterDerivations ps = ts.map .consumed := by
  cases ps with
  | nil => exact ⟨[], rfl⟩
  | cons p ps =>
    exact ⟨[p.type.token, .identifier p.name] ++ ps.flatMap fun q =>
      [.symbol .comma, q.type.token, .identifier q.name], by
        simp [parameterDerivations, parameterDerivation, List.map_flatMap]⟩

theorem Variables.balanced (d : Variables) : Balanced d.derivation :=
  d.derivation_eq ▸ balanced_tokens _

theorem balanced_parameters (ps : List Parameter) : Balanced (parameterDerivations ps) := by
  obtain ⟨ts, h⟩ := parameterDerivations_eq ps
  exact h ▸ balanced_tokens ts

theorem Subroutine.balanced (s : Subroutine) : Balanced s.derivation :=
  .span _ (.consumed _ (.consumed _ (.consumed _ ((((balanced_parameters s.parameters).span _).enclosed _ _).append
    (.span _ (((Balanced.flatMap fun d _ => .span _ (.consumed _ d.balanced)).append
      ((Statement.balanced_all s.body).span _)).enclosed _ _))))))

end Balanced

section Unique

variable {r r' : Rule} {es fs front behind : List Event}

theorem eq_of_span (h : span r es = span r' fs) : es = fs := by
  obtain ⟨hr, h⟩ := List.cons.inj h
  cases hr
  exact List.append_cancel_right h

theorem Term.exists_span (t : Term) : ∃ es, Balanced es ∧ t.derivation = span .term es := by
  cases t with
  | integer | string | constant | name => exact ⟨_, .consumed _ .nil, rfl⟩
  | element x index => exact ⟨_, .consumed _ (index.balanced.enclosed _ _), rfl⟩
  | call called arguments =>
    exact ⟨_, called.balanced.append (((Expression.balanced_all arguments).span _).enclosed _ _), rfl⟩
  | group inner => exact ⟨_, inner.balanced.enclosed _ _, rfl⟩
  | unary op operand => exact ⟨_, .consumed _ operand.balanced, rfl⟩

theorem Expression.exists_span (e : Expression) : ∃ es, Balanced es ∧ e.derivation = span .expression es := by
  obtain ⟨first, rest⟩ := e
  exact ⟨_, first.balanced.append (Expression.balanced_rest rest), rfl⟩

/-- What two rules read is the same if the same events go on from there. -/
theorem eq_of_span_append (hes : Balanced es) (hfs : Balanced fs)
    (h : span r es ++ front = span r' fs ++ behind) : span r es = span r' fs ∧ front = behind := by
  obtain ⟨hr, h⟩ := List.cons.inj h
  cases hr
  simp only [List.append_eq, List.append_assoc] at h
  obtain ⟨rfl, -, rfl⟩ := Event.eq_of_append_leave hes hfs h
  exact ⟨rfl, rfl⟩

theorem Term.eq_of_append {t u : Term} (h : t.derivation ++ front = u.derivation ++ behind) :
    t.derivation = u.derivation ∧ front = behind := by
  obtain ⟨es, hes, ht⟩ := t.exists_span
  obtain ⟨fs, hfs, hu⟩ := u.exists_span
  rw [ht, hu] at h ⊢
  exact eq_of_span_append hes hfs h

theorem Expression.eq_of_append {e e' : Expression} (h : e.derivation ++ front = e'.derivation ++ behind) :
    e.derivation = e'.derivation ∧ front = behind := by
  obtain ⟨es, hes, he⟩ := e.exists_span
  obtain ⟨fs, hfs, he'⟩ := e'.exists_span
  rw [he, he'] at h ⊢
  exact eq_of_span_append hes hfs h

theorem Called.eq_of_append {called called' : Called}
    (h : called.derivation ++ parenthesized es = called'.derivation ++ parenthesized fs) :
    called = called' ∧ parenthesized es = parenthesized fs := by
  cases called <;> cases called' <;> simp [Called.derivation, parenthesized] at h ⊢ <;> simp [h]

mutual

theorem Term.eq_of_derivation {t u : Term} (h : t.derivation = u.derivation) : t = u := by
  cases t with
  | integer value =>
    cases u with
    | integer value' =>
      cases h
      rfl
    | call called arguments => cases called <;> cases h
    | _ => cases h
  | string text =>
    cases u with
    | string text' =>
      cases h
      rfl
    | call called arguments => cases called <;> cases h
    | _ => cases h
  | constant value =>
    cases u with
    | constant value' => cases value <;> cases value' <;> first | rfl | cases h
    | call called arguments => cases called <;> cases h
    | _ => cases h
  | name z =>
    cases u with
    | name z' =>
      cases h
      rfl
    | call called arguments => cases called <;> cases h
    | _ => cases h
  | element z index =>
    cases u with
    | element z' index' =>
      obtain ⟨hz, hi⟩ := List.cons.inj (eq_of_span h)
      cases hz
      rw [Expression.eq_of_derivation (List.append_cancel_right (List.cons.inj hi).2)]
    | call called arguments => cases called <;> cases h
    | _ => cases h
  | call called arguments =>
    cases u with
    | call called' arguments' =>
      obtain ⟨rfl, ha⟩ := Called.eq_of_append (eq_of_span h)
      rw [Expression.eq_of_all (eq_of_span (List.append_cancel_right (List.cons.inj ha).2))]
    | _ => cases called <;> cases h
  | group inner =>
    cases u with
    | group inner' =>
      rw [Expression.eq_of_derivation (List.append_cancel_right (List.cons.inj (eq_of_span h)).2)]
    | unary op operand => cases op <;> cases h
    | call called arguments => cases called <;> cases h
    | _ => cases h
  | unary op operand =>
    cases u with
    | unary op' operand' =>
      obtain ⟨ho, ht⟩ := List.cons.inj (eq_of_span h)
      rw [Term.eq_of_derivation ht]
      cases op <;> cases op' <;> first | rfl | cases ho
    | group inner => cases op <;> cases h
    | call called arguments => cases called <;> cases h
    | _ => cases h
termination_by structural t

theorem Expression.eq_of_derivation {e e' : Expression} (h : e.derivation = e'.derivation) : e = e' := by
  obtain ⟨first, rest⟩ := e
  obtain ⟨first', rest'⟩ := e'
  obtain ⟨hf, hr⟩ := Term.eq_of_append (eq_of_span h)
  rw [Term.eq_of_derivation hf, Expression.eq_of_rest hr]
termination_by structural e

theorem Expression.eq_of_rest {ps qs : List (BinaryOp × Term)}
    (h : Expression.derivationRest ps = Expression.derivationRest qs) : ps = qs := by
  match ps, qs with
  | [], [] => rfl
  | (op, operand) :: ps, (op', operand') :: qs =>
    obtain ⟨ho, h⟩ := List.cons.inj h
    obtain ⟨ht, hr⟩ := Term.eq_of_append h
    rw [Term.eq_of_derivation ht, Expression.eq_of_rest hr]
    cases op <;> cases op' <;> first | rfl | cases ho
  | [], _ :: _ => cases h
  | _ :: _, [] => cases h
termination_by structural ps

theorem Expression.eq_of_all {es fs : List Expression}
    (h : Expression.derivationAll es = Expression.derivationAll fs) : es = fs := by
  match es, fs with
  | [], [] => rfl
  | e :: es, f :: fs =>
    obtain ⟨he, hm⟩ := Expression.eq_of_append h
    rw [Expression.eq_of_derivation he, Expression.eq_of_more hm]
  | [], ⟨_, _⟩ :: _ => cases h
  | ⟨_, _⟩ :: _, [] => cases h
termination_by structural es

theorem Expression.eq_of_more {es fs : List Expression}
    (h : Expression.derivationMore es = Expression.derivationMore fs) : es = fs := by
  match es, fs with
  | [], [] => rfl
  | e :: es, f :: fs =>
    obtain ⟨he, hm⟩ := Expression.eq_of_append (List.cons.inj h).2
    rw [Expression.eq_of_derivation he, Expression.eq_of_more hm]
  | [], _ :: _ => cases h
  | _ :: _, [] => cases h
termination_by structural es

end

end Unique

end Jack.Grammar
