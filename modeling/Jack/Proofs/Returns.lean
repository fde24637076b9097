import Jack.Proofs.Jumps
import Jack.Proofs.Meaning.StatementCode
import Jack.Proofs.VM.Path

namespace Jack

open VM (Command CodeAt Contained Flows FlowsTo labels)

mutual

/-- Does the statement return, whatever its conditions come to? The body of a loop may never be
entered. -/
def Statement.returns : Statement → Bool
  | .return _ => true
  | .ifElse _ yes no => Statement.returnsAny yes && Statement.returnsAny no
  | .assign _ _ | .store _ _ _ | .ifThen _ _ | .while _ _ | .do _ _ => false

def Statement.returnsAny : List Statement → Bool
  | [] => false
  | s :: ss => s.returns || Statement.returnsAny ss

end

section Places

variable {block : List Command}

theorem Statement.contained (hl : (labels block).Nodup) (s : Statement) {k : LabelCount} {i : Nat}
    (h : CodeAt block i (s.code k).1) : Contained block i (i + (s.code k).1.length) :=
  h.contained hl fun l => (s.mem_jumps_iff k l).mp

theorem Statement.contained_all (hl : (labels block).Nodup) (ss : List Statement) {k : LabelCount}
    {i : Nat} (h : CodeAt block i (Statement.codeAll k ss).1) :
    Contained block i (i + (Statement.codeAll k ss).1.length) :=
  h.contained hl fun l => (Statement.mem_jumps_all_iff k ss l).mp

theorem not_flowsTo_of_returns {i : Nat} {cs : List Command} (h : CodeAt block i (cs ++ [.return]))
    (hs : ∀ c ∈ cs, c.IsStraight) : ¬ FlowsTo block i (i + (cs ++ [Command.return]).length) := by
  rw [h.left.flowsTo_iff_of_isStraight hs (by simp)]
  exact h.right.not_flowsTo_of_return (by simp)

mutual

/-- The code of a statement can be gone through to its end just if the statement need not return. -/
theorem Statement.flowsTo_iff (hl : (labels block).Nodup) (s : Statement) (k : LabelCount) (i : Nat)
    (h : CodeAt block i (s.code k).1) :
    FlowsTo block i (i + (s.code k).1.length) ↔ s.returns = false := by
  cases s with
  | assign target value =>
    refine iff_of_true (h.flowsTo_end ?_) rfl
    simpa [Statement.code, or_imp, forall_and] using value.straight_code
  | store array index value =>
    refine iff_of_true (h.flowsTo_end ?_) rfl
    simpa [Statement.code, or_imp, forall_and, storeElement] using
      And.intro index.straight_code value.straight_code
  | «do» callee arguments =>
    refine iff_of_true (h.flowsTo_end ?_) rfl
    simpa [Statement.code, or_imp, forall_and] using (Term.call callee arguments).straight_code
  | «return» value =>
    refine iff_of_false ?_ (by simp [Statement.returns])
    cases value with
    | none =>
      have h' : CodeAt block i ([.push .constant 0] ++ [.return]) := h
      exact not_flowsTo_of_returns h' (by simp)
    | some value => exact not_flowsTo_of_returns h value.straight_code
  | ifThen condition yes =>
    simp only [Statement.code, List.append_assoc, List.cons_append, List.nil_append] at h ⊢
    have hgoto := h.right.tail
    have htrue := hgoto.tail
    have hfalse := htrue.tail.right
    generalize hj : i + List.length _ = j
    simp only [List.length_append, List.length_cons, List.length_nil] at hj
    refine iff_of_true ?_ rfl
    rw [h.left.flowsTo_iff_of_isStraight condition.straight_code (by omega),
      h.right.flowsTo_ifGoto_iff htrue hl (by omega)]
    refine .inl ?_
    rw [hgoto.flowsTo_goto_iff hfalse hl (by omega)]
    exact hfalse.flowsTo_label (by omega)
  | ifElse condition yes no =>
    have hyes := Statement.flowsTo_all_iff hl yes k.forIf.2
    have hno := Statement.flowsTo_all_iff hl no (Statement.codeAll k.forIf.2 yes).2
    simp only [Statement.code, List.append_assoc, List.cons_append, List.nil_append] at h ⊢
    have hgoto := h.right.tail
    have htrue := hgoto.tail
    have hexit := htrue.tail.right
    have hfalse := hexit.tail
    have hdone := hfalse.tail.right
    have hy := Statement.contained_all hl yes htrue.tail.left
    have hn := Statement.contained_all hl no hfalse.tail.left
    generalize hj : i + List.length _ = j
    simp only [List.length_append, List.length_cons, List.length_nil] at hj
    -- The ways part at the condition and meet again at the last label.
    rw [h.left.flowsTo_iff_of_isStraight condition.straight_code (by omega),
      h.right.flowsTo_ifGoto_iff htrue hl (by omega),
      hgoto.flowsTo_goto_iff hfalse hl (by omega), hfalse.flowsTo_label_iff (by omega),
      hn.flowsTo_iff (by omega) (by omega), hno _ hfalse.tail.left,
      htrue.flowsTo_label_iff (by omega), hy.flowsTo_iff (by omega) (by omega),
      hyes _ htrue.tail.left, hexit.flowsTo_goto_iff hdone hl (by omega),
      and_iff_left (hdone.flowsTo_label (by omega)), and_iff_left (hdone.flowsTo_label (by omega)),
      Statement.returns, Bool.and_eq_false_iff, or_comm]
  | «while» condition body =>
    simp only [Statement.code, List.append_assoc, List.cons_append, List.nil_append] at h ⊢
    have htest := h.tail
    rw [List.append_cons] at htest
    have hdone := htest.right.tail.right.tail
    have hs : ∀ c ∈ condition.code ++ [.arithmetic .not], c.IsStraight := by
      simpa [or_imp, forall_and] using condition.straight_code
    generalize hj : i + List.length _ = j
    simp only [List.length_append, List.length_cons, List.length_nil] at hj
    refine iff_of_true ?_ rfl
    rw [h.flowsTo_label_iff (by omega), htest.left.flowsTo_iff_of_isStraight hs (by simp; omega),
      htest.right.flowsTo_ifGoto_iff hdone hl (by simp; omega)]
    exact .inr (hdone.flowsTo_label (by simp; omega))

theorem Statement.flowsTo_all_iff (hl : (labels block).Nodup) (ss : List Statement) (k : LabelCount)
    (i : Nat) (h : CodeAt block i (Statement.codeAll k ss).1) :
    FlowsTo block i (i + (Statement.codeAll k ss).1.length) ↔ Statement.returnsAny ss = false := by
  match ss with
  | [] => exact iff_of_true .refl rfl
  | s :: ss =>
    have hs := s.flowsTo_iff hl k i h.left
    have hss := Statement.flowsTo_all_iff hl ss (s.code k).2 _ h.right
    simp only [Statement.codeAll, List.length_append, ← Nat.add_assoc]
    rw [(s.contained hl h.left).flowsTo_iff (Nat.le_add_right _ _) (Nat.le_add_right _ _), hs, hss]
    simp [Statement.returnsAny]

end

end Places

/-- From the head of a subroutine control may get to the end of the block just if no statement of the
body is sure to return. -/
theorem Subroutine.flowsTo_end_iff (className : String) (fields : Nat) (s : Subroutine) :
    FlowsTo (s.code className fields) 0 (s.code className fields).length ↔
      Statement.returnsAny s.body = false := by
  have hl : (labels (s.code className fields)).Nodup := by
    rw [s.labels_code]
    exact (Statement.numbered_all .zero s.body).nodup
  have hc : CodeAt (s.code className fields) 0 (.function (className ++ "." ++ s.name)
      (Declaration.total s.locals) :: s.kind.prologue fields ++ (Statement.codeAll .zero s.body).1) :=
    ⟨[], [], by simp [Subroutine.code], rfl⟩
  have hs : ∀ c ∈ Command.function (className ++ "." ++ s.name) (Declaration.total s.locals) ::
      s.kind.prologue fields, c.IsStraight := by
    cases hk : s.kind <;> simp [SubroutineKind.prologue, VM.Command.IsStraight]
  rw [hc.left.flowsTo_iff_of_isStraight hs (by simp [Subroutine.code]),
    ← Statement.flowsTo_all_iff hl s.body .zero _ hc.right, Nat.add_assoc, ← List.length_append,
    Nat.zero_add, Nat.zero_add]
  rfl

/-- In what is compiled, control may run over the end of the block of a subroutine, without a `return`,
just if the body does not return on every way through its statements. Nothing but a statement of the
source makes a subroutine return. -/
theorem blocks_end_iff {recorded : Bool} {items : Array Item} {p : Compiled}
    (h : compileItems recorded items = .ok p) :
    ∃ c : Grammar.Class, c.tokens = (lexemesOf items.toList).map (·.token) ∧
      ∃ r, c.resolve = some r ∧
        List.Forall₂ (fun s block =>
            FlowsTo block 0 block.length ↔ Statement.returnsAny s.body = false)
          r.subroutines (VM.blocks p.commands) := by
  obtain ⟨c, hc, r, hr, hp⟩ := exists_tree_of_compileItems h
  refine ⟨c, hc, r, hr, ?_⟩
  rw [hp, Class.blocks_code, List.forall₂_map_right_iff]
  exact List.forall₂_same.mpr fun s _ => s.flowsTo_end_iff r.name r.fields

theorem gauge_end_iff :
    ∃ p, compileItems false (Grammar.gauge.lexemes.map .ok).toArray = .ok p ∧
      ∃ c : Grammar.Class, c.tokens = (lexemesOf (Grammar.gauge.lexemes.map .ok)).map (·.token) ∧
        ∃ r, c.resolve = some r ∧
          List.Forall₂ (fun s block =>
              FlowsTo block 0 block.length ↔ Statement.returnsAny s.body = false)
            r.subroutines (VM.blocks p.commands) := by
  obtain ⟨r, -, p, hp, -⟩ := Grammar.gauge_static.compiles
  exact ⟨p, hp, blocks_end_iff hp⟩

theorem runs_over_end :
    ∃ p, compile false "class A { function void f() { } }" = .ok p ∧
      ∃ block ∈ VM.blocks p.commands, FlowsTo block 0 block.length := by
  have hc : (compile false "class A { function void f() { } }").map (·.commands) =
      .ok [.function "A.f" 0] := by decide +kernel
  cases hp : compile false "class A { function void f() { } }" with
  | error e =>
    rw [hp] at hc
    cases hc
  | ok p =>
    rw [hp] at hc
    have hf : p.commands = [.function "A.f" 0] := Except.ok.inj hc
    refine ⟨p, rfl, [.function "A.f" 0], ?_, .single (.next rfl rfl)⟩
    rw [hf]
    decide

end Jack
