import Jack.Proofs.VM.Level
import Mathlib.Logic.Relation

namespace Jack.VM

/-- Control may get from one place of the block to the other, over any number of commands. It does
not get anywhere from a `return`. -/
abbrev FlowsTo (block : List Command) : Nat → Nat → Prop :=
  Relation.ReflTransGen (Flows block)

variable {block cs ds : List Command} {c : Command} {l : Label} {i j k m n : Nat}

theorem flowsTo_iff_of_ne (h : i ≠ j) :
    FlowsTo block i j ↔ ∃ k, Flows block i k ∧ FlowsTo block k j :=
  Relation.ReflTransGen.cases_head_iff.trans (or_iff_right h)

namespace CodeAt

theorem getElem?_add (h : CodeAt block i cs) (hn : n < cs.length) : block[i + n]? = cs[n]? := by
  obtain ⟨before, behind, rfl, rfl⟩ := h
  rw [List.append_assoc, List.getElem?_append_right (Nat.le_add_right _ _),
    Nat.add_sub_cancel_left, List.getElem?_append_left hn]

/-- A label is defined at one place only. -/
theorem eq_of_label (h : CodeAt block i (.label l :: cs)) (hl : (labels block).Nodup)
    (hj : block[j]? = some (.label l)) : j = i := by
  have hlt := (List.getElem?_eq_some_iff.mp hj).1
  have hc : CodeAt block j (.label l :: block.drop (j + 1)) := by
    refine ⟨block.take j, [], ?_, List.length_take_of_le (Nat.le_of_lt hlt)⟩
    rw [← (List.getElem?_eq_some_iff.mp hj).2]
    simp
  exact Option.some.inj ((hc.target hl).symm.trans (h.target hl))

theorem flowsTo_iff_of_isStraight (h : CodeAt block i cs) (hs : ∀ c ∈ cs, c.IsStraight)
    (hj : i + cs.length ≤ j) : FlowsTo block i j ↔ FlowsTo block (i + cs.length) j := by
  induction cs generalizing i with
  | nil => rfl
  | cons c cs ih =>
    obtain ⟨hc, hcs⟩ := List.forall_mem_cons.mp hs
    rw [List.length_cons, Nat.add_comm cs.length, ← Nat.add_assoc] at hj ⊢
    have hf (k : Nat) : Flows block i k ↔ k = i + 1 := by
      constructor
      · rintro (⟨-, -⟩ | ⟨hd, hl, -⟩)
        · rfl
        · cases h.getElem?.symm.trans hd
          cases c with
          | goto | ifGoto => exact hc.elim
          | push | pop | arithmetic | label | function | call | «return» => cases hl
      · rintro rfl
        exact .next h.getElem? hc.fallsThrough
    rw [flowsTo_iff_of_ne (by omega)]
    simp only [hf, exists_eq_left]
    exact ih h.tail hcs hj

theorem flowsTo_label_iff (h : CodeAt block i (.label l :: cs)) (hj : i < j) :
    FlowsTo block i j ↔ FlowsTo block (i + 1) j := by
  have hc : CodeAt block i ([.label l] ++ cs) := h
  exact hc.left.flowsTo_iff_of_isStraight (List.forall_mem_singleton.mpr trivial) hj

theorem flowsTo_label (h : CodeAt block i (.label l :: cs)) (hj : i + 1 = j) : FlowsTo block i j := by
  rw [h.flowsTo_label_iff (by omega), hj]

theorem flowsTo_goto_iff (h : CodeAt block i (.goto l :: cs)) (hj : CodeAt block j (.label l :: ds))
    (hl : (labels block).Nodup) (hk : i ≠ k) : FlowsTo block i k ↔ FlowsTo block j k := by
  have hf (m : Nat) : Flows block i m ↔ m = j := by
    constructor
    · rintro (⟨hc, hf⟩ | ⟨hc, hl', hm⟩)
      · cases h.getElem?.symm.trans hc
        cases hf
      · cases h.getElem?.symm.trans hc
        cases hl'
        exact hj.eq_of_label hl hm
    · rintro rfl
      exact .jump h.getElem? rfl hj.getElem?
  rw [flowsTo_iff_of_ne hk]
  simp only [hf, exists_eq_left]

theorem flowsTo_ifGoto_iff (h : CodeAt block i (.ifGoto l :: cs))
    (hj : CodeAt block j (.label l :: ds)) (hl : (labels block).Nodup) (hk : i ≠ k) :
    FlowsTo block i k ↔ FlowsTo block (i + 1) k ∨ FlowsTo block j k := by
  have hf (m : Nat) : Flows block i m ↔ m = i + 1 ∨ m = j := by
    constructor
    · rintro (⟨-, -⟩ | ⟨hc, hl', hm⟩)
      · exact .inl rfl
      · cases h.getElem?.symm.trans hc
        cases hl'
        exact .inr (hj.eq_of_label hl hm)
    · rintro (rfl | rfl)
      · exact .next h.getElem? rfl
      · exact .jump h.getElem? rfl hj.getElem?
  rw [flowsTo_iff_of_ne hk]
  simp only [hf, or_and_right, exists_or, exists_eq_left]

theorem not_flowsTo_of_return (h : CodeAt block i (.return :: cs)) (hk : i ≠ k) :
    ¬ FlowsTo block i k := by
  rw [flowsTo_iff_of_ne hk]
  rintro ⟨m, ⟨hc, hf⟩ | ⟨hc, hl, -⟩, -⟩
  · cases h.getElem?.symm.trans hc
    cases hf
  · cases h.getElem?.symm.trans hc
    cases hl

theorem flowsTo_end (h : CodeAt block i cs) (hs : ∀ c ∈ cs, c.IsStraight) :
    FlowsTo block i (i + cs.length) :=
  (h.flowsTo_iff_of_isStraight hs (Nat.le_refl _)).mpr .refl

end CodeAt

/-- Control does not get out of the stretch from `i` to `j`, but to `j`. -/
def Contained (block : List Command) (i j : Nat) : Prop :=
  ∀ p q, i ≤ p → p < j → Flows block p q → i ≤ q ∧ q ≤ j

/-- Code is contained if the labels that it jumps to are its own. -/
theorem CodeAt.contained (h : CodeAt block i cs) (hl : (labels block).Nodup)
    (hj : ∀ l ∈ jumps cs, l ∈ labels cs) : Contained block i (i + cs.length) := by
  intro p q hp hpj hf
  obtain ⟨n, rfl⟩ := Nat.exists_eq_add_of_le hp
  have hn : n < cs.length := by omega
  obtain ⟨-, -⟩ | ⟨hc, hl', hq⟩ := hf
  · omega
  · rw [h.getElem?_add hn] at hc
    have hlab := mem_labels.mp (hj _ (List.mem_filterMap.mpr ⟨_, List.mem_of_getElem? hc, hl'⟩))
    obtain ⟨before, behind, rfl⟩ := List.append_of_mem hlab
    have he := h.right.eq_of_label hl hq
    simp only [List.length_append, List.length_cons]
    omega

/-- A way through two pieces of code, of which the first is contained, is one through each. -/
theorem Contained.flowsTo_iff (h : Contained block i m) (hi : i ≤ m) (hj : m ≤ j) :
    FlowsTo block i j ↔ FlowsTo block i m ∧ FlowsTo block m j := by
  refine ⟨fun hf => ?_, fun hf => hf.1.trans hf.2⟩
  -- Wherever the way still is in the first piece, it has the end of it ahead.
  have hp : ∀ p, FlowsTo block p j → i ≤ p → p ≤ m → FlowsTo block p m ∧ FlowsTo block m j := by
    intro p hf
    induction hf using Relation.ReflTransGen.head_induction_on with
    | refl =>
      intro _ hjm
      rw [Nat.le_antisymm hjm hj]
      exact ⟨.refl, .refl⟩
    | @head p q hpq hq ih =>
      intro hip hpm
      by_cases he : p = m
      · subst he
        exact ⟨.refl, .head hpq hq⟩
      · obtain ⟨hiq, hqm⟩ := h p q hip (by omega) hpq
        obtain ⟨hqm, hmj⟩ := ih hiq hqm
        exact ⟨.head hpq hqm, hmj⟩
  exact hp i hf (Nat.le_refl i) hi

end Jack.VM
