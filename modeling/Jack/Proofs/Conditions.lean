import Jack.Compiled
import Jack.Proofs.Meaning.StatementCode
import Jack.Proofs.VM.Path
import Mathlib.Control.Monad.Basic

namespace Jack

open VM

variable {World : Type} {calls : Calls World} {block : List Command}

namespace VM

/-- A run leads from one place and state to the other. `R` holds of the places that each step leads from
and to. -/
def Along (calls : Calls World) (block : List Command) (R : Nat → Nat → Prop) :
    Config World → Config World → Prop :=
  Relation.ReflTransGen fun c d => R c.counter d.counter ∧ step calls block c = some d

/-- The run from `c` goes on from the command in front of the place `p` to `p`, and it has not been at the
place `q` before. -/
def Enters (calls : Calls World) (block : List Command) (c : Config World) (p q : Nat) : Prop :=
  ∃ d d', Along calls block (fun i _ => i ≠ q) c d ∧ d.counter ≠ q ∧ d.counter + 1 = p ∧
    step calls block d = some d' ∧ d'.counter = p

/-- A run from the place `i`, where the code of a statement with the condition `e` stands, goes on into the
body, which comes three commands behind those of the condition, and does not leave the code before. -/
def RunsBody (calls : Calls World) (block : List Command) (i : Nat) (e : Expression) (code : List Command)
    (s : State World) : Prop :=
  Enters calls block ⟨i, s⟩ (i + e.code.length + 3) (i + code.length)

variable {R : Nat → Nat → Prop} {c d : Config World} {i j p q : Nat} {s t : State World} {code cs : List Command}

theorem Along.step (h : Along calls block R c ⟨i, s⟩) (hR : R i j)
    (hd : step calls block ⟨i, s⟩ = some ⟨j, t⟩) : Along calls block R c ⟨j, t⟩ :=
  .tail h ⟨hR, hd⟩

theorem along_of_exec (h : CodeAt block i code) (hs : ∀ c ∈ code, c.IsStraight)
    (he : exec calls code s = some t) (hR : ∀ j, i ≤ j → j < i + code.length → R j (j + 1)) :
    Along calls block R ⟨i, s⟩ ⟨i + code.length, t⟩ := by
  induction code generalizing i s with
  | nil =>
    cases he
    exact .refl
  | cons c code ih =>
    obtain ⟨u, hu, ht⟩ := Option.bind_eq_some_iff.mp he
    rw [List.length_cons] at hR
    have hstep : VM.step calls block ⟨i, s⟩ = some ⟨i + 1, u⟩ := by
      rw [step_of_isStraight h.getElem? (hs c List.mem_cons_self), hu, Option.map_some]
    have hrest := ih h.tail (fun d hd => hs d (List.mem_cons_of_mem _ hd)) ht
      fun j hj hlt => hR j (by omega) (by omega)
    rw [List.length_cons, Nat.add_comm code.length, ← Nat.add_assoc]
    exact .head ⟨hR i (Nat.le_refl i) (by omega), hstep⟩ hrest

theorem step_goto {l : Label} (h : CodeAt block i (.goto l :: cs)) (hj : target block l = some j) :
    step calls block ⟨i, s⟩ = some ⟨j, s⟩ := by
  simp [step, h.getElem?, hj]

theorem step_label {l : Label} (h : CodeAt block i (.label l :: cs)) :
    step calls block ⟨i, s⟩ = some ⟨i + 1, s⟩ := by
  simp [step, h.getElem?]

theorem step_ifGoto {l : Label} {v : Word} {stack : List Word} {m : Memory World} {scratch : Scratch}
    (h : CodeAt block i (.ifGoto l :: cs)) (hj : target block l = some j) :
    step calls block ⟨i, ⟨v :: stack, m, scratch⟩⟩ =
      some ⟨if v = 0 then i + 1 else j, ⟨stack, m, scratch⟩⟩ := by
  by_cases hv : v = 0#16 <;> simp [step, h.getElem?, hj, hv]

theorem not_enters_of_along (h : Along calls block (fun i j => i ≠ q ∧ ¬ (i + 1 = p ∧ j = p)) c d)
    (hd : d.counter = q) : ¬ Enters calls block c p q := by
  induction h using Relation.ReflTransGen.head_induction_on with
  | refl =>
    rintro ⟨f, f', hf, hfq, -⟩
    obtain rfl | ⟨g, ⟨hq, -⟩, -⟩ := Relation.ReflTransGen.cases_head hf
    · exact hfq hd
    · exact hq hd
  | @head c c' hc _ ih =>
    obtain ⟨⟨-, hR⟩, hc⟩ := hc
    rintro ⟨f, f', hf, hfq, hp, hstep, hp'⟩
    obtain rfl | ⟨g, ⟨-, hg⟩, hf⟩ := Relation.ReflTransGen.cases_head hf
    · cases hc.symm.trans hstep
      exact hR ⟨hp, hp'⟩
    · cases hc.symm.trans hg
      exact ih ⟨f, f', hf, hfq, hp, hstep, hp'⟩

end VM

section Guards

variable {e : Expression} {body : List Statement} {k : LabelCount} {i : Nat} {s : State World}
  {v : Word} {stack : List Word} {m : Memory World} {scratch : Scratch}

theorem ifThen_runsBody_iff (hl : (labels block).Nodup)
    (h : CodeAt block i ((Statement.ifThen e body).code k).1)
    (he : exec calls e.code s = some ⟨v :: stack, m, scratch⟩) :
    RunsBody calls block i e ((Statement.ifThen e body).code k).1 s ↔ v ≠ 0 := by
  unfold RunsBody
  generalize hq : i + ((Statement.ifThen e body).code k).1.length = q
  simp only [Statement.code, List.append_assoc, List.cons_append, List.nil_append] at h
  simp only [Statement.code, List.length_append, List.length_cons, List.length_nil] at hq
  have hgoto := h.right.tail
  have htrue := hgoto.tail
  have hfalse := htrue.tail.right
  have hcond {R : Nat → Nat → Prop} (hR : ∀ j, i ≤ j → j < i + e.code.length → R j (j + 1)) :
      Along calls block R ⟨i, s⟩ ⟨i + e.code.length, ⟨v :: stack, m, scratch⟩⟩ :=
    along_of_exec h.left e.straight_code he hR
  have htest : step calls block ⟨i + e.code.length, ⟨v :: stack, m, scratch⟩⟩ = some _ :=
    step_ifGoto h.right (htrue.target hl)
  by_cases hv : v = 0
  · -- past the jump to the label behind the body, and out
    rw [if_pos hv] at htest
    have hgo : step calls block ⟨_, ⟨stack, m, scratch⟩⟩ = some _ := step_goto hgoto (hfalse.target hl)
    have hend : step calls block ⟨_, ⟨stack, m, scratch⟩⟩ = some _ := step_label hfalse
    have hto := hcond (R := fun j j' => j ≠ q ∧ ¬ (j + 1 = i + e.code.length + 3 ∧ j' = i + e.code.length + 3))
      fun j _ _ => by omega
    have hout := ((hto.step (by omega) htest).step (by omega) hgo).step (by omega) hend
    exact iff_of_false (not_enters_of_along hout (by simp only; omega)) (not_not_intro hv)
  · rw [if_neg hv] at htest
    have hto := (hcond (R := fun j _ => j ≠ q) fun j _ _ => by omega).step (by omega) htest
    exact iff_of_true ⟨_, _, hto, by simp only; omega, rfl, step_label htrue, rfl⟩ hv

theorem while_runsBody_iff (hl : (labels block).Nodup)
    (h : CodeAt block i ((Statement.while e body).code k).1)
    (he : exec calls e.code s = some ⟨v :: stack, m, scratch⟩) :
    RunsBody calls block i e ((Statement.while e body).code k).1 s ↔ v = BitVec.allOnes 16 := by
  unfold RunsBody
  generalize hq : i + ((Statement.while e body).code k).1.length = q
  simp only [Statement.code, List.append_assoc, List.cons_append, List.nil_append] at h
  simp only [Statement.code, List.length_append, List.length_cons, List.length_nil] at hq
  have htail := h.tail
  rw [List.append_cons] at htail
  have hjump := htail.right
  have hdone := hjump.tail.right.tail
  have hs : ∀ c ∈ e.code ++ [Command.arithmetic .not], c.IsStraight := by
    simpa [or_imp, forall_and] using e.straight_code
  have hnot : exec calls (e.code ++ [Command.arithmetic .not]) s = some ⟨~~~v :: stack, m, scratch⟩ := by
    rw [exec_append, he]
    rfl
  have hlen : (e.code ++ [Command.arithmetic .not]).length = e.code.length + 1 := List.length_append
  have hcond {R : Nat → Nat → Prop} (hR : ∀ j, i ≤ j → j < i + e.code.length + 2 → R j (j + 1)) :
      Along calls block R ⟨i, s⟩
        ⟨i + 1 + (e.code ++ [Command.arithmetic .not]).length, ⟨~~~v :: stack, m, scratch⟩⟩ :=
    .head ⟨hR i (Nat.le_refl i) (by omega), step_label h⟩
      (along_of_exec htail.left hs hnot fun j _ _ => hR j (by omega) (by omega))
  have htest : step calls block ⟨_, ⟨~~~v :: stack, m, scratch⟩⟩ = some _ :=
    step_ifGoto hjump (hdone.target hl)
  have hz : ~~~v = 0 ↔ v = BitVec.allOnes 16 := by
    rw [BitVec.not_eq_comm]
    simp
  by_cases hv : ~~~v = 0
  · rw [if_pos hv] at htest
    have hto := hcond (R := fun j _ => j ≠ q) fun j _ _ => by omega
    exact iff_of_true ⟨_, _, hto, by simp only; omega, by simp only; omega, htest, by simp only; omega⟩
      (hz.mp hv)
  · -- the jump leads behind the body, and out
    rw [if_neg hv] at htest
    have hend : step calls block ⟨_, ⟨stack, m, scratch⟩⟩ = some _ := step_label hdone
    have hto := hcond (R := fun j j' => j ≠ q ∧ ¬ (j + 1 = i + e.code.length + 3 ∧ j' = i + e.code.length + 3))
      fun j _ _ => by omega
    have hout := (hto.step (by omega) htest).step (by omega) hend
    exact iff_of_false (not_enters_of_along hout (by simp only; omega)) (hv ∘ hz.mpr)

end Guards

section Example

def noCalls : Calls Unit := ⟨fun _ _ _ => none, fun _ _ _ scratch => scratch⟩

def idle : State Unit := ⟨[], ⟨⟨fun _ => 0, fun _ => 0, ()⟩, fun _ => 0, fun _ => 0, 0⟩, ⟨0, fun _ => 0⟩⟩

def numeral (n : Nat) : Expression := .chain (.integer n) []

theorem exec_numeral (n : Nat) :
    exec noCalls (numeral n).code idle = some ⟨[BitVec.ofNat 16 n], idle.memory, idle.scratch⟩ := by
  simp [numeral, Expression.code, Term.code, State.load, idle]

/-- The commands of `class A { function void f() { if (1) { } while (1) { } return; } }`. -/
def guardedByOne : List Command :=
  [.function "A.f" 0, .push .constant 1, .ifGoto ⟨.ifTrue, 0⟩, .goto ⟨.ifFalse, 0⟩, .label ⟨.ifTrue, 0⟩,
    .label ⟨.ifFalse, 0⟩, .label ⟨.whileCondition, 0⟩, .push .constant 1, .arithmetic .not,
    .ifGoto ⟨.whileEnd, 0⟩, .goto ⟨.whileCondition, 0⟩, .label ⟨.whileEnd, 0⟩, .push .constant 0, .return]

theorem code_numeral (n : Nat) : (numeral n).code = [.push .constant n] := by
  simp [numeral, Expression.code, Term.code]

theorem code_if_numeral (n : Nat) : ((Statement.ifThen (numeral n) []).code .zero).1 =
    [.push .constant n, .ifGoto ⟨.ifTrue, 0⟩, .goto ⟨.ifFalse, 0⟩, .label ⟨.ifTrue, 0⟩,
      .label ⟨.ifFalse, 0⟩] := by
  rw [Statement.code, code_numeral]
  rfl

theorem code_while_numeral (n : Nat) : ((Statement.while (numeral n) []).code .zero).1 =
    [.label ⟨.whileCondition, 0⟩, .push .constant n, .arithmetic .not, .ifGoto ⟨.whileEnd, 0⟩,
      .goto ⟨.whileCondition, 0⟩, .label ⟨.whileEnd, 0⟩] := by
  rw [Statement.code, code_numeral]
  rfl

theorem codeAt_if : CodeAt guardedByOne 1 ((Statement.ifThen (numeral 1) []).code .zero).1 :=
  ⟨[.function "A.f" 0], guardedByOne.drop 6, by rw [code_if_numeral]; rfl, rfl⟩

theorem codeAt_while : CodeAt guardedByOne 6 ((Statement.while (numeral 1) []).code .zero).1 :=
  ⟨guardedByOne.take 6, [.push .constant 0, .return], by rw [code_while_numeral]; rfl, rfl⟩

theorem nodup_labels_guardedByOne : (labels guardedByOne).Nodup := by
  decide

/-- Where the code of a condition leaves the value `v`, the body of an `if` is run just if `v` is not zero,
and that of a `while` is run, after the first test, just if `v` is all ones. So they agree on what is true
just if `v` is one of the two values that comparisons have. -/
theorem guards_agree_iff (calls : Calls World) (e : Expression) (body : List Statement) {s : State World}
    {v : Word} {stack : List Word} {m : Memory World} {scratch : Scratch}
    (he : exec calls e.code s = some ⟨v :: stack, m, scratch⟩) {ifBlock whileBlock : List Command} {i j : Nat}
    {k l : LabelCount} (hi : CodeAt ifBlock i ((Statement.ifThen e body).code k).1)
    (hj : CodeAt whileBlock j ((Statement.while e body).code l).1) (hni : (labels ifBlock).Nodup)
    (hnj : (labels whileBlock).Nodup) :
    (RunsBody calls ifBlock i e ((Statement.ifThen e body).code k).1 s ↔ v ≠ 0) ∧
    (RunsBody calls whileBlock j e ((Statement.while e body).code l).1 s ↔ v = BitVec.allOnes 16) ∧
    ((RunsBody calls ifBlock i e ((Statement.ifThen e body).code k).1 s ↔
        RunsBody calls whileBlock j e ((Statement.while e body).code l).1 s) ↔
      v = 0 ∨ v = BitVec.allOnes 16) := by
  have hif := ifThen_runsBody_iff hni hi he
  have hwhile := while_runsBody_iff hnj hj he
  have hne : (0 : Word) ≠ BitVec.allOnes 16 := by decide
  refine ⟨hif, hwhile, ?_⟩
  rw [hif, hwhile]
  constructor
  · intro h
    by_cases hv : v = 0
    · exact .inl hv
    · exact .inr (h.mp hv)
  · rintro (rfl | rfl)
    · exact iff_of_false (not_not_intro rfl) hne
    · exact iff_of_true hne.symm rfl

theorem guards_disagree_on_one :
    ¬ (RunsBody noCalls guardedByOne 1 (numeral 1) ((Statement.ifThen (numeral 1) []).code .zero).1 idle ↔
      RunsBody noCalls guardedByOne 6 (numeral 1) ((Statement.while (numeral 1) []).code .zero).1 idle) := by
  have h := (guards_agree_iff noCalls (numeral 1) [] (exec_numeral 1) codeAt_if codeAt_while
    nodup_labels_guardedByOne nodup_labels_guardedByOne).2.2
  rw [h]
  decide

/-- One is true for an `if`, and false for a `while`. -/
theorem one_is_true_for_if_only :
    (∃ p, compile false "class A { function void f() { if (1) { } while (1) { } return; } }" = .ok p ∧
      p.commands = guardedByOne) ∧
    CodeAt guardedByOne 1 ((Statement.ifThen (numeral 1) []).code .zero).1 ∧
    CodeAt guardedByOne 6 ((Statement.while (numeral 1) []).code .zero).1 ∧
    RunsBody noCalls guardedByOne 1 (numeral 1) ((Statement.ifThen (numeral 1) []).code .zero).1 idle ∧
    ¬ RunsBody noCalls guardedByOne 6 (numeral 1) ((Statement.while (numeral 1) []).code .zero).1 idle := by
  have hp : compile false "class A { function void f() { if (1) { } while (1) { } return; } }" =
      .ok ⟨"A", guardedByOne, []⟩ := by decide +kernel
  have hif := ifThen_runsBody_iff nodup_labels_guardedByOne codeAt_if (exec_numeral 1)
  have hwhile := while_runsBody_iff nodup_labels_guardedByOne codeAt_while (exec_numeral 1)
  exact ⟨⟨_, hp, rfl⟩, codeAt_if, codeAt_while, hif.mpr (by decide), fun h => absurd (hwhile.mp h) (by decide)⟩

end Example

end Jack
