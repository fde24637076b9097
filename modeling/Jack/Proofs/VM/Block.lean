import Jack.Proofs.Code.Labels
import Jack.Proofs.VM.Straight

namespace Jack.VM

variable {World : Type} {calls : Calls World} {block : List Command}

/-- The code stands at the place `i` of the block. -/
def CodeAt (block : List Command) (i : Nat) (code : List Command) : Prop :=
  ∃ before behind, block = before ++ code ++ behind ∧ before.length = i

namespace CodeAt

variable {i : Nat} {c : Command} {cs ds : List Command}

theorem left (h : CodeAt block i (cs ++ ds)) : CodeAt block i cs := by
  obtain ⟨before, behind, rfl, hi⟩ := h
  exact ⟨before, ds ++ behind, by simp, hi⟩

theorem right (h : CodeAt block i (cs ++ ds)) : CodeAt block (i + cs.length) ds := by
  obtain ⟨before, behind, rfl, rfl⟩ := h
  exact ⟨before ++ cs, behind, by simp, by simp⟩

theorem tail (h : CodeAt block i (c :: cs)) : CodeAt block (i + 1) cs := by
  have h' : CodeAt block i ([c] ++ cs) := h
  exact h'.right

theorem getElem? (h : CodeAt block i (c :: cs)) : block[i]? = some c := by
  obtain ⟨before, behind, rfl, rfl⟩ := h
  simp

theorem target (h : CodeAt block i (.label l :: cs)) (hl : (labels block).Nodup) :
    target block l = some i := by
  obtain ⟨before, behind, rfl, rfl⟩ := h
  have hb : .label l ∉ before := by
    intro hm
    rw [List.append_assoc, labels_append, List.nodup_append] at hl
    exact hl.2.2 l (mem_labels.mpr hm) l (by simp) rfl
  have hn : before.findIdx? (· == .label l) = none := by
    rw [List.findIdx?_eq_none_iff]
    intro c hc
    exact beq_eq_false_iff_ne.mpr fun he => hb (he ▸ hc)
  simp [VM.target, List.idxOf?, List.findIdx?_append, hn, List.findIdx?_cons]

end CodeAt

/-- Commands after which control always goes on to the next one. -/
def Command.IsStraight : Command → Prop
  | .goto _ | .ifGoto _ | .return => False
  | _ => True

@[simp] theorem Command.isStraight_push (segment : Segment) (i : Nat) :
    (push segment i).IsStraight := trivial

@[simp] theorem Command.isStraight_pop (segment : Segment) (i : Nat) :
    (pop segment i).IsStraight := trivial

@[simp] theorem Command.isStraight_arithmetic (op : Arithmetic) :
    (arithmetic op).IsStraight := trivial

theorem Command.IsQuiet.isStraight {c : Command} (h : c.IsQuiet) : c.IsStraight := by
  cases c with
  | goto | ifGoto | «return» => exact h
  | push | pop | arithmetic | label | function | call => trivial

/-- A run from `c` gets to `d` in so many steps, without leaving the block before. -/
def Reaches (calls : Calls World) (block : List Command) (a : Nat) (c d : Config World) : Prop :=
  ∀ n e, EndsIn calls block n c e ↔ ∃ k, n = k + a ∧ EndsIn calls block k d e

namespace Reaches

variable {a b : Nat} {c d f : Config World} {e : Ending World}

theorem refl (c : Config World) : Reaches calls block 0 c c := by
  intro n e
  simp

theorem trans (h : Reaches calls block a c d) (h' : Reaches calls block b d f) :
    Reaches calls block (b + a) c f := by
  intro n e
  rw [h n e]
  constructor
  · rintro ⟨k, rfl, hk⟩
    obtain ⟨k', rfl, hk'⟩ := (h' k e).mp hk
    exact ⟨k', Nat.add_assoc k' b a, hk'⟩
  · rintro ⟨k, rfl, hk⟩
    exact ⟨k + b, (Nat.add_assoc k b a).symm, (h' (k + b) e).mpr ⟨k, rfl, hk⟩⟩

theorem ends_iff (h : Reaches calls block a c d) : Ends calls block c e ↔ Ends calls block d e := by
  constructor
  · rintro ⟨n, hn⟩
    obtain ⟨k, -, hk⟩ := (h n e).mp hn
    exact ⟨k, hk⟩
  · rintro ⟨k, hk⟩
    exact ⟨k + a, (h (k + a) e).mpr ⟨k, rfl, hk⟩⟩

end Reaches

def Passes (calls : Calls World) (block : List Command) (i j : Nat) : Prop :=
  ∀ s, Reaches calls block 1 ⟨i, s⟩ ⟨j, s⟩

section Steps

variable {n i j : Nat} {s : State World} {stack : List Word} {v : Word} {m : Memory World}
  {scratch : Scratch} {e : Ending World} {c : Command} {cs : List Command} {l : Label}

theorem endsIn_iff_of_step (hc : block[i]? = some c) (hr : c ≠ .return) :
    EndsIn calls block n ⟨i, s⟩ e ↔
      ∃ k d, n = k + 1 ∧ step calls block ⟨i, s⟩ = some d ∧ EndsIn calls block k d e := by
  have hi : i ≠ block.length := by
    rintro rfl
    simp at hc
  cases n with
  | zero => simp [EndsIn, steps, Config.ending?, hc, hi, hr]
  | succ n =>
    simp only [EndsIn, steps, Option.bind_assoc, Option.bind_eq_some_iff (f := fun d => _)]
    simp

theorem reaches_of_step {d : Config World} (hc : block[i]? = some c) (hr : c ≠ .return)
    (hd : step calls block ⟨i, s⟩ = some d) : Reaches calls block 1 ⟨i, s⟩ d := by
  intro n e
  rw [endsIn_iff_of_step hc hr, hd]
  simp

theorem step_of_isStraight (hc : block[i]? = some c) (hs : c.IsStraight) :
    step calls block ⟨i, s⟩ = (c.run calls s).map (⟨i + 1, ·⟩) := by
  unfold step
  rw [hc]
  cases c with
  | goto | ifGoto | «return» => exact hs.elim
  | push | pop | arithmetic | label | function | call => rfl

theorem Command.IsStraight.ne_return (hs : c.IsStraight) : c ≠ .return := by
  rintro rfl
  exact hs

theorem reaches_of_exec {t : State World} (h : CodeAt block i cs) (hs : ∀ c ∈ cs, c.IsStraight)
    (he : exec calls cs s = some t) : Reaches calls block cs.length ⟨i, s⟩ ⟨i + cs.length, t⟩ := by
  induction cs generalizing i s with
  | nil =>
    cases he
    exact .refl _
  | cons c cs ih =>
    have hc : c.IsStraight := hs c List.mem_cons_self
    obtain ⟨u, hu, ht⟩ := Option.bind_eq_some_iff.mp he
    have hstep : step calls block ⟨i, s⟩ = some ⟨i + 1, u⟩ := by
      rw [step_of_isStraight h.getElem? hc, hu, Option.map_some]
    have hrest := ih h.tail (fun d hd => hs d (List.mem_cons_of_mem _ hd)) ht
    rw [List.length_cons, Nat.add_comm cs.length, ← Nat.add_assoc, Nat.add_comm 1]
    exact (reaches_of_step h.getElem? hc.ne_return hstep).trans hrest

theorem not_endsIn_of_exec (h : CodeAt block i cs) (hs : ∀ c ∈ cs, c.IsStraight)
    (he : exec calls cs s = none) : ¬ EndsIn calls block n ⟨i, s⟩ e := by
  induction cs generalizing i s n with
  | nil => cases he
  | cons c cs ih =>
    have hc : c.IsStraight := hs c List.mem_cons_self
    rw [endsIn_iff_of_step h.getElem? hc.ne_return, step_of_isStraight h.getElem? hc]
    rintro ⟨k, d, rfl, hd, hk⟩
    obtain ⟨u, hu, rfl⟩ := Option.map_eq_some_iff.mp hd
    rw [exec_cons, hu] at he
    exact ih h.tail (fun d hd => hs d (List.mem_cons_of_mem _ hd)) he hk

theorem passes_goto (h : CodeAt block i (.goto l :: cs)) (hj : target block l = some j) :
    Passes calls block i j :=
  fun s => reaches_of_step h.getElem? (by simp) (by simp [step, h.getElem?, hj])

theorem passes_label (h : CodeAt block i (.label l :: cs)) : Passes calls block i (i + 1) :=
  fun s => reaches_of_step h.getElem? (by simp) (by simp [step, h.getElem?])

theorem reaches_ifGoto (h : CodeAt block i (.ifGoto l :: cs)) (hj : target block l = some j) :
    Reaches calls block 1 ⟨i, ⟨v :: stack, m, scratch⟩⟩
      ⟨if v = 0 then i + 1 else j, ⟨stack, m, scratch⟩⟩ := by
  refine reaches_of_step h.getElem? (by simp) ?_
  by_cases hv : v = 0#16 <;> simp [step, h.getElem?, hj, hv]

theorem endsIn_return (h : CodeAt block i (.return :: cs)) :
    EndsIn calls block n ⟨i, ⟨v :: stack, m, scratch⟩⟩ e ↔ n = 0 ∧ e = .returned v m := by
  have hi : i ≠ block.length := by
    rintro rfl
    simpa using h.getElem?
  cases n with
  | zero => simp [EndsIn, steps, Config.ending?, hi, h.getElem?, eq_comm]
  | succ n => simp [EndsIn, steps, step, h.getElem?, Command.run]

theorem endsIn_length :
    EndsIn calls block n ⟨block.length, s⟩ e ↔ n = 0 ∧ e = .completed s.memory := by
  cases n with
  | zero => simp [EndsIn, steps, Config.ending?, eq_comm]
  | succ n => simp [EndsIn, steps, step]

end Steps

section Computing

variable {α : Type} {given : List Word} {code : List Command} {layout : α → List Word}
  {x : Eval World α} {a : α} {i n : Nat} {m m' : Memory World} {e : Ending World}

theorem Computes.reaches (hc : Computes calls given code layout x) (h : CodeAt block i code)
    (hs : ∀ c ∈ code, c.IsStraight) (hx : x m = some (a, m')) (stack : List Word)
    (scratch : Scratch) :
    ∃ scratch', Reaches calls block code.length ⟨i, ⟨given ++ stack, m, scratch⟩⟩
      ⟨i + code.length, ⟨layout a ++ stack, m', scratch'⟩⟩ := by
  have he := hc stack m scratch
  rw [hx] at he
  obtain ⟨scratch', he⟩ := he
  exact ⟨scratch', reaches_of_exec h hs he⟩

theorem Computes.not_endsIn (hc : Computes calls given code layout x) (h : CodeAt block i code)
    (hs : ∀ c ∈ code, c.IsStraight) (hx : x m = none) (stack : List Word) (scratch : Scratch) :
    ¬ EndsIn calls block n ⟨i, ⟨given ++ stack, m, scratch⟩⟩ e := by
  have he := hc stack m scratch
  rw [hx] at he
  exact not_endsIn_of_exec h hs he

end Computing

end Jack.VM
