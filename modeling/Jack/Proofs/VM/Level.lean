import Jack.Proofs.VM.Block
import Jack.Proofs.VM.Flow

namespace Jack.VM

/-- The heights that commands meet at which control may leave or enter: none where it goes to a label
or comes from there, one where it is decided on or handed back. -/
def Command.Meets (h : Nat) : Command → Prop
  | .label _ | .goto _ => h = 0
  | .ifGoto _ | .return => h = 1
  | .push _ _ | .pop _ _ | .arithmetic _ | .function _ _ | .call _ _ => True

/-- The code leads from one height to the other, command after command. -/
def Level (a : Nat) : List Command → Nat → Prop
  | [], b => a = b
  | c :: cs, b => c.pops ≤ a ∧ c.Meets a ∧ Level (a - c.pops + c.pushes) cs b

namespace Level

variable {a b m : Nat} {c : Command} {cs ds : List Command}

@[simp] theorem nil_iff : Level a [] b ↔ a = b := Iff.rfl

@[simp] theorem cons_iff : Level a (c :: cs) b ↔
    c.pops ≤ a ∧ c.Meets a ∧ Level (a - c.pops + c.pushes) cs b := Iff.rfl

theorem append_iff : Level a (cs ++ ds) b ↔ ∃ m, Level a cs m ∧ Level m ds b := by
  induction cs generalizing a with
  | nil => simp
  | cons c cs ih => simp [ih, and_assoc]

theorem append (hc : Level a cs m) (hd : Level m ds b) : Level a (cs ++ ds) b :=
  append_iff.mpr ⟨m, hc, hd⟩

theorem height_eq (h : Level a cs b) : height a cs = some b := by
  induction cs generalizing a with
  | nil => exact congrArg some h
  | cons c cs ih =>
    obtain ⟨hp, -, h⟩ := h
    rw [height, if_pos hp, ih h]

theorem of_quiet (hq : ∀ c ∈ cs, c.IsQuiet) (h : height a cs = some b) : Level a cs b := by
  induction cs generalizing a with
  | nil => exact Option.some.inj h
  | cons c cs ih =>
    rw [List.forall_mem_cons] at hq
    rw [height] at h
    split at h
    next hp =>
      refine ⟨hp, ?_, ih hq.2 h⟩
      cases c with
      | label | goto | ifGoto | «return» => exact hq.1.elim
      | push | pop | arithmetic | function | call => trivial
    next => cases h

end Level

/-- A height for each place of a block, the same by whichever way control gets there. -/
structure Balanced (block : List Command) (height : Nat → Nat) : Prop where
  start : height 0 = 0
  enough {i : Nat} {c : Command} : block[i]? = some c → c.pops ≤ height i
  flow {i j : Nat} {c : Command} : block[i]? = some c → Flows block i j →
    height j = height i - c.pops + c.pushes
  label {i : Nat} {l : Label} : block[i]? = some (.label l) → height i = 0
  goto {i : Nat} {l : Label} : block[i]? = some (.goto l) → height i = 0
  ifGoto {i : Nat} {l : Label} : block[i]? = some (.ifGoto l) → height i = 1
  «return» {i : Nat} : block[i]? = some .return → height i = 1

section Runs

variable {World : Type} {calls : Calls World} {block : List Command} {c c' : Config World}

theorem Command.IsStraight.fallsThrough {c : Command} (h : c.IsStraight) : c.fallsThrough := by
  cases c with
  | goto | ifGoto | «return» => exact h.elim
  | push | pop | arithmetic | label | function | call => rfl

theorem getElem?_of_target {l : Label} {j : Nat} (h : target block l = some j) :
    block[j]? = some (.label l) := by
  obtain ⟨hj, he, -⟩ := List.idxOf?_eq_some_iff.mp h
  exact List.getElem?_eq_some_iff.mpr ⟨hj, he⟩

/-- A step goes where control may go, and it takes and leaves as many words as the command says. -/
theorem flows_of_step (h : step calls block c = some c') :
    ∃ command, block[c.counter]? = some command ∧ Flows block c.counter c'.counter ∧
      c'.state.stack.length = c.state.stack.length - command.pops + command.pushes := by
  obtain ⟨i, s⟩ := c
  cases hc : block[i]? with
  | none => simp [step, hc] at h
  | some command =>
    refine ⟨command, rfl, ?_⟩
    by_cases hs : command.IsStraight
    · rw [step_of_isStraight hc hs] at h
      obtain ⟨t, ht, rfl⟩ := Option.map_eq_some_iff.mp h
      obtain ⟨top, hd, hl, -⟩ := stack_of_run ht
      refine ⟨.next hc hs.fallsThrough, ?_⟩
      rw [hd, List.length_append, hl, List.length_drop, Nat.add_comm]
    · cases command with
      | push | pop | arithmetic | label | function | call => exact (hs trivial).elim
      | «return» => simp [step, hc, Command.run] at h
      | goto l =>
        simp only [step, hc] at h
        obtain ⟨j, hj, rfl⟩ := Option.map_eq_some_iff.mp h
        exact ⟨.jump hc rfl (getElem?_of_target hj), rfl⟩
      | ifGoto l =>
        obtain ⟨stack, m, scratch⟩ := s
        cases stack with
        | nil => simp [step, hc] at h
        | cons v stack =>
          simp only [step, hc] at h
          split at h
          · cases h
            exact ⟨.next hc rfl, rfl⟩
          · obtain ⟨j, hj, rfl⟩ := Option.map_eq_some_iff.mp h
            exact ⟨.jump hc rfl (getElem?_of_target hj), rfl⟩

theorem Balanced.length_of_step {height : Nat → Nat} (hb : Balanced block height)
    (h : step calls block c = some c') (hc : c.state.stack.length = height c.counter) :
    c'.state.stack.length = height c'.counter := by
  obtain ⟨command, hi, hf, hl⟩ := flows_of_step h
  rw [hl, hc, hb.flow hi hf]

/-- On every run through the block the stack is as high as the place says. -/
theorem Balanced.length_of_steps {height : Nat → Nat} (hb : Balanced block height) {n : Nat}
    (h : steps calls block n c = some c') (hc : c.state.stack.length = height c.counter) :
    c'.state.stack.length = height c'.counter := by
  induction n generalizing c with
  | zero =>
    cases h
    exact hc
  | succ n ih =>
    obtain ⟨d, hd, hs⟩ := Option.bind_eq_some_iff.mp h
    exact ih hs (hb.length_of_step hd hc)

end Runs

def heightAt (block : List Command) (i : Nat) : Nat :=
  (height 0 (block.take i)).getD 0

namespace Level

variable {b i : Nat} {c : Command} {block before : List Command}

theorem heightAt_length (h : Level 0 before b) (behind : List Command) :
    heightAt (before ++ behind) before.length = b := by
  simp [heightAt, h.height_eq]

theorem getElem? (h : Level 0 block b) (hc : block[i]? = some c) :
    c.pops ≤ heightAt block i ∧ c.Meets (heightAt block i) ∧
      heightAt block (i + 1) = heightAt block i - c.pops + c.pushes := by
  obtain ⟨hi, rfl⟩ := List.getElem?_eq_some_iff.mp hc
  have hb : block = block.take i ++ block[i] :: block.drop (i + 1) := by simp
  have hl : (block.take i).length = i := List.length_take_of_le (Nat.le_of_lt hi)
  rw [hb, append_iff] at h
  obtain ⟨m, hm, hp, ht, -⟩ := h
  have hn : Level 0 (block.take i ++ [block[i]]) (m - block[i].pops + block[i].pushes) :=
    hm.append ⟨hp, ht, rfl⟩
  have h₀ : heightAt block i = m := by
    have := hm.heightAt_length (block[i] :: block.drop (i + 1))
    rwa [← hb, hl] at this
  have h₁ : heightAt block (i + 1) = m - block[i].pops + block[i].pushes := by
    have := hn.heightAt_length (block.drop (i + 1))
    rwa [List.append_assoc, List.singleton_append, ← hb, List.length_append, hl] at this
  rw [h₀, h₁]
  exact ⟨hp, ht, rfl⟩

theorem balanced (h : Level 0 block b) : Balanced block (heightAt block) where
  start := rfl
  enough hc := (h.getElem? hc).1
  flow := by
    rintro i j c hc (⟨hc', -⟩ | ⟨hc', hl, hj⟩)
    · cases hc.symm.trans hc'
      exact (h.getElem? hc).2.2
    · cases hc.symm.trans hc'
      have hz : heightAt block j = 0 := (h.getElem? hj).2.1
      have hm := (h.getElem? hc).2.1
      cases c with
      | goto l =>
        have h0 : heightAt block i = 0 := hm
        rw [hz, h0]
        rfl
      | ifGoto l =>
        have h1 : heightAt block i = 1 := hm
        rw [hz, h1]
        rfl
      | push | pop | arithmetic | label | function | call | «return» => cases hl
  label hc := (h.getElem? hc).2.1
  goto hc := (h.getElem? hc).2.1
  ifGoto hc := (h.getElem? hc).2.1
  «return» hc := (h.getElem? hc).2.1

end Level

end Jack.VM
