import Jack.Proofs.VM.Machine

namespace Jack.VM

def Arithmetic.operands : Arithmetic → Nat
  | .neg | .not => 1
  | .add | .sub | .and | .or | .lt | .gt | .eq => 2

namespace Command

/-- How many words a command takes from the stack. -/
def pops : Command → Nat
  | .push _ _ | .label _ | .goto _ | .function _ _ => 0
  | .pop _ _ | .ifGoto _ | .return => 1
  | .arithmetic op => op.operands
  | .call _ n => n

def pushes : Command → Nat
  | .push _ _ | .arithmetic _ | .call _ _ => 1
  | .pop _ _ | .label _ | .goto _ | .ifGoto _ | .function _ _ | .return => 0

end Command

/-- The height behind straight-line code that is entered at height `h`, if no command of it takes
more words than there are. -/
def height : Nat → List Command → Option Nat
  | h, [] => some h
  | h, c :: cs => if c.pops ≤ h then height (h - c.pops + c.pushes) cs else none

theorem height_append (h : Nat) (cs ds : List Command) :
    height h (cs ++ ds) = (height h cs).bind fun k => height k ds := by
  induction cs generalizing h with
  | nil => rfl
  | cons c cs ih =>
    by_cases hc : c.pops ≤ h
    · simp [height, hc, ih]
    · simp [height, hc]

/-- On top of any stack, the code takes `given` words and leaves `n`. -/
def Lifts (given : Nat) (code : List Command) (n : Nat) : Prop :=
  ∀ h, height (given + h) code = some (n + h)

namespace Lifts

variable {given k n : Nat} {cs ds : List Command}

theorem append (hc : Lifts given cs k) (hd : Lifts k ds n) : Lifts given (cs ++ ds) n := by
  intro h
  rw [height_append, hc h, Option.bind_some, hd h]

theorem above (below : Nat) (hc : Lifts given cs n) : Lifts (given + below) cs (n + below) := by
  intro h
  rw [Nat.add_assoc, hc (below + h), Nat.add_assoc]

theorem nil : Lifts given [] given :=
  fun _ => rfl

theorem single {c : Command} (hp : c.pops = given) (hn : c.pushes = n) : Lifts given [c] n := by
  intro h
  simp [height, hp, hn, Nat.add_comm h n]

end Lifts

variable {World : Type} {calls : Calls World}

theorem length_of_apply {op : Arithmetic} {xs ys : List Word} (h : op.apply xs = some ys) :
    ∃ v, ys = v :: xs.drop op.operands ∧ op.operands ≤ xs.length := by
  unfold Arithmetic.apply at h
  split at h <;> cases h <;> exact ⟨_, rfl, by simp [Arithmetic.operands]⟩

theorem stack_of_store {s t : State World} {v : Word} {segment : Segment} {i : Nat}
    (h : s.store v segment i = some t) : t.stack = s.stack := by
  unfold State.store at h
  split at h <;> cases h <;> rfl

/-- A command takes from the stack what `pops` says, and it puts what `pushes` says on top of the
words below. -/
theorem stack_of_run {c : Command} {s t : State World} (h : c.run calls s = some t) :
    ∃ top, t.stack = top ++ s.stack.drop c.pops ∧ top.length = c.pushes ∧
      c.pops ≤ s.stack.length := by
  cases c with
  | push segment i =>
    obtain ⟨v, -, rfl⟩ := Option.map_eq_some_iff.mp h
    exact ⟨[v], rfl, rfl, Nat.zero_le _⟩
  | pop segment i =>
    obtain ⟨stack, m, scratch⟩ := s
    cases stack with
    | nil => cases h
    | cons v stack => exact ⟨[], stack_of_store h, rfl, by simp [Command.pops]⟩
  | arithmetic op =>
    obtain ⟨stack, hs, rfl⟩ := Option.map_eq_some_iff.mp h
    obtain ⟨v, rfl, hl⟩ := length_of_apply hs
    exact ⟨[v], rfl, rfl, hl⟩
  | label l =>
    cases h
    exact ⟨[], rfl, rfl, Nat.zero_le _⟩
  | call name n =>
    rw [Command.run_call] at h
    split at h
    next hn =>
      obtain ⟨p, -, rfl⟩ := Option.map_eq_some_iff.mp h
      exact ⟨[p.1], rfl, rfl, hn⟩
    next => cases h
  | goto | ifGoto | function | «return» => cases h

end Jack.VM
