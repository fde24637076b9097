import Jack.VM.Command

/-!
The stack machine: what a command does to the state of a running subroutine, and how control goes
through the block of commands that the subroutine consists of. What other subroutines do is left
open: they are a parameter.
-/

namespace Jack.VM

abbrev Word := BitVec 16

/-- The memory that all subroutines share. `World` is what the program sees through calls only,
such as the screen. -/
structure Shared (World : Type) where
  statics : Nat → Word
  heap : Word → Word
  world : World

/-- The memory that a source text speaks of. `this` is the current object, `pointer 0`. -/
structure Memory (World : Type) extends Shared World where
  locals : Nat → Word
  arguments : Nat → Word
  this : Word

/-- What code uses on the way to a value: `pointer 1` and the segment `temp`. -/
structure Scratch where
  that : Word
  temp : Nat → Word

structure State (World : Type) where
  stack : List Word
  memory : Memory World
  scratch : Scratch

/-- What calls do. An answer depends on the arguments and the memory. It is a value and the shared
memory after the call, so the frame of the caller stays as it is. A call that has no answer does
not return. The scratch registers are left in any state, but no answer depends on them. -/
structure Calls (World : Type) where
  answer : String → List Word → Memory World → Option (Word × Shared World)
  clobber : String → List Word → Memory World → Scratch → Scratch

variable {World : Type}

namespace Memory

def afterCall (m : Memory World) (s : Shared World) : Memory World :=
  { m with toShared := s }

def setHeap (m : Memory World) (address v : Word) : Memory World :=
  { m with heap := fun a => if a = address then v else m.heap a }

end Memory

def setAt (f : Nat → Word) (i : Nat) (v : Word) : Nat → Word :=
  fun j => if j = i then v else f j

@[simp] theorem setAt_self (f : Nat → Word) (i : Nat) (v : Word) : setAt f i v i = v :=
  if_pos rfl

namespace State

def load (s : State World) : Segment → Nat → Option Word
  | .constant, n => some (BitVec.ofNat 16 n)
  | .argument, i => some (s.memory.arguments i)
  | .local, i => some (s.memory.locals i)
  | .static, i => some (s.memory.statics i)
  | .this, i => some (s.memory.heap (s.memory.this + BitVec.ofNat 16 i))
  | .that, i => some (s.memory.heap (s.scratch.that + BitVec.ofNat 16 i))
  | .pointer, 0 => some s.memory.this
  | .pointer, 1 => some s.scratch.that
  | .pointer, _ => none
  | .temp, i => some (s.scratch.temp i)

def store (s : State World) (v : Word) : Segment → Nat → Option (State World)
  | .constant, _ => none
  | .argument, i => some { s with memory.arguments := setAt s.memory.arguments i v }
  | .local, i => some { s with memory.locals := setAt s.memory.locals i v }
  | .static, i => some { s with memory.statics := setAt s.memory.statics i v }
  | .this, i => some { s with memory := s.memory.setHeap (s.memory.this + BitVec.ofNat 16 i) v }
  | .that, i => some { s with memory := s.memory.setHeap (s.scratch.that + BitVec.ofNat 16 i) v }
  | .pointer, 0 => some { s with memory.this := v }
  | .pointer, 1 => some { s with scratch.that := v }
  | .pointer, _ => none
  | .temp, i => some { s with scratch.temp := setAt s.scratch.temp i v }

@[simp] theorem load_temp (s : State World) (i : Nat) : s.load .temp i = some (s.scratch.temp i) := rfl

@[simp] theorem load_that (s : State World) :
    s.load .that 0 = some (s.memory.heap s.scratch.that) := by
  simp [load]

@[simp] theorem store_that (s : State World) (v : Word) :
    s.store v .that 0 = some { s with memory := s.memory.setHeap s.scratch.that v } := by
  simp [store]

@[simp] theorem store_pointer_one (s : State World) (v : Word) :
    s.store v .pointer 1 = some { s with scratch.that := v } := rfl

@[simp] theorem store_temp (s : State World) (i : Nat) (v : Word) :
    s.store v .temp i = some { s with scratch.temp := setAt s.scratch.temp i v } := rfl

end State

/-- True is all ones, false is all zeroes. -/
def truth (b : Bool) : Word :=
  if b then BitVec.allOnes 16 else 0

/-- The operand on top of the stack is the second one. Comparisons are signed. -/
def Arithmetic.apply : Arithmetic → List Word → Option (List Word)
  | .add, y :: x :: stack => some ((x + y) :: stack)
  | .sub, y :: x :: stack => some ((x - y) :: stack)
  | .and, y :: x :: stack => some ((x &&& y) :: stack)
  | .or, y :: x :: stack => some ((x ||| y) :: stack)
  | .lt, y :: x :: stack => some (truth (x.slt y) :: stack)
  | .gt, y :: x :: stack => some (truth (y.slt x) :: stack)
  | .eq, y :: x :: stack => some (truth (x == y) :: stack)
  | .neg, x :: stack => some (-x :: stack)
  | .not, x :: stack => some (~~~x :: stack)
  | _, _ => none

def Command.run (calls : Calls World) (s : State World) : Command → Option (State World)
  | .push segment i => (s.load segment i).map fun v => { s with stack := v :: s.stack }
  | .pop segment i =>
    match s.stack with
    | [] => none
    | v :: stack => { s with stack := stack }.store v segment i
  | .arithmetic op => (op.apply s.stack).map fun stack => { s with stack := stack }
  | .label _ => some s
  | .call name n =>
    if n ≤ s.stack.length then
      let arguments := (s.stack.take n).reverse
      (calls.answer name arguments s.memory).map fun (v, shared) =>
        { stack := v :: s.stack.drop n
          memory := s.memory.afterCall shared
          scratch := calls.clobber name arguments s.memory s.scratch }
    else none
  | .goto _ | .ifGoto _ | .function _ _ | .return => none

namespace Command

variable {calls : Calls World} {s : State World} {stack : List Word} {m : Memory World}
  {scratch : Scratch}

@[simp] theorem run_push (segment : Segment) (i : Nat) :
    (push segment i).run calls s =
      (s.load segment i).map fun v => { s with stack := v :: s.stack } := rfl

@[simp] theorem run_pop (segment : Segment) (i : Nat) (v : Word) :
    (pop segment i).run calls ⟨v :: stack, m, scratch⟩ =
      (State.mk stack m scratch).store v segment i := rfl

@[simp] theorem run_arithmetic (op : Arithmetic) :
    (arithmetic op).run calls s = (op.apply s.stack).map fun stack => { s with stack := stack } := rfl

theorem run_call (name : String) (n : Nat) :
    (call name n).run calls s =
      if n ≤ s.stack.length then
        (calls.answer name (s.stack.take n).reverse s.memory).map fun (v, shared) =>
          { stack := v :: s.stack.drop n
            memory := s.memory.afterCall shared
            scratch := calls.clobber name (s.stack.take n).reverse s.memory s.scratch }
      else none := rfl

@[simp] theorem run_label (l : Label) : (label l).run calls s = some s := rfl

end Command

def exec (calls : Calls World) : List Command → State World → Option (State World)
  | [], s => some s
  | c :: cs, s => (c.run calls s).bind (exec calls cs)

structure Config (World : Type) where
  counter : Nat
  state : State World

def target (block : List Command) (l : Label) : Option Nat :=
  block.idxOf? (.label l)

/-- One step inside a block. There is none at a `return`, at the end of the block, and where the
machine is stuck. -/
def step (calls : Calls World) (block : List Command) (c : Config World) : Option (Config World) :=
  match block[c.counter]? with
  | none => none
  | some (.goto l) => (target block l).map (⟨·, c.state⟩)
  | some (.ifGoto l) =>
    match c.state.stack with
    | [] => none
    | v :: stack =>
      let s := { c.state with stack := stack }
      if v = 0 then some ⟨c.counter + 1, s⟩ else (target block l).map (⟨·, s⟩)
  | some command => (command.run calls c.state).map (⟨c.counter + 1, ·⟩)

def steps (calls : Calls World) (block : List Command) : Nat → Config World → Option (Config World)
  | 0, c => some c
  | n + 1, c => (step calls block c).bind (steps calls block n)

/-- How a block is left: by a `return`, with the value that it returns, or at its end. -/
inductive Ending (World : Type) where
  | returned (value : Word) (memory : Memory World)
  | completed (memory : Memory World)

def Config.ending? (block : List Command) (c : Config World) : Option (Ending World) :=
  if c.counter = block.length then some (.completed c.state.memory)
  else if block[c.counter]? = some .return then
    c.state.stack.head?.map (.returned · c.state.memory)
  else none

def EndsIn (calls : Calls World) (block : List Command) (n : Nat) (c : Config World)
    (e : Ending World) : Prop :=
  (steps calls block n c).bind (·.ending? block) = some e

def Ends (calls : Calls World) (block : List Command) (c : Config World) (e : Ending World) : Prop :=
  ∃ n, EndsIn calls block n c e

end Jack.VM
