import Jack.Proofs.Code.Arity
import Jack.Proofs.VM.Machine

/-!
What expressions mean. Their value is found by going through the tree from left to right, with no
operator binding tighter than another, and calls decide what becomes of the memory.
-/

namespace Jack

open VM

variable {World : Type}

/-- Finds a value and may change the memory on the way. Nothing comes of it if a call does not
return. -/
abbrev Eval (World α : Type) := StateT (Memory World) Option α

namespace Eval

variable {α β : Type}

@[simp] theorem pure_apply (a : α) (m : Memory World) :
    (pure a : Eval World α) m = some (a, m) := rfl

@[simp] theorem bind_apply (x : Eval World α) (f : α → Eval World β) (m : Memory World) :
    (x >>= f) m = (x m).bind fun p => f p.1 p.2 := rfl

end Eval

def callValue (calls : Calls World) (name : String) (arguments : List Word) : Eval World Word :=
  fun m => (calls.answer name arguments m).map fun (v, shared) => (v, m.afterCall shared)

namespace Variable

def get (v : Variable) (m : Memory World) : Word :=
  match v.kind with
  | .static => m.statics v.slot
  | .field => m.heap (m.this + BitVec.ofNat 16 v.slot)
  | .argument => m.arguments v.slot
  | .local => m.locals v.slot

def set (v : Variable) (m : Memory World) (w : Word) : Memory World :=
  match v.kind with
  | .static => { m with statics := setAt m.statics v.slot w }
  | .field => m.setHeap (m.this + BitVec.ofNat 16 v.slot) w
  | .argument => { m with arguments := setAt m.arguments v.slot w }
  | .local => { m with locals := setAt m.locals v.slot w }

def read (v : Variable) : Eval World Word :=
  fun m => some (v.get m, m)

end Variable

/-- The machine has no multiplication and no division of its own. -/
def BinaryOp.apply (calls : Calls World) (x y : Word) : BinaryOp → Eval World Word
  | .add => pure (x + y)
  | .sub => pure (x - y)
  | .mul => callValue calls "Math.multiply" [x, y]
  | .div => callValue calls "Math.divide" [x, y]
  | .and => pure (x &&& y)
  | .or => pure (x ||| y)
  | .lt => pure (truth (x.slt y))
  | .gt => pure (truth (y.slt x))
  | .eq => pure (truth (x == y))

def UnaryOp.apply (x : Word) : UnaryOp → Word
  | .neg => -x
  | .not => ~~~x

def NamedConstant.value (m : Memory World) : NamedConstant → Word
  | .true => truth Bool.true
  | .false | .null => 0
  | .this => m.this

/-- A new string, to which the characters are appended. Appending answers the string to go on
with. -/
def stringValue (calls : Calls World) (text : String) : Eval World Word := do
  let s ← callValue calls "String.new" [BitVec.ofNat 16 text.length]
  text.toList.foldlM (fun s c => callValue calls "String.appendChar" [s, BitVec.ofNat 16 c.toNat]) s

/-- The subroutine that is called. A method belongs to the class of its object. -/
def Callee.subroutine : Callee → String
  | .own owner name => owner ++ "." ++ name
  | .method receiver name => receiver.type ++ "." ++ name
  | .function owner name => owner ++ "." ++ name

/-- The object that a method is called on, if it is a method that is called. -/
def Callee.object : Callee → Eval World (List Word)
  | .own _ _ => fun m => some ([m.this], m)
  | .method receiver _ => fun m => some ([receiver.get m], m)
  | .function _ _ => pure []

def Variable.element (array : Variable) (index : Word) : Eval World Word :=
  fun m => some (m.heap (index + array.get m), m)

mutual

def Term.eval (calls : Calls World) : Term → Eval World Word
  | .integer value => pure (BitVec.ofNat 16 value)
  | .string text => stringValue calls text
  | .constant value => fun m => some (value.value m, m)
  | .variable v => v.read
  | .element array index => do
    let i ← index.eval calls
    array.element i
  | .call callee arguments => do
    let object ← callee.object
    let vs ← Expression.evalAll calls arguments
    callValue calls callee.subroutine (object ++ vs)
  | .group inner => inner.eval calls
  | .unary op operand => do
    let v ← operand.eval calls
    return op.apply v
termination_by structural t => t

def Expression.eval (calls : Calls World) : Expression → Eval World Word
  | .chain first rest => do
    let v ← first.eval calls
    Expression.evalRest calls v rest
termination_by structural e => e

/-- The value of a chain behind a part of it that has the value `v`. -/
def Expression.evalRest (calls : Calls World) (v : Word) : List (BinaryOp × Term) → Eval World Word
  | [] => pure v
  | (op, operand) :: rest => do
    let w ← operand.eval calls
    let v ← op.apply calls v w
    Expression.evalRest calls v rest
termination_by structural rest => rest

def Expression.evalAll (calls : Calls World) : List Expression → Eval World (List Word)
  | [] => pure []
  | e :: es => do
    let v ← e.eval calls
    let vs ← Expression.evalAll calls es
    return v :: vs
termination_by structural es => es

end

theorem Callee.length_of_object {callee : Callee} {m m' : Memory World} {object vs : List Word}
    (h : callee.object m = some (object, m')) : (object ++ vs).length = callee.arity vs.length := by
  cases callee <;> cases h <;> rfl

theorem Expression.length_of_evalAll {calls : Calls World} {es : List Expression}
    {m m' : Memory World} {vs : List Word} (h : Expression.evalAll calls es m = some (vs, m')) :
    vs.length = es.length := by
  induction es generalizing m vs with
  | nil =>
    cases h
    rfl
  | cons e es ih =>
    simp only [Expression.evalAll, Eval.bind_apply, Option.bind_eq_some_iff, Prod.exists] at h
    obtain ⟨v, m₁, -, ws, m₂, hws, h⟩ := h
    cases h
    simp [ih hws]

end Jack
