import Jack.Code.Statement
import Jack.Proofs.Meaning.Expression

namespace Jack

open VM

variable {World : Type}

/-- Which endings are possible from a memory. -/
abbrev Behaviour (World : Type) := Memory World → Ending World → Prop

namespace Behaviour

def skip : Behaviour World :=
  fun m e => e = .completed m

def returns (v : Word) : Behaviour World :=
  fun m e => e = .returned v m

def after {α : Type} (x : Eval World α) (b : α → Behaviour World) : Behaviour World :=
  fun m e => ∃ v m', x m = some (v, m') ∧ b v m' e

def ofEval (x : Eval World Unit) : Behaviour World :=
  after x fun _ => skip

def andThen (b c : Behaviour World) : Behaviour World :=
  fun m e =>
    match e with
    | .returned _ _ => b m e ∨ ∃ m', b m (.completed m') ∧ c m' e
    | .completed _ => ∃ m', b m (.completed m') ∧ c m' e

/-- Goes on as long as the complement of the condition is zero, so that of all words only `true`
keeps a loop going. -/
inductive Loop (condition : Eval World Word) (body : Behaviour World) : Behaviour World
  | leave {m m' v} : condition m = some (v, m') → ~~~v ≠ 0 → Loop condition body m (.completed m')
  | again {m m₁ m₂ v e} : condition m = some (v, m₁) → ~~~v = 0 → body m₁ (.completed m₂) →
    Loop condition body m₂ e → Loop condition body m e
  | returns {m m₁ m₂ v w} : condition m = some (v, m₁) → ~~~v = 0 → body m₁ (.returned w m₂) →
    Loop condition body m (.returned w m₂)

end Behaviour

def Variable.assign (v : Variable) (w : Word) : Eval World Unit :=
  fun m => some ((), v.set m w)

def storeAt (address w : Word) : Eval World Unit :=
  fun m => some ((), m.setHeap address w)

def Variable.address (array : Variable) (index : Word) : Eval World Word :=
  fun m => some (index + array.get m, m)

open Behaviour

mutual

def Statement.behaviour (calls : Calls World) : Statement → Behaviour World
  | .assign target value => ofEval do
    let v ← value.eval calls
    target.assign v
  | .store array index value => ofEval do
    let i ← index.eval calls
    let a ← array.address i
    let v ← value.eval calls
    storeAt a v
  | .ifThen condition yes => after (condition.eval calls) fun v =>
    if v = 0 then skip else Statement.behaviourAll calls yes
  | .ifElse condition yes no => after (condition.eval calls) fun v =>
    if v = 0 then Statement.behaviourAll calls no else Statement.behaviourAll calls yes
  | .while condition body => Loop (condition.eval calls) (Statement.behaviourAll calls body)
  | .do callee arguments => ofEval do
    let _ ← (Term.call callee arguments).eval calls
  | .return none => returns 0
  | .return (some value) => after (value.eval calls) returns

def Statement.behaviourAll (calls : Calls World) : List Statement → Behaviour World
  | [] => skip
  | s :: ss => (s.behaviour calls).andThen (Statement.behaviourAll calls ss)

end

end Jack
