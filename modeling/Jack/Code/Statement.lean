import Jack.Code.Expression
import Jack.Label

namespace Jack

open VM (Command)

/-- Stores the value on top of the stack in the element whose address lies below it. The value goes
by way of `temp 0`, since its own code may have set `pointer 1`. -/
def storeElement : List Command :=
  [.pop .temp 0, .pop .pointer 1, .push .temp 0, .pop .that 0]

mutual

/-- The code of a statement before which `k` labels have been given out, and the count after it. -/
def Statement.code (k : LabelCount) : Statement → List Command × LabelCount
  | .assign target value => (value.code ++ [target.pop], k)
  | .store array index value =>
    (index.code ++ [array.push, .arithmetic .add] ++ value.code ++ storeElement, k)
  | .ifThen condition yes =>
    let (l, k) := k.forIf
    let (yes, k) := Statement.codeAll k yes
    (condition.code ++ [.ifGoto l.onTrue, .goto l.onFalse, .label l.onTrue] ++ yes ++
      [.label l.onFalse], k)
  | .ifElse condition yes no =>
    let (l, k) := k.forIf
    let (yes, k) := Statement.codeAll k yes
    let (no, k) := Statement.codeAll k no
    (condition.code ++ [.ifGoto l.onTrue, .goto l.onFalse, .label l.onTrue] ++ yes ++
      [.goto l.done, .label l.onFalse] ++ no ++ [.label l.done], k)
  | .while condition body =>
    let (l, k) := k.forWhile
    let (body, k) := Statement.codeAll k body
    ([.label l.condition] ++ condition.code ++ [.arithmetic .not, .ifGoto l.done] ++ body ++
      [.goto l.condition, .label l.done], k)
  | .do callee arguments => ((Term.call callee arguments).code ++ [.pop .temp 0], k)
  | .return none => ([.push .constant 0, .return], k)
  | .return (some value) => (value.code ++ [.return], k)

def Statement.codeAll (k : LabelCount) : List Statement → List Command × LabelCount
  | [] => ([], k)
  | s :: ss =>
    let (code, k) := s.code k
    let (more, k) := Statement.codeAll k ss
    (code ++ more, k)

end

end Jack
