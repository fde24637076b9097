import Jack.Tree

namespace Jack

open VM (Command)

def BinaryOp.code : BinaryOp → Command
  | .add => .arithmetic .add
  | .sub => .arithmetic .sub
  | .mul => .call "Math.multiply" 2
  | .div => .call "Math.divide" 2
  | .and => .arithmetic .and
  | .or => .arithmetic .or
  | .lt => .arithmetic .lt
  | .gt => .arithmetic .gt
  | .eq => .arithmetic .eq

def UnaryOp.code : UnaryOp → Command
  | .neg => .arithmetic .neg
  | .not => .arithmetic .not

def NamedConstant.code : NamedConstant → List Command
  | .true => [.push .constant 0, .arithmetic .not]
  | .false | .null => [.push .constant 0]
  | .this => [.push .pointer 0]

/-- Builds a string one character at a time. The string stays on the stack, since each call hands
back the string that it appends to. -/
def stringCode (text : String) : List Command :=
  .push .constant text.length :: .call "String.new" 1 ::
    text.toList.flatMap fun c => [.push .constant c.toNat, .call "String.appendChar" 2]

namespace Callee

def receiver : Callee → List Command
  | .own _ _ => [.push .pointer 0]
  | .method receiver _ => [receiver.push]
  | .function _ _ => []

def target : Callee → String
  | .own owner name => owner ++ "." ++ name
  | .method receiver name => receiver.type ++ "." ++ name
  | .function owner name => owner ++ "." ++ name

/-- The call of `n` arguments, which are on the stack above the receiver. They are counted in 16 bits. -/
def call (callee : Callee) (n : Nat) : Command :=
  .call callee.target ((n + callee.receiver.length) % 65536)

end Callee

def loadElement : List Command := [.pop .pointer 1, .push .that 0]

mutual

def Term.code : Term → List Command
  | .integer value => [.push .constant value]
  | .string text => stringCode text
  | .constant value => value.code
  | .variable v => [v.push]
  | .element array index => index.code ++ [array.push, .arithmetic .add] ++ loadElement
  | .call callee arguments =>
    callee.receiver ++ arguments.flatMap (·.code) ++ [callee.call arguments.length]
  | .group inner => inner.code
  | .unary op operand => operand.code ++ [op.code]
termination_by t => sizeOf t

def Expression.code : Expression → List Command
  | .chain first rest => first.code ++ rest.flatMap fun p => p.2.code ++ [p.1.code]
termination_by e => sizeOf e
decreasing_by
  · decreasing_tactic
  · have := sizeOf_snd_lt_of_mem ‹_ ∈ rest›
    decreasing_tactic

end

end Jack
