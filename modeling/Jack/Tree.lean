import Jack.Variable
import Jack.Token

namespace Jack

inductive BinaryOp where
  | add | sub | mul | div | and | or | lt | gt | eq
deriving DecidableEq

namespace BinaryOp

def all : List BinaryOp := [.add, .sub, .mul, .div, .and, .or, .lt, .gt, .eq]

def symbol : BinaryOp → Symbol
  | .add => .plus
  | .sub => .minus
  | .mul => .asterisk
  | .div => .slash
  | .and => .ampersand
  | .or => .bar
  | .lt => .less
  | .gt => .greater
  | .eq => .equals

def ofSymbol? : Symbol → Option BinaryOp
  | .plus => some .add
  | .minus => some .sub
  | .asterisk => some .mul
  | .slash => some .div
  | .ampersand => some .and
  | .bar => some .or
  | .less => some .lt
  | .greater => some .gt
  | .equals => some .eq
  | _ => none

theorem ofSymbol?_eq_some_iff {s : Symbol} {op : BinaryOp} :
    ofSymbol? s = some op ↔ op.symbol = s := by
  cases s <;> cases op <;> decide

end BinaryOp

inductive UnaryOp where
  | neg | not
deriving DecidableEq

def UnaryOp.symbol : UnaryOp → Symbol
  | .neg => .minus
  | .not => .tilde

inductive NamedConstant where
  | true | false | null | this
deriving DecidableEq

def NamedConstant.keyword : NamedConstant → Keyword
  | .true => .true
  | .false => .false
  | .null => .null
  | .this => .this

/-- What a call calls, as its spelling resolves. -/
inductive Callee where
  | own (owner name : String)
  /-- `receiver.name`, a method of the object that a variable holds. -/
  | method (receiver : Variable) (name : String)
  /-- `owner.name`, where `owner` is no variable: a function or constructor of that class. -/
  | function (owner name : String)
deriving DecidableEq

mutual

inductive Term where
  | integer (value : Nat)
  | string (text : String)
  | constant (value : NamedConstant)
  | variable (v : Variable)
  | element (array : Variable) (index : Expression)
  | call (callee : Callee) (arguments : List Expression)
  | group (inner : Expression)
  | unary (op : UnaryOp) (operand : Term)

/-- A term and what is joined to it, from left to right. No operator binds tighter than another. -/
inductive Expression where
  | chain (first : Term) (rest : List (BinaryOp × Term))

end

theorem sizeOf_snd_lt_of_mem {α β : Type} [SizeOf α] [SizeOf β] {p : α × β} {ps : List (α × β)}
    (h : p ∈ ps) : sizeOf p.2 < sizeOf ps := by
  have h := List.sizeOf_lt_of_mem h
  obtain ⟨a, b⟩ := p
  rw [Prod.mk.sizeOf_spec] at h
  exact Nat.lt_of_le_of_lt (Nat.le_add_left _ _) h

inductive Statement where
  | assign (target : Variable) (value : Expression)
  | store (array : Variable) (index value : Expression)
  | ifThen (condition : Expression) (yes : List Statement)
  | ifElse (condition : Expression) (yes no : List Statement)
  | while (condition : Expression) (body : List Statement)
  | do (callee : Callee) (arguments : List Expression)
  | return (value : Option Expression)

inductive DataType where
  | int | char | boolean
  | object (className : String)
deriving DecidableEq

def DataType.name : DataType → String
  | .int => "int"
  | .char => "char"
  | .boolean => "boolean"
  | .object className => className

structure Declaration where
  kind : VariableKind
  type : DataType
  first : String
  more : List String

namespace Declaration

def names (d : Declaration) : List String := d.first :: d.more

end Declaration

inductive ReturnType where
  | void
  | value (type : DataType)
deriving DecidableEq

inductive SubroutineKind where
  | constructor | function | method
deriving DecidableEq

structure Parameter where
  type : DataType
  name : String

structure Subroutine where
  kind : SubroutineKind
  returnType : ReturnType
  name : String
  parameters : List Parameter
  locals : List Declaration
  body : List Statement

structure Class where
  name : String
  declarations : List Declaration
  subroutines : List Subroutine

end Jack
