import Jack.VM.Command

namespace Jack

inductive VariableKind where
  | static | field | argument | local
deriving DecidableEq

namespace VariableKind

def segment : VariableKind → VM.Segment
  | .static => .static
  | .field => .this
  | .argument => .argument
  | .local => .local

def name : VariableKind → String
  | .static => "Static"
  | .field => "Field"
  | .argument => "Argument"
  | .local => "Local"

end VariableKind

/-- Statics and fields live as long as the class, arguments and locals as long as a subroutine. -/
inductive Extent where
  | «class» | subroutine
deriving DecidableEq

def VariableKind.extent : VariableKind → Extent
  | .static | .field => .class
  | .argument | .local => .subroutine

/-- A declared name. Its slots are numbered from 0 among the variables of its kind. -/
structure Variable where
  name : String
  type : String
  kind : VariableKind
  slot : Nat
deriving DecidableEq

namespace Variable

def segment (v : Variable) : VM.Segment := v.kind.segment

def push (v : Variable) : VM.Command := .push v.segment v.slot

def pop (v : Variable) : VM.Command := .pop v.segment v.slot

end Variable

end Jack
