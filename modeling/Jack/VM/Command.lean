namespace Jack.VM

inductive Segment where
  | constant | argument | local | static
  | this
  | that
  | pointer | temp
deriving DecidableEq

def Segment.text : Segment → String
  | .constant => "constant"
  | .argument => "argument"
  | .local => "local"
  | .static => "static"
  | .this => "this"
  | .that => "that"
  | .pointer => "pointer"
  | .temp => "temp"

inductive Arithmetic where
  | add | sub | neg | not | and | or | lt | gt | eq
deriving DecidableEq

def Arithmetic.text : Arithmetic → String
  | .add => "add"
  | .sub => "sub"
  | .neg => "neg"
  | .not => "not"
  | .and => "and"
  | .or => "or"
  | .lt => "lt"
  | .gt => "gt"
  | .eq => "eq"

inductive LabelRole where
  | ifTrue | ifFalse | ifEnd | whileCondition | whileEnd
deriving DecidableEq

def LabelRole.text : LabelRole → String
  | .ifTrue => "IF_TRUE"
  | .ifFalse => "IF_FALSE"
  | .ifEnd => "IF_END"
  | .whileCondition => "WHILE_EXP"
  | .whileEnd => "WHILE_END"

/-- A target of jumps, known inside one function only. -/
structure Label where
  role : LabelRole
  id : Nat
deriving DecidableEq

def Label.text (l : Label) : String :=
  l.role.text ++ toString l.id

inductive Command where
  | push (segment : Segment) (index : Nat)
  | pop (segment : Segment) (index : Nat)
  | arithmetic (op : Arithmetic)
  | label (l : Label)
  | goto (l : Label)
  | ifGoto (l : Label)
  | function (name : String) (locals : Nat)
  | call (name : String) (arguments : Nat)
  | return
deriving DecidableEq

def Command.text : Command → String
  | .push segment index => "push " ++ segment.text ++ " " ++ toString index
  | .pop segment index => "pop " ++ segment.text ++ " " ++ toString index
  | .arithmetic op => op.text
  | .label l => "label " ++ l.text
  | .goto l => "goto " ++ l.text
  | .ifGoto l => "if-goto " ++ l.text
  | .function name locals => "function " ++ name ++ " " ++ toString locals
  | .call name arguments => "call " ++ name ++ " " ++ toString arguments
  | .return => "return"

def render (commands : List Command) : String :=
  String.join (commands.map fun c => c.text ++ "\n")

theorem render_append (cs ds : List Command) : render (cs ++ ds) = render cs ++ render ds := by
  simp [render, String.join_append]

end Jack.VM
