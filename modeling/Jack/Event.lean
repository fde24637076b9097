import Jack.Token

namespace Jack

inductive Rule where
  | «class» | classVarDec | subroutineDec | parameterList | subroutineBody | varDec
  | statements | letStatement | ifStatement | whileStatement | doStatement | returnStatement
  | expression | term | expressionList
deriving DecidableEq

def Rule.name : Rule → String
  | .class => "class"
  | .classVarDec => "classVarDec"
  | .subroutineDec => "subroutineDec"
  | .parameterList => "parameterList"
  | .subroutineBody => "subroutineBody"
  | .varDec => "varDec"
  | .statements => "statements"
  | .letStatement => "letStatement"
  | .ifStatement => "ifStatement"
  | .whileStatement => "whileStatement"
  | .doStatement => "doStatement"
  | .returnStatement => "returnStatement"
  | .expression => "expression"
  | .term => "term"
  | .expressionList => "expressionList"

inductive Event where
  | enter (rule : Rule)
  | leave (rule : Rule)
  | consumed (token : Token)
deriving DecidableEq

namespace Event

def escapeChar : Char → String
  | '<' => "&lt;"
  | '>' => "&gt;"
  | '&' => "&amp;"
  | '"' => "&quot;"
  | c => c.toString

def escape (text : String) : String :=
  String.join (text.toList.map escapeChar)

/-- The name of the element that a token is stored in, and its text. The end of the text is not
stored. -/
def element? : Token → Option (String × String)
  | .keyword k => some ("keyword", k.text)
  | .symbol s => some ("symbol", s.text)
  | .integer value => some ("integerConstant", toString value)
  | .string text => some ("stringConstant", text)
  | .identifier name => some ("identifier", name)
  | .eof => none

def indent (depth : Nat) : String :=
  String.ofList (List.replicate (2 * depth) ' ')

/-- The line of an event inside `depth` open elements, if it has one, and the depth after it. -/
def line (depth : Nat) : Event → String × Nat
  | .enter rule => (indent depth ++ "<" ++ rule.name ++ ">\n", depth + 1)
  | .leave rule => (indent (depth - 1) ++ "</" ++ rule.name ++ ">\n", depth - 1)
  | .consumed token =>
    match element? token with
    | some (tag, text) =>
      (indent depth ++ "<" ++ tag ++ "> " ++ escape text ++ " </" ++ tag ++ ">\n", depth)
    | none => ("", depth)

def writeFrom (xml : String) (depth : Nat) : List Event → String
  | [] => xml
  | e :: es => writeFrom (xml ++ (e.line depth).1) (e.line depth).2 es

theorem writeFrom_eq_append (xml : String) (depth : Nat) (es : List Event) :
    writeFrom xml depth es = xml ++ writeFrom "" depth es := by
  induction es generalizing xml depth with
  | nil => simp [writeFrom]
  | cons e es ih =>
    rw [writeFrom, writeFrom, ih, ih ("" ++ _), String.append_assoc, String.empty_append]

def xml (events : List Event) : String :=
  writeFrom "" 0 events

end Event

end Jack
