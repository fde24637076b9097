import Jack.Token
import Jack.Variable

namespace Jack

inductive LexicalFault where
  | unexpectedCharacter (c : Char)
  | newlineInString
  | longString
  | foreignCharacter (c : Char)
  | characterInInteger (c : Char)
  | largeInteger (digits : String)
  | openString
  | openComment
  /-- A fault in the words of another reader of source texts. -/
  | other (message : String)
deriving DecidableEq

def LexicalFault.message : LexicalFault → String
  | .unexpectedCharacter c => "Unexpected character '" ++ c.toString ++ "'."
  | .newlineInString => "Unexpected newline in string literal."
  | .longString => "String literal is longer than " ++ toString maxConstant ++ " characters."
  | .foreignCharacter c => "The character '" ++ c.toString ++ "' cannot appear in a string literal."
  | .characterInInteger c => "Unexpected character '" ++ c.toString ++ "' in integer literal."
  | .largeInteger digits =>
    "Integer literal '" ++ digits ++ "' is larger than " ++ toString maxConstant ++ "."
  | .openString => "Unterminated string literal."
  | .openComment => "Unterminated block comment."
  | .other message => message

inductive RangeFault where
  | largeInteger (value : Nat)
  | longString
  | foreignCharacter (c : Char)
  | slotsUsedUp (kind : VariableKind) (name : String)
  | other (message : String)
deriving DecidableEq

def RangeFault.message : RangeFault → String
  | .largeInteger value =>
    "Integer constant " ++ toString value ++ " is larger than " ++ toString maxConstant ++ "."
  | .longString => "String constant is longer than " ++ toString maxConstant ++ " characters."
  | .foreignCharacter c => "The character '" ++ c.toString ++ "' has no character code."
  | .slotsUsedUp kind name => "Too many " ++ kind.name ++ " variables; '" ++ name ++ "' does not fit."
  | .other message => message

inductive Fault where
  | lexical (fault : LexicalFault)
  | unexpected (expected : List TokenKind) (found : Token)
  | unresolved (name : String)
  | redeclared (name : String)
  | outOfRange (fault : RangeFault)
deriving DecidableEq

def Fault.message : Fault → String
  | .lexical fault => fault.message
  | .unexpected expected found =>
    "Expected " ++ TokenKind.describeAny expected ++ ", got " ++ found.describe ++ " instead."
  | .unresolved name =>
    "The variable '" ++ name ++
      "' either does not exist or was defined in another class or function."
  | .redeclared name => "The name '" ++ name ++ "' is already declared in this scope."
  | .outOfRange fault => fault.message

structure Error where
  location : Location
  fault : Fault
deriving DecidableEq

def Error.message (e : Error) : String :=
  "At " ++ e.location.text ++ ":\n" ++ e.fault.message

/-- What a stream of lexemes hands out at one request. -/
abbrev Item := Except Error Lexeme

end Jack
