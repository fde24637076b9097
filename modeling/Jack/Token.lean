import Jack.Location

namespace Jack

/-- No integer constant is larger, and no string constant is longer. -/
def maxConstant : Nat := 32767

inductive Keyword where
  | «class» | constructor | function | method | field | static | var
  | int | char | boolean | void | true | false | null | this
  | let | do | if | else | while | return
deriving DecidableEq

namespace Keyword

def all : List Keyword :=
  [.class, .constructor, .function, .method, .field, .static, .var, .int, .char, .boolean, .void,
    .true, .false, .null, .this, .let, .do, .if, .else, .while, .return]

def text : Keyword → String
  | .class => "class"
  | .constructor => "constructor"
  | .function => "function"
  | .method => "method"
  | .field => "field"
  | .static => "static"
  | .var => "var"
  | .int => "int"
  | .char => "char"
  | .boolean => "boolean"
  | .void => "void"
  | .true => "true"
  | .false => "false"
  | .null => "null"
  | .this => "this"
  | .let => "let"
  | .do => "do"
  | .if => "if"
  | .else => "else"
  | .while => "while"
  | .return => "return"

def ofText? (text : String) : Option Keyword :=
  all.find? (·.text == text)

end Keyword

inductive Symbol where
  | leftBrace | rightBrace | leftParen | rightParen | leftBracket | rightBracket
  | dot | comma | semicolon
  | plus | minus | asterisk | slash | ampersand | bar | less | greater | equals | tilde
deriving DecidableEq

namespace Symbol

def all : List Symbol :=
  [.leftBrace, .rightBrace, .leftParen, .rightParen, .leftBracket, .rightBracket, .dot, .comma,
    .semicolon, .plus, .minus, .asterisk, .slash, .ampersand, .bar, .less, .greater, .equals,
    .tilde]

def char : Symbol → Char
  | .leftBrace => '{'
  | .rightBrace => '}'
  | .leftParen => '('
  | .rightParen => ')'
  | .leftBracket => '['
  | .rightBracket => ']'
  | .dot => '.'
  | .comma => ','
  | .semicolon => ';'
  | .plus => '+'
  | .minus => '-'
  | .asterisk => '*'
  | .slash => '/'
  | .ampersand => '&'
  | .bar => '|'
  | .less => '<'
  | .greater => '>'
  | .equals => '='
  | .tilde => '~'

def text (s : Symbol) : String :=
  String.singleton s.char

def ofChar? (c : Char) : Option Symbol :=
  all.find? (·.char == c)

end Symbol

inductive Token where
  | keyword (k : Keyword)
  | symbol (s : Symbol)
  | integer (value : Nat)
  | string (text : String)
  | identifier (name : String)
  | eof
deriving DecidableEq

/-- A token without its content. What is expected at some place is a list of kinds. -/
inductive TokenKind where
  | keyword (k : Keyword)
  | symbol (s : Symbol)
  | integer
  | string
  | identifier
  | eof
deriving DecidableEq

namespace Token

def kind : Token → TokenKind
  | .keyword k => .keyword k
  | .symbol s => .symbol s
  | .integer _ => .integer
  | .string _ => .string
  | .identifier _ => .identifier
  | .eof => .eof

/-- A keyword, if the word is spelled exactly as one; an identifier otherwise. -/
def ofWord (word : String) : Token :=
  match Keyword.ofText? word with
  | some k => .keyword k
  | none => .identifier word

def name? : Token → Option String
  | .identifier name => some name
  | _ => none

theorem name?_eq_some_iff {t : Token} {x : String} : t.name? = some x ↔ t = .identifier x := by
  cases t <;> simp [name?]

theorem kind_eq_keyword_iff {t : Token} {k : Keyword} : t.kind = .keyword k ↔ t = .keyword k := by
  cases t <;> simp [kind]

theorem kind_eq_symbol_iff {t : Token} {s : Symbol} : t.kind = .symbol s ↔ t = .symbol s := by
  cases t <;> simp [kind]

theorem kind_eq_identifier_iff {t : Token} : t.kind = .identifier ↔ ∃ x, t = .identifier x := by
  cases t <;> simp [kind]

def describe : Token → String
  | .keyword k => "keyword '" ++ k.text ++ "'"
  | .symbol s => "symbol '" ++ s.text ++ "'"
  | .integer value => "integer literal '" ++ toString value ++ "'"
  | .string text => "string literal \"" ++ text ++ "\""
  | .identifier name => "identifier '" ++ name ++ "'"
  | .eof => "end of file"

end Token

namespace TokenKind

def describe : TokenKind → String
  | .keyword k => "'" ++ k.text ++ "'"
  | .symbol s => "'" ++ s.text ++ "'"
  | .integer => "integer literal"
  | .string => "string literal"
  | .identifier => "identifier"
  | .eof => "end of file"

def describeLast : List TokenKind → String
  | [] => ""
  | [k] => "or " ++ k.describe
  | k :: ks => k.describe ++ ", " ++ describeLast ks

def describeAny : List TokenKind → String
  | [] => "nothing"
  | [k] => k.describe
  | ks => describeLast ks

end TokenKind

structure Lexeme where
  token : Token
  location : Location
deriving DecidableEq

end Jack
