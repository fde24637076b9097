import Jack.Code.Expression
import Jack.Parse.Reading

namespace Jack

/-- What becomes of a sum that 16 bits cannot hold: a checked build gives up, and in the other it wraps
around. -/
inductive Build where
  | checked
  | wrapping

namespace Parse

/-- Why a run is given up. -/
inductive Abort where
  | spent
  | overflow
deriving DecidableEq

/-- A program that reads from a window as long as it has fuel. -/
abbrev Fueled := StateT Window (ExceptT Stop (Except Abort))

namespace Fueled

open Reading (take exactly name mark refuse)

variable {α σ : Type}

def of (m : Reading α) : Fueled α := fun w => .ok (m w)

def giveUp (reason : Abort) : Fueled α := fun _ => .error reason

@[macro_inline]
def choose (kinds : List TokenKind) (x y : Fueled α) : Fueled α := fun w =>
  if w.nextIsAmong kinds then x w else y w

def inRule (rule : Rule) (x : Fueled α) : Fueled α := do
  of (mark (.enter rule))
  let a ← x
  of (mark (.leave rule))
  return a

/-- The sum of two numbers of 16 bits. -/
def add (build : Build) (a b : Nat) : Fueled Nat :=
  match build with
  | .checked => if a + b < 65536 then return a + b else giveUp .overflow
  | .wrapping => return (a + b) % 65536

def loop (starts : List TokenKind) (item : σ → Fueled (α × σ)) : Nat → List α → σ → Fueled (List α × σ)
  | 0, _, _ => giveUp .spent
  | fuel + 1, xs, s => choose starts (do
      let p ← item s
      loop starts item fuel (p.1 :: xs) p.2) (pure (xs.reverse, s))

def each (item : Fueled α) (_ : Unit) : Fueled (α × Unit) := do
  let a ← item
  return (a, ())

def counting (build : Build) (item : Fueled α) (count : Nat) : Fueled (α × Nat) := do
  let a ← item
  let count ← add build count 1
  return (a, count)

def repeated (starts : List TokenKind) (item : Fueled α) (fuel : Nat) : Fueled (List α) := do
  let p ← loop starts (each item) fuel [] ()
  return p.1

section Expressions

variable (build : Build) (fuel : Nat) (term : Fueled Term)

def operation : Fueled (BinaryOp × Term) := do
  let op ← of (take operators operator?)
  let operand ← term
  return (op, operand)

def expression : Fueled Expression :=
  inRule .expression do
    let first ← term
    let rest ← repeated operators (operation term) fuel
    return .chain first rest

def enclosed (opening closing : Symbol) : Fueled Expression := do
  of (exactly (.symbol opening))
  let e ← expression fuel term
  of (exactly (.symbol closing))
  return e

def nextExpression : Fueled Expression := do
  of (exactly (.symbol .comma))
  expression fuel term

def expressionList : Fueled (List Expression × Nat) :=
  inRule .expressionList (choose [.symbol .rightParen] (return ([], 0)) do
    let first ← expression fuel term
    let p ← loop [.symbol .comma] (counting build (nextExpression fuel term)) fuel [] 1
    return (first :: p.1, p.2))

def call (names : Names) (first : String) : Fueled (Callee × List Expression) := do
  let callee ← of (reading (callee names first))
  of (exactly (.symbol .leftParen))
  let p ← expressionList build fuel term
  of (exactly (.symbol .rightParen))
  let _ ← add build p.2 callee.receiver.length
  return (callee, p.1)

def termBehind (names : Names) : TermStart → Fueled Term
  | .group => do
    let inner ← expression fuel term
    of (exactly (.symbol .rightParen))
    return .group inner
  | .unary op => do
    let operand ← term
    return .unary op operand
  | .named x =>
    choose [.symbol .leftParen, .symbol .dot] (do
        let p ← call build fuel term names x
        return .call p.1 p.2) (do
        let v ← of (resolving names x)
        choose [.symbol .leftBracket] (do
          let index ← enclosed fuel term .leftBracket .rightBracket
          return .element v index) (return .variable v))
  | start => of (Parse.termBehind names start)

end Expressions

def term (build : Build) (names : Names) : Nat → Fueled Term
  | 0 => giveUp .spent
  | fuel + 1 => inRule .term do
      let start ← of (take TermStart.kinds TermStart.ofToken?)
      termBehind build fuel (term build names fuel) names start

section Statements

variable (build : Build) (names : Names) (fuel : Nat)

def letStatement : Fueled Statement :=
  inRule .letStatement do
    of (exactly (.keyword .let))
    let x ← of name
    let target ← of (resolving names x)
    choose [.symbol .leftBracket] (do
      let index ← enclosed fuel (term build names fuel) .leftBracket .rightBracket
      let value ← enclosed fuel (term build names fuel) .equals .semicolon
      return .store target index value) (do
      let value ← enclosed fuel (term build names fuel) .equals .semicolon
      return .assign target value)

def doStatement : Fueled Statement :=
  inRule .doStatement do
    of (exactly (.keyword .do))
    let x ← of name
    let p ← call build fuel (term build names fuel) names x
    of (exactly (.symbol .semicolon))
    return .do p.1 p.2

def returnStatement : Fueled Statement :=
  inRule .returnStatement do
    of (exactly (.keyword .return))
    choose [.symbol .semicolon] (do
      of (exactly (.symbol .semicolon))
      return .return none) (do
      let value ← expression fuel (term build names fuel)
      of (exactly (.symbol .semicolon))
      return .return (some value))

section Blocks

variable (statement : Fueled Statement)

def statements : Fueled (List Statement) :=
  inRule .statements (repeated statementStarts statement fuel)

def block : Fueled (List Statement) := do
  of (exactly (.symbol .leftBrace))
  let body ← statements fuel statement
  of (reading endBlock)
  return body

def ifStatement : Fueled Statement :=
  inRule .ifStatement do
    of (exactly (.keyword .if))
    let e ← enclosed fuel (term build names fuel) .leftParen .rightParen
    let yes ← block fuel statement
    choose [.keyword .else] (do
      of (exactly (.keyword .else))
      let no ← block fuel statement
      return .ifElse e yes no) (return .ifThen e yes)

def whileStatement : Fueled Statement :=
  inRule .whileStatement do
    of (exactly (.keyword .while))
    let e ← enclosed fuel (term build names fuel) .leftParen .rightParen
    let body ← block fuel statement
    return .while e body

end Blocks

def statement : Nat → Fueled Statement
  | 0 => giveUp .spent
  | fuel + 1 =>
    choose [.keyword .let] (letStatement build names fuel) <|
    choose [.keyword .if] (ifStatement build names fuel (statement fuel)) <|
    choose [.keyword .while] (whileStatement build names fuel (statement fuel)) <|
    choose [.keyword .do] (doStatement build names fuel) <|
    choose [.keyword .return] (returnStatement build names fuel) <|
    of (refuse (statementStarts ++ [.symbol .rightBrace]))

end Statements

section Classes

variable (build : Build) (fuel : Nat)

def declaration (kind : VariableKind) (scopes : Scopes) : Fueled (Declaration × Scopes) := do
  let type ← of (take typeKinds type?)
  let p ← of (reading (newName kind type scopes))
  let q ← loop [.symbol .comma] (fun scopes => of (reading (nextName kind type scopes))) fuel [] p.2
  of (exactly (.symbol .semicolon))
  return (⟨kind, type, p.1, q.1⟩, q.2)

def classVarDec (scopes : Scopes) : Fueled (Declaration × Scopes) :=
  inRule .classVarDec do
    let kind ← of (take [.keyword .static, .keyword .field] classVariable?)
    declaration fuel kind scopes

def varDec (scopes : Scopes) : Fueled (Declaration × Scopes) :=
  inRule .varDec do
    of (exactly (.keyword .var))
    declaration fuel .local scopes

def parameterList (scopes : Scopes) : Fueled (List Parameter × Scopes) :=
  inRule .parameterList (choose [.symbol .rightParen] (return ([], scopes)) do
    let p ← of (reading (parameter scopes))
    let q ← loop [.symbol .comma] (fun scopes => of (reading (nextParameter scopes))) fuel [] p.2
    return (p.1 :: q.1, q.2))

def subroutineBody (className : String) (scopes : Scopes) : Fueled (List Declaration × List Statement) :=
  inRule .subroutineBody do
    of (exactly (.symbol .leftBrace))
    let p ← loop [.keyword .var] (varDec fuel) fuel [] scopes
    let body ← statements fuel (statement build ⟨className, p.2⟩ fuel)
    of (reading endBlock)
    return (p.1, body)

def subroutine (className : String) (scopes : Scopes) : Fueled Subroutine :=
  inRule .subroutineDec do
    let kind ← of (take subroutineStarts subroutineKind?)
    let type ← of (take (typeKinds ++ [.keyword .void]) returnType?)
    let x ← of name
    let scopes ← of (reading (receiver kind className scopes.leaveSubroutine))
    of (exactly (.symbol .leftParen))
    let p ← parameterList fuel scopes
    of (exactly (.symbol .rightParen))
    let q ← subroutineBody build fuel className p.2
    return ⟨kind, type, x, p.1, q.1, q.2⟩

def classDec : Fueled Class :=
  inRule .class do
    of (exactly (.keyword .class))
    let x ← of name
    of (exactly (.symbol .leftBrace))
    let p ← loop [.keyword .static, .keyword .field] (classVarDec fuel) fuel [] .empty
    let subroutines ← repeated subroutineStarts (subroutine build fuel x p.2) fuel
    of (reading endClass)
    return ⟨x, p.1, subroutines⟩

def parse : Fueled Class := do
  let c ← classDec build fuel
  let _ ← of (take [.eof] fun t => if [TokenKind.eof].contains t.kind then some t else none)
  return c

end Classes

end Fueled

end Parse

end Jack
