import Jack.Parse.Rules

namespace Jack.Parse

/-- A program that reads from a window. -/
abbrev Reading := StateT Window (Except Stop)

variable {α : Type} {n : Nat}

def outcome (x : Attempt (Parsed n α)) : Except Stop (α × Window) :=
  x.map fun p => (p.value, p.window)

/-- The program that a parser is. -/
def reading {size : Window → Nat} (p : (w : Window) → Attempt (Parsed (size w) α)) : Reading α :=
  fun w => outcome (p w)

namespace Reading

def take (expected : List TokenKind) (read : Token → Option α) : Reading α := fun w =>
  match Window.accept expected read w with
  | .ok a v => .ok (a, v)
  | .error e v => .error ⟨e, v⟩

def exactly (t : Token) : Reading Unit :=
  take [t.kind] fun u => if u = t then some () else none

def name : Reading String := take [.identifier] Token.name?

def mark (e : Event) : Reading Unit := fun w => .ok ((), w.note e)

def refuse (expected : List TokenKind) : Reading α := fun w => .error ⟨w.unexpectedNext expected, w⟩

def fail (fault : Fault) : Reading α := fun w => .error ⟨⟨w.last.location, fault⟩, w⟩

def choose (kinds : List TokenKind) (x y : Reading α) : Reading α := fun w =>
  if w.nextIsAmong kinds then x w else y w

def inRule (rule : Rule) (x : Reading α) : Reading α := do
  mark (.enter rule)
  let a ← x
  mark (.leave rule)
  return a

end Reading

open Reading

variable (names : Names)

def resolving (x : String) : Reading Variable :=
  match names.scopes.resolve? x with
  | some v => pure v
  | none => fail (.unresolved x)

def termBehind : TermStart → Reading Term
  | .integer value =>
    if maxConstant < value then fail (.outOfRange (.largeInteger value)) else pure (.integer value)
  | .string text =>
    match stringFault? text with
    | some fault => fail (.outOfRange fault)
    | none => pure (.string text)
  | .constant value => pure (.constant value)
  | .group => do
    let inner ← reading (expression names)
    exactly (.symbol .rightParen)
    return .group inner
  | .unary op => do
    let operand ← reading (term names)
    return .unary op operand
  | .named x =>
    choose [.symbol .leftParen, .symbol .dot] (do
        let p ← reading (call names x)
        return .call p.1 p.2) (do
        let v ← resolving names x
        choose [.symbol .leftBracket] (do
          let index ← reading (subscript names)
          return .element v index) (return .variable v))

end Jack.Parse
