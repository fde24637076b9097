import Jack.Fault

namespace Jack

namespace Lexeme

def isBlank (c : Char) : Bool :=
  c = ' ' || c = '\t' || c = '\r' || c = '\n'

def isWordChar (c : Char) : Bool :=
  c.isAlphanum || c = '_'

def isWordStart (c : Char) : Bool :=
  c.isAlpha || c = '_'

/-- What may stand between the quotes of a string: ASCII without newline and quote. -/
def isStringChar (c : Char) : Bool :=
  c.toNat < 128 && c != '\n' && c != '"'

/-- The number that the digits write, unless it is above `maxConstant`. Leading zeros do not count. -/
def number? (digits : List Char) : Option Nat :=
  digits.foldlM (fun n d =>
    let n := 10 * n + (d.toNat - '0'.toNat)
    if n ≤ maxConstant then some n else none) 0

/-- The outcome of reading at the front of `n` characters. `last` is the place of the last character
that was read, and `rest` is what follows it. -/
inductive Step (n : Nat) where
  | gap (last : Location) (rest : List Char) (shorter : rest.length < n)
  | lexeme (x : Lexeme) (last : Location) (rest : List Char) (shorter : rest.length < n)
  | stop (items : List Item)

theorem length_dropWhile_le (p : Char → Bool) (cs : List Char) :
    (cs.dropWhile p).length ≤ cs.length :=
  (List.dropWhile_suffix p).length_le

def readWord (c : Char) (start : Location) (cs : List Char) : Step (cs.length + 1) :=
  let tail := cs.takeWhile isWordChar
  .lexeme ⟨.ofWord (String.ofList (c :: tail)), start⟩ (start.after tail) (cs.dropWhile isWordChar)
    (Nat.lt_succ_of_le (length_dropWhile_le _ _))

def integerItem (start : Location) (digits : List Char) : Item :=
  match number? digits with
  | some n => .ok ⟨.integer n, start⟩
  | none => .error ⟨start, .lexical (.largeInteger (String.ofList digits))⟩

/-- A number that runs into a word is an error, after which the number still counts. -/
def readInteger (c : Char) (start : Location) (cs : List Char) : Step (cs.length + 1) :=
  let tail := cs.takeWhile Char.isDigit
  let last := start.after tail
  let rest := cs.dropWhile Char.isDigit
  let item := integerItem start (c :: tail)
  match rest.head?.filter isWordChar with
  | some d => .stop [.error ⟨last.step d, .lexical (.characterInInteger d)⟩, item]
  | none =>
    match item with
    | .ok x => .lexeme x last rest (Nat.lt_succ_of_le (length_dropWhile_le _ _))
    | .error e => .stop [.error e]

/-- Reads on behind the opening quote at `start`. A string that an error stands in is open to the end
of the text. -/
def readString (start : Location) (cs : List Char) : Step (cs.length + 1) :=
  let body := cs.takeWhile isStringChar
  let last := start.after body
  let isOpen : Item := .error ⟨start, .lexical .openString⟩
  match h : cs.dropWhile isStringChar with
  | [] => .stop [isOpen]
  | c :: rest =>
    if c = '"' then
      if maxConstant < body.length then
        .stop [.error ⟨start, .lexical .longString⟩, isOpen]
      else
        .lexeme ⟨.string (String.ofList body), start⟩ (last.step c) rest (by
          have := length_dropWhile_le isStringChar cs
          simp only [h, List.length_cons] at this
          omega)
    else if c = '\n' then
      .stop [.error ⟨last.step c, .lexical .newlineInString⟩, isOpen]
    else
      .stop [.error ⟨last.step c, .lexical (.foreignCharacter c)⟩, isOpen]

def readLineComment (last : Location) (cs : List Char) : Step (cs.length + 1) :=
  .gap (last.after (cs.takeWhile (· ≠ '\n'))) (cs.dropWhile (· ≠ '\n'))
    (Nat.lt_succ_of_le (length_dropWhile_le _ _))

def afterBlockComment (last : Location) : List Char → Option (Location × List Char)
  | [] => none
  | '*' :: '/' :: cs => some (last.after ['*', '/'], cs)
  | c :: cs => afterBlockComment (last.step c) cs

theorem length_afterBlockComment {last : Location} {cs : List Char} {l : Location}
    {rest : List Char} (h : afterBlockComment last cs = some (l, rest)) :
    rest.length < cs.length := by
  fun_induction afterBlockComment last cs with
  | case1 => simp at h
  | case2 last cs =>
    obtain ⟨_, rfl⟩ := Prod.mk.inj (Option.some.inj h)
    simp only [List.length_cons]
    omega
  | case3 last c cs _ ih => simpa using Nat.lt_succ_of_lt (ih h)

/-- Reads on behind the two characters, of which the first is at `start`, that open the comment. -/
def readBlockComment (start last : Location) (cs : List Char) : Step (cs.length + 1) :=
  match h : afterBlockComment last cs with
  | some (l, rest) => .gap l rest (Nat.lt_succ_of_lt (length_afterBlockComment h))
  | none => .stop [.error ⟨start, .lexical .openComment⟩]

def readSymbol (c : Char) (start : Location) (cs : List Char) : Step (cs.length + 1) :=
  match Symbol.ofChar? c with
  | some s => .lexeme ⟨.symbol s, start⟩ start cs (Nat.lt_succ_self _)
  | none => .stop [.error ⟨start, .lexical (.unexpectedCharacter c)⟩]

def Step.weaken {n : Nat} : Step n → Step (n + 1)
  | .gap last rest h => .gap last rest (Nat.lt_succ_of_lt h)
  | .lexeme x last rest h => .lexeme x last rest (Nat.lt_succ_of_lt h)
  | .stop items => .stop items

/-- Reads at `c`, which is at `start`: a blank, a comment or a lexeme. -/
def step (c : Char) (start : Location) (cs : List Char) : Step (cs.length + 1) :=
  if isBlank c then .gap start cs (Nat.lt_succ_self _)
  else if isWordStart c then readWord c start cs
  else if c.isDigit then readInteger c start cs
  else if c = '"' then readString start cs
  else match c, cs with
    | '/', '/' :: cs => (readLineComment (start.step '/') cs).weaken
    | '/', '*' :: cs => (readBlockComment start (start.step '*') cs).weaken
    | c, cs => readSymbol c start cs

def scanFrom (items : Array Item) (last : Location) : List Char → Array Item
  | [] => items
  | c :: cs =>
    match step c (last.step c) cs with
    | .gap last rest _ => scanFrom items last rest
    | .lexeme x last rest _ => scanFrom (items.push (.ok x)) last rest
    | .stop more => items ++ more.toArray
termination_by cs => cs.length

theorem scanFrom_eq_append (items : Array Item) (last : Location) (cs : List Char) :
    scanFrom items last cs = items ++ scanFrom #[] last cs := by
  induction h : cs.length using Nat.strongRecOn generalizing items last cs with
  | ind n ih =>
    cases cs with
    | nil => simp only [scanFrom, Array.append_empty]
    | cons c cs =>
      have ih := fun items l rest hlt => ih (List.length rest) (h ▸ hlt) items l rest rfl
      rw [scanFrom, scanFrom]
      split
      next l rest hlt _ => exact ih items l rest hlt
      next x l rest hlt _ =>
        rw [ih (items.push (.ok x)) l rest hlt, ih (#[].push (.ok x)) l rest hlt]
        simp only [Array.push_eq_append, Array.append_assoc, Array.empty_append]
      next more _ => rw [Array.empty_append]

def scan (source : String) : Array Item :=
  scanFrom #[] ⟨1, 0⟩ source.toList

end Lexeme

end Jack
