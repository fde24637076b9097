import Jack.Window

/-!
The steps that parsers are made of. A parser goes from a window to a result and a window with fewer
tokens left, or stops at the first error. The bound on what is left is part of the result, so that
parsers can call one another without their end being in doubt.
-/

namespace Jack.Parse

/-- An error, and the window where it came up. -/
structure Stop where
  error : Error
  window : Window

/-- A result, and the window behind what it was read from, with fewer than `n` tokens left. -/
structure Parsed (n : Nat) (α : Type) where
  value : α
  window : Window
  bound : window.remaining < n

abbrev Attempt := Except Stop

variable {α σ : Type} {n : Nat}

def Parsed.map {β : Type} (f : α → β) (p : Parsed n α) : Parsed n β :=
  ⟨f p.value, p.window, p.bound⟩

/-- Consumes the token ahead if `read` makes something of it, which it must not of the end of file. -/
def accept (expected : List TokenKind) (read : Token → Option α) (w : Window)
    (h : read .eof = none := by rfl) : Attempt (Parsed w.remaining α) :=
  match hw : Window.accept expected read w with
  | .ok a v => .ok ⟨a, v, Window.remaining_accept hw h⟩
  | .error e v => .error ⟨e, v⟩

def unexpected (expected : List TokenKind) (w : Window) : Attempt (Parsed n α) :=
  .error ⟨w.unexpectedNext expected, w⟩

/-- Finds fault with the lexeme consumed last. -/
def reject (fault : Fault) (w : Window) : Attempt (Parsed n α) :=
  .error ⟨⟨w.last.location, fault⟩, w⟩

def keyword (k : Keyword) (w : Window) : Attempt (Parsed w.remaining Unit) :=
  accept [.keyword k] (fun t => if t = .keyword k then some () else none) w (by simp)

def symbol (s : Symbol) (w : Window) : Attempt (Parsed w.remaining Unit) :=
  accept [.symbol s] (fun t => if t = .symbol s then some () else none) w (by simp)

def identifier (w : Window) : Attempt (Parsed w.remaining String) :=
  accept [.identifier] Token.name? w

def within (rule : Rule) (w : Window)
    (body : (v : Window) → v.remaining = w.remaining → Attempt (Parsed n α)) :
    Attempt (Parsed n α) := do
  let ⟨a, v, h⟩ ← body (w.enter rule) rfl
  return ⟨a, v.leave rule, h⟩

/-- Parses items as long as the token ahead may start one, and hands `s` on from item to item. The
items come behind those of `xs`, the latest of which is first. -/
def manyFrom (starts : List TokenKind) (n : Nat)
    (item : σ → (v : Window) → v.remaining < n → Attempt (Parsed v.remaining (α × σ)))
    (xs : List α) (s : σ) (w : Window) (h : w.remaining < n) : Attempt (Parsed n (List α × σ)) :=
  if w.nextIsAmong starts then do
    let ⟨(x, s), v, hv⟩ ← item s w h
    manyFrom starts n item (x :: xs) s v (Nat.lt_trans hv h)
  else
    .ok ⟨(xs.reverse, s), w, h⟩
termination_by w.remaining

def manyWith (starts : List TokenKind) (n : Nat)
    (item : σ → (v : Window) → v.remaining < n → Attempt (Parsed v.remaining (α × σ)))
    (s : σ) (w : Window) (h : w.remaining < n) : Attempt (Parsed n (List α × σ)) :=
  manyFrom starts n item [] s w h

def many (starts : List TokenKind) (n : Nat)
    (item : (v : Window) → v.remaining < n → Attempt (Parsed v.remaining α))
    (w : Window) (h : w.remaining < n) : Attempt (Parsed n (List α)) := do
  let p ← manyWith starts n (fun (_ : Unit) v hv => do
    let p ← item v hv
    return p.map (·, ())) () w h
  return p.map Prod.fst

end Jack.Parse
