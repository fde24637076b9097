import Jack.Event
import Jack.Fault

namespace Jack

structure Window where
  items : Array Item
  asked : Nat
  last : Lexeme
  next : Lexeme
  /-- The events so far, the latest first, if a record is kept. -/
  record : Option (List Event)

namespace Window

/-- What the stream hands out when asked again. Past its end, that is an end of file at the place of
the lexeme ahead. -/
def incoming (w : Window) : Item :=
  w.items[w.asked]?.getD (.ok ⟨.eof, w.next.location⟩)

def ofItems (items : Array Item) : Except Error Window :=
  let start : Window := ⟨items, 0, ⟨.eof, .origin⟩, ⟨.eof, .origin⟩, none⟩
  match start.incoming with
  | .ok x => .ok { start with asked := 1, next := x }
  | .error e => .error e

def nextIs (w : Window) (kind : TokenKind) : Bool :=
  w.next.token.kind = kind

def nextIsAmong (w : Window) (kinds : List TokenKind) : Bool :=
  kinds.contains w.next.token.kind

def unexpectedNext (w : Window) (expected : List TokenKind) : Error :=
  ⟨w.next.location, .unexpected expected w.next.token⟩

def unexpectedLast (w : Window) (expected : List TokenKind) : Error :=
  ⟨w.last.location, .unexpected expected w.last.token⟩

def note (w : Window) (e : Event) : Window :=
  { w with record := w.record.map (e :: ·) }

def enter (w : Window) (rule : Rule) : Window :=
  w.note (.enter rule)

def leave (w : Window) (rule : Rule) : Window :=
  w.note (.leave rule)

/-- From here on a record is kept. One that is kept already goes on. -/
def startRecord (w : Window) : Window :=
  { w with record := some (w.record.getD []) }

def events (w : Window) : List Event :=
  (w.record.getD []).reverse

def endRecord (w : Window) : Window :=
  { w with record := none }

/-- Moves the window by one lexeme. An error in the stream is reported and dropped, and the window
stays where it is. -/
def slide : EStateM Error Window Unit := fun w =>
  match w.incoming with
  | .ok x => .ok () { w with asked := w.asked + 1, last := w.next, next := x }
  | .error e => .error e { w with asked := w.asked + 1 }

/-- Consumes the lexeme ahead if `read` makes something of its token. Otherwise nothing is consumed,
and `expected` says what would have been. -/
def accept {α : Type} (expected : List TokenKind) (read : Token → Option α) :
    EStateM Error Window α := fun w =>
  match read w.next.token with
  | none => .error (w.unexpectedNext expected) w
  | some a =>
    match slide w with
    | .ok _ w => .ok a (w.note (.consumed w.last.token))
    | .error e w => .error e w

def consume (kinds : List TokenKind) : EStateM Error Window Token :=
  accept kinds fun t => if kinds.contains t.kind then some t else none

def consumeIdentifier : EStateM Error Window String :=
  accept [.identifier] Token.name?

/-- How many tokens are left at most: one ahead, unless that is the end of the file, and those that
the stream still holds. -/
def remaining (w : Window) : Nat :=
  w.items.size - w.asked + if w.next.token = .eof then 0 else 1

@[simp] theorem remaining_note (w : Window) (e : Event) :
    (w.note e).remaining = w.remaining := rfl

@[simp] theorem remaining_enter (w : Window) (rule : Rule) :
    (w.enter rule).remaining = w.remaining := rfl

@[simp] theorem remaining_leave (w : Window) (rule : Rule) :
    (w.leave rule).remaining = w.remaining := rfl

theorem remaining_slide {w v : Window} {u : Unit} (h : slide w = .ok u v)
    (hw : w.next.token ≠ .eof) : v.remaining < w.remaining := by
  unfold slide at h
  split at h
  next x hx =>
    obtain ⟨-, rfl⟩ := EStateM.Result.ok.inj h
    simp only [remaining, hw, if_false]
    by_cases hlt : w.asked < w.items.size
    · split <;> omega
    · have : x = ⟨.eof, w.next.location⟩ := by
        simpa [incoming, hlt, eq_comm] using hx
      simp only [this, if_true]
      omega
  next => cases h

theorem remaining_accept {α : Type} {expected : List TokenKind} {read : Token → Option α}
    {w v : Window} {a : α} (h : accept expected read w = .ok a v) (hread : read .eof = none) :
    v.remaining < w.remaining := by
  unfold accept at h
  split at h
  next => cases h
  next b hb =>
    have hw : w.next.token ≠ .eof := fun he => by simp [he, hread] at hb
    split at h
    next u v' hv =>
      obtain ⟨-, rfl⟩ := EStateM.Result.ok.inj h
      rw [remaining_note]
      exact remaining_slide hv hw
    next => cases h

end Window

end Jack
