import Jack.Window

namespace Jack

namespace Stream

def lexemes (items : List Item) : List Lexeme := items.filterMap Except.toOption

def error? : Item → Option Error
  | .ok _ => none
  | .error e => some e

def errors (items : List Item) : List Error := items.filterMap error?

theorem errors_append (xs ys : List Item) : errors (xs ++ ys) = errors xs ++ errors ys :=
  List.filterMap_append

theorem lexemes_append (xs ys : List Item) : lexemes (xs ++ ys) = lexemes xs ++ lexemes ys :=
  List.filterMap_append

theorem length_eq (items : List Item) :
    items.length = (lexemes items).length + (errors items).length := by
  induction items with
  | nil => rfl
  | cons i items ih =>
    rw [List.length_cons, ih]
    cases i with
    | ok x => exact Nat.add_right_comm _ _ 1
    | error e => exact Nat.add_assoc _ _ 1

def endPlace (items : Array Item) : Location :=
  ((lexemes items.toList).getLast?.map (·.location)).getD .origin

/-- The `k`th lexeme of the stream, counted from 1. In front of the first there is the end of a file at no
place, and behind the last there is one after the other. -/
def lexeme (items : Array Item) : Nat → Lexeme
  | 0 => ⟨.eof, .origin⟩
  | k + 1 => (lexemes items.toList)[k]?.getD ⟨.eof, endPlace items⟩

/-- What the stream answers to a request, counted from 0. -/
def handedOut (items : Array Item) (i : Nat) : Item :=
  items[i]?.getD (.ok ⟨.eof, endPlace items⟩)

variable {items : Array Item} {a k : Nat}

theorem handedOut_of_lt (h : a < items.size) : handedOut items a = items[a] := by
  rw [handedOut, Array.getElem?_eq_getElem h]
  rfl

theorem handedOut_of_le (h : items.size ≤ a) : handedOut items a = .ok ⟨.eof, endPlace items⟩ := by
  rw [handedOut, Array.getElem?_eq_none h]
  rfl

theorem handedOut_eq_error_iff {e : Error} : handedOut items a = .error e ↔ items[a]? = some (.error e) := by
  rw [handedOut]
  cases items[a]? with
  | none => simp
  | some i => simp

theorem errors_take_succ (items : Array Item) (a : Nat) :
    errors (items.toList.take (a + 1)) =
      errors (items.toList.take a) ++ (error? (handedOut items a)).toList := by
  by_cases h : a < items.size
  · rw [List.take_add_one, errors_append, handedOut_of_lt h, Array.getElem?_toList,
      Array.getElem?_eq_getElem h]
    cases items[a] <;> rfl
  · have hs : items.toList.length ≤ a := Nat.not_lt.mp h
    rw [handedOut_of_le hs, List.take_of_length_le hs, List.take_of_length_le (Nat.le_succ_of_le hs)]
    exact (List.append_nil _).symm

theorem lexemes_take_succ (items : Array Item) {x : Lexeme} (h : items[a]? = some (.ok x)) :
    lexemes (items.toList.take (a + 1)) = lexemes (items.toList.take a) ++ [x] := by
  rw [List.take_add_one, lexemes_append, Array.getElem?_toList, h]
  rfl

theorem length_lexemes_take (ha : a = k + (errors (items.toList.take a)).length) (hs : a ≤ items.size) :
    (lexemes (items.toList.take a)).length = k := by
  have hl := length_eq (items.toList.take a)
  rw [List.length_take_of_le hs] at hl
  omega

theorem length_lexemes_le (ha : a = k + (errors (items.toList.take a)).length) (hs : items.size ≤ a) :
    (lexemes items.toList).length ≤ k := by
  have hl := length_eq items.toList
  rw [List.take_of_length_le hs] at ha
  rw [Array.length_toList] at hl
  omega

theorem lexeme_of_handedOut {x : Lexeme} (h : handedOut items a = .ok x)
    (ha : a = k + (errors (items.toList.take a)).length) : lexeme items (k + 1) = x := by
  by_cases hs : a < items.size
  · have hx : items[a]? = some (.ok x) := by
      rw [Array.getElem?_eq_getElem hs, ← handedOut_of_lt hs, h]
    have hk := length_lexemes_take ha (Nat.le_of_lt hs)
    have hl : lexemes items.toList =
        lexemes (items.toList.take a) ++ [x] ++ lexemes (items.toList.drop (a + 1)) := by
      rw [← lexemes_take_succ items hx, ← lexemes_append, List.take_append_drop]
    simp [lexeme, hl, ← hk]
  · have hk := length_lexemes_le ha (Nat.not_lt.mp hs)
    rw [handedOut_of_le (Nat.not_lt.mp hs)] at h
    rw [lexeme, List.getElem?_eq_none hk]
    exact Except.ok.inj h

theorem location_lexeme (h : (lexemes items.toList).length ≤ k + 1) :
    (lexeme items (k + 1)).location = endPlace items := by
  rw [lexeme]
  by_cases hk : k < (lexemes items.toList).length
  · have hlast : (lexemes items.toList).getLast? = (lexemes items.toList)[k]? := by
      rw [List.getLast?_eq_getElem?]
      congr 1
      omega
    rw [endPlace, hlast, List.getElem?_eq_getElem hk]
    rfl
  · rw [List.getElem?_eq_none (Nat.not_lt.mp hk)]
    rfl

end Stream

open Jack.Stream

namespace Window

/-- Behind `k` moves: the window is at the `k`th lexeme, and all requests were answered by lexemes up to the
one ahead or by errors. -/
structure Shows (w : Window) (items : Array Item) (k : Nat) : Prop where
  items_eq : w.items = items
  last_eq : w.last = lexeme items k
  next_eq : w.next = lexeme items (k + 1)
  asked_eq : w.asked = k + 1 + (errors (items.toList.take w.asked)).length

def move (w : Window) (x : Lexeme) : Window := { w with asked := w.asked + 1, last := w.next, next := x }

@[simp] theorem last_move (w : Window) (x : Lexeme) : (w.move x).last = w.next := rfl

variable {w : Window} {items : Array Item} {k : Nat} {x : Lexeme} {e : Error}

theorem slide_of_ok (hx : w.incoming = .ok x) : slide w = .ok () (w.move x) := by
  simp [slide, hx, move]

theorem slide_of_error (he : w.incoming = .error e) :
    slide w = .error e { w with asked := w.asked + 1 } := by
  simp [slide, he]

theorem Shows.incoming_eq (h : w.Shows items k) : w.incoming = handedOut items w.asked := by
  rw [incoming, h.items_eq]
  by_cases ha : w.asked < items.size
  · rw [handedOut_of_lt ha, Array.getElem?_eq_getElem ha]
    rfl
  · have hs := Nat.not_lt.mp ha
    rw [handedOut_of_le hs, Array.getElem?_eq_none hs, h.next_eq,
      location_lexeme (length_lexemes_le h.asked_eq hs)]
    rfl

theorem Shows.note (h : w.Shows items k) (ev : Event) : (w.note ev).Shows items k :=
  ⟨h.items_eq, h.last_eq, h.next_eq, h.asked_eq⟩

theorem Shows.move (h : w.Shows items k) (hx : w.incoming = .ok x) : (w.move x).Shows items (k + 1) := by
  rw [h.incoming_eq] at hx
  refine ⟨h.items_eq, h.next_eq, (lexeme_of_handedOut hx h.asked_eq).symm, ?_⟩
  have ha := h.asked_eq
  simp only [Window.move, errors_take_succ, hx, error?, Option.toList_none, List.append_nil]
  omega

theorem Shows.drop (h : w.Shows items k) (he : w.incoming = .error e) :
    Shows { w with asked := w.asked + 1 } items k := by
  rw [h.incoming_eq] at he
  refine ⟨h.items_eq, h.last_eq, h.next_eq, ?_⟩
  have ha := h.asked_eq
  simp only [errors_take_succ, he, error?, Option.toList_some, List.length_append, List.length_singleton]
  omega

/-- Behind `k` moves that no error has delayed. -/
structure At (w : Window) (items : Array Item) (k : Nat) : Prop where
  shows : w.Shows items k
  asked_eq : w.asked = k + 1

namespace At

theorem handedOut_eq (h : w.At items k) {i : Nat} (hi : i ≤ k) :
    handedOut items i = .ok (lexeme items (i + 1)) := by
  have hnone : errors (items.toList.take w.asked) = [] := by
    have hs := h.shows.asked_eq
    rw [h.asked_eq] at hs ⊢
    exact List.eq_nil_of_length_eq_zero (by omega)
  have hle {j : Nat} (hj : j ≤ k + 1) : errors (items.toList.take j) = [] := by
    rw [h.asked_eq, ← List.take_append_drop j (items.toList.take (k + 1)), errors_append,
      List.take_take, Nat.min_eq_left hj] at hnone
    exact (List.append_eq_nil_iff.mp hnone).1
  cases hx : handedOut items i with
  | error e =>
    have he := errors_take_succ items i
    rw [hx, hle (Nat.succ_le_succ hi)] at he
    simp [error?] at he
  | ok x => rw [lexeme_of_handedOut hx (by rw [hle (Nat.le_succ_of_le hi)]; rfl)]

theorem handedOut_next (h : w.At items k) : handedOut items k = .ok w.next := by
  rw [h.handedOut_eq (Nat.le_refl k), h.shows.next_eq]

theorem handedOut_last (h : w.At items (k + 1)) : handedOut items k = .ok w.last := by
  rw [h.handedOut_eq (Nat.le_succ k), h.shows.last_eq]

theorem incoming_eq (h : w.At items k) : w.incoming = handedOut items (k + 1) := by
  rw [h.shows.incoming_eq, h.asked_eq]

theorem note (h : w.At items k) (ev : Event) : (w.note ev).At items k := ⟨h.shows.note ev, h.asked_eq⟩

theorem move (h : w.At items k) (hx : w.incoming = .ok x) : (w.move x).At items (k + 1) :=
  ⟨h.shows.move hx, congrArg (· + 1) h.asked_eq⟩

end At

theorem ofItems_eq (items : Array Item) :
    ofItems items =
      (handedOut items 0).map fun x => ⟨items, 1, ⟨.eof, .origin⟩, x, none⟩ := by
  have h₀ : items[0]?.getD (.ok ⟨.eof, .origin⟩) = handedOut items 0 := by
    by_cases hs : 0 < items.size
    · rw [handedOut_of_lt hs, Array.getElem?_eq_getElem hs]
      rfl
    · cases Array.eq_empty_of_size_eq_zero (Nat.eq_zero_of_not_pos hs)
      rfl
  simp only [ofItems, incoming, h₀]
  cases handedOut items 0 <;> rfl

theorem ofItems_eq_error_iff : ofItems items = .error e ↔ items[0]? = some (.error e) := by
  rw [← handedOut_eq_error_iff, ofItems_eq]
  cases handedOut items 0 <;> simp [Except.map]

theorem ofItems_eq_ok_iff :
    ofItems items = .ok w ↔ ∃ x, handedOut items 0 = .ok x ∧ w = ⟨items, 1, ⟨.eof, .origin⟩, x, none⟩ := by
  rw [ofItems_eq]
  cases handedOut items 0 <;> simp [Except.map, @eq_comm _ w]

theorem shows_ofItems (h : ofItems items = .ok w) : w.Shows items 0 := by
  obtain ⟨x, h₀, rfl⟩ := ofItems_eq_ok_iff.mp h
  refine ⟨rfl, rfl, (lexeme_of_handedOut h₀ rfl).symm, ?_⟩
  rw [errors_take_succ, h₀]
  rfl

theorem asked_ofItems (h : ofItems items = .ok w) : w.asked = 1 := by
  obtain ⟨x, -, rfl⟩ := ofItems_eq_ok_iff.mp h
  rfl

theorem at_ofItems (h : ofItems items = .ok w) : w.At items 0 := ⟨shows_ofItems h, asked_ofItems h⟩

end Window

end Jack
