import Jack.Proofs.Reading.Whole

namespace Jack

open Jack.Stream (handedOut)
open Parse (Parting)

/-- A run over the stream ends with the error that something else has been expected than the item with the
number `n`, which is the first not consumed. -/
structure SyntaxErrorAt (items : Array Item) (n : Nat) (expected : List TokenKind) (found : Lexeme) :
    Prop where
  handed : handedOut items n = .ok found
  error : ∀ recorded, compileItems recorded items = .error ⟨found.location, .unexpected expected found.token⟩
  pulled : pulled items = n + 1
  consumed : (consumed items).length = n

/-- The stream with another lexeme and other items from the item with the number `n` on. -/
def replaced (items : Array Item) (n : Nat) (x : Lexeme) (rest : List Item) : Array Item :=
  (items.toList.take n ++ .ok x :: rest).toArray

variable {items : Array Item} {n : Nat} {x : Lexeme}

theorem handedOut_replaced (hn : n ≤ items.size) (x : Lexeme) (rest : List Item) :
    handedOut (replaced items n x rest) n = .ok x := by
  have hl : (items.toList.take n).length = n := List.length_take_of_le hn
  simp [handedOut, replaced, hl]

theorem handedOut_replaced_of_lt (hn : n ≤ items.size) (x : Lexeme) (rest : List Item) {i : Nat}
    (hi : i < n) : handedOut (replaced items n x rest) i = handedOut items i := by
  have hl : (items.toList.take n).length = n := List.length_take_of_le hn
  have hs : items[i]? = some items[i] := Array.getElem?_eq_getElem (Nat.lt_of_lt_of_le hi hn)
  simp [handedOut, replaced, List.getElem?_append_left, hl, hi, hs]

theorem parting_replaced {found : Lexeme} (hn : n ≤ items.size) (hf : handedOut items n = .ok found)
    (x : Lexeme) (rest : List Item) : Parting items (replaced items n x rest) n found x where
  fork := .of_eq (fun _ => trivial) fun _ hi => handedOut_replaced_of_lt hn x rest hi
  left := hf
  right := handedOut_replaced hn x rest

theorem exists_window_replaced {w : Window} (h : Window.ofItems items = .ok w) (hn : n ≤ items.size)
    (x : Lexeme) (rest : List Item) : ∃ v, Window.ofItems (replaced items n x rest) = .ok v := by
  have h₀ : ∃ y, handedOut (replaced items n x rest) 0 = .ok y := by
    cases n with
    | zero => exact ⟨x, handedOut_replaced hn x rest⟩
    | succ n =>
      obtain ⟨y, hy, -⟩ := Window.ofItems_eq_ok_iff.mp h
      exact ⟨y, (handedOut_replaced_of_lt hn x rest (Nat.succ_pos n)).trans hy⟩
  obtain ⟨y, hy⟩ := h₀
  exact ⟨_, Window.ofItems_eq_ok_iff.mpr ⟨y, hy, rfl⟩⟩

theorem pulled_replaced {expected : List TokenKind} {found : Lexeme} (hn : n ≤ items.size)
    (h : SyntaxErrorAt items n expected found) (hx : x.token.kind ∈ expected) (rest : List Item) :
    n + 1 < pulled (replaced items n x rest) := by
  have herr := h.error true
  cases hw : Window.ofItems items with
  | error e =>
    have h₀ := Stream.handedOut_eq_error_iff.mpr (Window.ofItems_eq_error_iff.mp hw)
    have hn : n = 0 := by
      have hp := h.pulled
      rw [pulled_of_error hw] at hp
      omega
    subst hn
    cases h₀.symm.trans h.handed
  | ok w =>
    obtain ⟨v, hv⟩ := exists_window_replaced hw hn x rest
    obtain ⟨s, hs, he, hp⟩ := exists_stop hw herr
    have hr : Parse.Refuses n expected (parse w.startRecord) :=
      ⟨s, found.token, hs, congrArg Error.fault he, hp.symm.trans h.pulled⟩
    rw [pulled_of_ok hv]
    exact (parse_steady (w.startRecord.remaining + v.startRecord.remaining + 1)).goes_on
      (parting_replaced hn h.handed x rest) (at_start hw true) (at_start hv true)
      (Nat.lt_succ_of_le (Nat.le_add_right _ _)) (Nat.lt_succ_of_le (Nat.le_add_left _ _))
      (Parse.Place.fits_anywhere _) (Parse.Place.fits_anywhere _) hx hr

theorem Stream.length_le_size {ts : List Token}
    (h : ∀ i t, ts[i]? = some t → ∃ x, handedOut items i = .ok x ∧ x.token = t) (heof : .eof ∉ ts) :
    ts.length ≤ items.size := by
  refine Nat.not_lt.mp fun hlt => heof ?_
  have ht : ts[items.size]? = some ts[items.size] := List.getElem?_eq_getElem hlt
  obtain ⟨x, hx, hxt⟩ := h _ _ ht
  cases (Stream.handedOut_of_le (Nat.le_refl items.size)).symm.trans hx
  exact List.mem_of_getElem? (hxt ▸ ht)

theorem HaltsAt.le_size {e : Error} {v : Window} {s : Parse.Stop} (h : HaltsAt items e v s) :
    (consumed items).length ≤ items.size :=
  Stream.length_le_size h.handed h.eof_not_mem

/-- A syntax error, unless it has come with the stream, tells the first item that is not consumed and is of
none of the kinds expected. With a token of any of these in its place, and whatever may follow, a syntax
error would be about a later one. -/
theorem syntax_error_tells_what_is_expected {recorded : Bool} {items : Array Item} {l : Location}
    {expected : List TokenKind} {found : Token}
    (h : compileItems recorded items = .error ⟨l, .unexpected expected found⟩) :
    items[pulled items - 1]? = some (.error ⟨l, .unexpected expected found⟩) ∨
      ∃ n ≤ items.size, SyntaxErrorAt items n expected ⟨found, l⟩ ∧ found.kind ∉ expected ∧
        ∀ x : Lexeme, x.token.kind ∈ expected → ∀ rest,
          n + 1 < pulled (replaced items n x rest) ∧
            ∀ expected' y, ¬ SyntaxErrorAt (replaced items n x rest) n expected' y := by
  obtain ⟨h₀, hp⟩ | ⟨v, s, hs⟩ := exists_halt h
  · rw [hp]
    exact .inl h₀
  · have hle := hs.le_size
    obtain ⟨hat, halt, he, hp, -, -⟩ := hs
    have ha := hat.asked_eq
    cases halt with
    | stream hi =>
      cases he
      exact .inl (getElem?_pulled hat hi hp)
    | rejected hf =>
      cases he
      exact hf.elim
    | unexpected hk =>
      cases he
      have herr : SyntaxErrorAt items (consumed items).length expected v.next :=
        ⟨hat.handedOut_next, fun recorded => compileItems_eq_error_iff.mpr
          (compileItems_eq_error_iff.mp h), hp.trans ha, rfl⟩
      refine .inr ⟨_, hle, herr, hk, fun x hx rest => ?_⟩
      have hlt := pulled_replaced hle herr hx rest
      exact ⟨hlt, fun expected' y hy => absurd hy.pulled (Nat.ne_of_gt hlt)⟩

theorem unopened_tells_what_is_expected :
    let items : Array Item :=
      #[.ok ⟨.keyword .class, ⟨1, 1⟩⟩, .ok ⟨.identifier "A", ⟨1, 7⟩⟩, .ok ⟨.symbol .semicolon, ⟨1, 9⟩⟩]
    compileItems false items = .error ⟨⟨1, 9⟩, .unexpected [.symbol .leftBrace] (.symbol .semicolon)⟩ ∧
      ∀ rest, 3 < pulled (replaced items 2 ⟨.symbol .leftBrace, ⟨1, 9⟩⟩ rest) := by
  intro items
  have herr : compileItems false items =
      .error ⟨⟨1, 9⟩, .unexpected [.symbol .leftBrace] (.symbol .semicolon)⟩ := rfl
  have hp : pulled items = 3 := rfl
  refine ⟨herr, ?_⟩
  obtain h | ⟨n, -, hn, -, h⟩ := syntax_error_tells_what_is_expected herr
  · rw [hp] at h
    cases h
  · cases hn.pulled.symm.trans hp
    exact fun rest => (h ⟨.symbol .leftBrace, ⟨1, 9⟩⟩ (List.mem_singleton_self _) rest).1

end Jack
