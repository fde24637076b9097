import Jack.Proofs.Violations

namespace Jack

open Lexeme (isWordChar isWordStart scan)
open Grammar (Declares)

/-- A token that a text can hold. -/
def Token.Writable : Token → Prop
  | .symbol _ | .keyword _ => True
  | .identifier name =>
    (∃ c cs, name.toList = c :: cs ∧ isWordStart c ∧ ∀ d ∈ cs, isWordChar d) ∧ ∀ k : Keyword, k.text ≠ name
  | .integer n => n ≤ maxConstant
  | .string text =>
    text.length ≤ maxConstant ∧ ∀ c ∈ text.toList, c.toNat < 128 ∧ c ≠ '\n' ∧ c ≠ '"'
  | .eof => False

namespace Lexeme

variable {c : Char} {text : List Char} {t : Token} {before cs : List Char} {items : Array Item} {x : Lexeme}

theorem isStringChar_iff : isStringChar c ↔ c.toNat < 128 ∧ c ≠ '\n' ∧ c ≠ '"' := by
  simp [isStringChar, and_assoc]

theorem Spells.writable (h : Spells text t) : t.Writable := by
  cases h with
  | symbol | keyword => trivial
  | identifier hc hcs hk =>
    refine ⟨⟨_, _, String.toList_ofList .., hc, hcs⟩, fun k he => hk k ?_⟩
    rw [he, String.toList_ofList]
  | integer hd hn => exact hn
  | string hcs hn =>
    refine ⟨by rwa [String.length_ofList], fun c hc => isStringChar_iff.mp (hcs c ?_)⟩
    rwa [String.toList_ofList] at hc

theorem spells_toString {n : Nat} (h : n ≤ maxConstant) : Spells (toString n).toList (.integer n) := by
  rw [Nat.toString_eq_repr, Nat.toList_repr]
  have hd : ∀ d ∈ Nat.toDigits 10 n, d.isDigit := fun _ => Nat.isDigit_of_mem_toDigits (by decide) (by decide)
  have hn : Nat.ofDigitChars 10 (Nat.toDigits 10 n) 0 = n := Nat.ofDigitChars_ten_toDigits
  cases hs : Nat.toDigits 10 n with
  | nil => exact absurd hs Nat.toDigits_ne_nil
  | cons d ds =>
    rw [hs] at hd hn
    have := Spells.integer hd (hn.symm ▸ h)
    rwa [hn] at this

theorem spells_quoted {text : String} (hcs : ∀ c ∈ text.toList, isStringChar c) (hn : text.length ≤ maxConstant) :
    Spells ("\"" ++ text ++ "\"").toList (.string text) := by
  have := Spells.string hcs hn
  rw [String.ofList_toList] at this
  rwa [String.toList_append, String.toList_append]

/-- A lexeme is scanned where it is all of the text. -/
theorem scan_of_spells {source : String} (h : Spells source.toList t) : scan source = #[.ok ⟨t, ⟨1, 1⟩⟩] := by
  have hs : Separate t [] := by cases t <;> simp [Separate]
  have hv : (Layout.next [] source.toList t (.last [])).Valid := ⟨.nil, h, hs, .closed .nil⟩
  have hx : (Layout.next [] source.toList t (.last [])).lexemes ⟨1, 0⟩ = [⟨t, ⟨1, 1⟩⟩] := (hv.placed_eq []).symm
  have := hv.scanFrom_text #[] ⟨1, 0⟩
  rw [hx] at this
  simpa [scan, Layout.text] using this

theorem Scanned.exists_spells (h : Scanned before cs items) (hx : .ok x ∈ items) : ∃ text, Spells text x.token := by
  have hplaced {a : Layout} (ha : a.Spelled) (hm : (.ok x : Item) ∈ (a.placed before).map Except.ok) :
      ∃ text, Spells text x.token := by
    obtain ⟨y, hy, he⟩ := List.mem_map.mp hm
    cases he
    exact ha.exists_spells hy
  cases h with
  | whole a valid => exact hplaced valid.spelled (List.mem_toArray.mp hx)
  | @broken a tail e more valid _ breaks =>
    obtain hm | hm := List.mem_append.mp (List.mem_toArray.mp hx)
    · exact hplaced valid.spelled hm
    · exact breaks.exists_spells (by simpa using hm)

theorem Scanned.exists_lexical (h : Scanned before cs items) {e : Error} (he : .error e ∈ items) :
    ∃ f, e.fault = .lexical f := by
  have hplaced {a : Layout} : (.error e : Item) ∉ (a.placed before).map Except.ok := fun hm => by
    obtain ⟨y, -, he⟩ := List.mem_map.mp hm
    cases he
  cases h with
  | whole a => exact (hplaced (List.mem_toArray.mp he)).elim
  | @broken a tail e' more _ _ breaks =>
    obtain hm | hm := List.mem_append.mp (List.mem_toArray.mp he)
    · exact (hplaced hm).elim
    · exact breaks.exists_lexical hm

theorem writable_of_mem_scan {source : String} (h : .ok x ∈ scan source) : x.token.Writable := by
  obtain ⟨text, ht⟩ := (scanned_scan source).exists_spells h
  exact ht.writable

theorem exists_lexical_of_mem_scan {source : String} {e : Error} (h : .error e ∈ scan source) :
    ∃ f, e.fault = .lexical f :=
  (scanned_scan source).exists_lexical h

end Lexeme

theorem Stream.mem_of_handedOut {items : Array Item} {k : Nat} {x : Lexeme} (h : handedOut items k = .ok x)
    (hx : x.token ≠ .eof) : .ok x ∈ items := by
  by_cases hk : k < items.size
  · rw [handedOut_of_lt hk] at h
    exact h ▸ Array.getElem_mem hk
  · rw [handedOut_of_le (Nat.le_of_not_lt hk)] at h
    cases h
    exact (hx rfl).elim

theorem exists_mem_of_consumed {items : Array Item} {recorded : Bool} {e : Error} {t : Token}
    (h : compileItems recorded items = .error e) (hi : .error e ∉ items) (ht : t ∈ consumed items) :
    ∃ x, .ok x ∈ items ∧ x.token = t := by
  obtain ⟨h₀, -⟩ | ⟨v, s, hat⟩ := exists_halt h
  · exact (hi (Array.mem_of_getElem? h₀)).elim
  · obtain ⟨k, hk⟩ := List.getElem?_of_mem ht
    obtain ⟨x, hx, rfl⟩ := hat.handed k t hk
    exact ⟨x, Stream.mem_of_handedOut hx fun he => hat.eof_not_mem (he ▸ ht), rfl⟩

/-- The tokens of a text are in range, so that the only thing ever to be out of range is a declaration that finds no
slot left; and of the constants, all those that are in range can be written. -/
theorem scanner_keeps_limits (source : String) :
    (∀ x, .ok x ∈ scan source → x.token.Writable) ∧
    (∀ (recorded : Bool) (e : Error) (f : RangeFault), compile recorded source = .error e →
      e.fault = .outOfRange f → ∃ (before : List Entry) (entry : Entry),
        Declares (consumed (scan source)) before entry ∧ entry.name ∉ before.map (·.name) ∧
          before.countP (·.kind = entry.kind) = maxSlots ∧ f = .slotsUsedUp entry.kind entry.name) ∧
    (∀ n, ¬ maxConstant < n → scan (toString n) = #[.ok ⟨.integer n, ⟨1, 1⟩⟩]) ∧
    ∀ text : String, Parse.stringFault? text = none → '\n' ∉ text.toList → '"' ∉ text.toList →
      scan ("\"" ++ text ++ "\"") = #[.ok ⟨.string text, ⟨1, 1⟩⟩] := by
  refine ⟨fun _ => Lexeme.writable_of_mem_scan, fun recorded e f h hf => ?_,
    fun n hn => ?_, fun text ht hn hq => ?_⟩
  · have hlexical : .error e ∉ scan source := fun he => by
      obtain ⟨g, hg⟩ := Lexeme.exists_lexical_of_mem_scan he
      cases hg.symm.trans hf
    obtain ⟨next, -, hv⟩ := exists_violation h (fun he => hlexical (Array.mem_of_getElem? he)) (by simp [hf])
    have hwritable {t : Token} (ht : (consumed (scan source)).getLast? = some t) : t.Writable := by
      obtain ⟨x, hx, rfl⟩ := exists_mem_of_consumed h hlexical (List.mem_of_getLast? ht)
      exact Lexeme.writable_of_mem_scan hx
    rw [hf] at hv
    cases hv with
    | slotsUsedUp declares fresh full => exact ⟨_, _, declares, fresh, full, rfl⟩
    | largeInteger last large => exact absurd (hwritable last) (Nat.not_le_of_lt large)
    | longString last long => exact absurd (hwritable last).1 (Nat.not_le_of_lt long)
    | foreignCharacter last mem foreign => exact absurd ((hwritable last).2 _ mem).1 (Nat.not_lt_of_le foreign)
  · exact Lexeme.scan_of_spells (Lexeme.spells_toString (Nat.le_of_not_lt hn))
  · obtain ⟨hascii, hlength⟩ := Grammar.stringFault?_eq_none_iff.mp ht
    refine Lexeme.scan_of_spells (Lexeme.spells_quoted (fun c hc => ?_) hlength)
    exact Lexeme.isStringChar_iff.mpr
      ⟨hascii c hc, ne_of_mem_of_not_mem hc hn, ne_of_mem_of_not_mem hc hq⟩

end Jack
