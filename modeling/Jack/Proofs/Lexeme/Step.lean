import Jack.Proofs.Lexeme.Grammar
import Jack.Text
import Mathlib.Data.List.TakeWhile

namespace Jack

theorem Keyword.ofText?_text (k : Keyword) : ofText? k.text = some k := by
  cases k <;> decide

theorem Keyword.ofText?_eq_none_iff {text : String} :
    ofText? text = none ↔ ∀ k : Keyword, k.text ≠ text := by
  have hall (k : Keyword) : k ∈ all := by cases k <;> decide
  simp [ofText?, hall]

theorem Keyword.eq_text_of_ofText? {text : String} {k : Keyword} (h : ofText? text = some k) :
    k.text = text := by
  simpa using List.find?_some h

theorem Symbol.ofChar?_char (s : Symbol) : ofChar? s.char = some s := by
  cases s <;> decide

theorem Symbol.eq_char_of_ofChar? {c : Char} {s : Symbol} (h : ofChar? c = some s) : s.char = c := by
  simpa using List.find?_some h

namespace Lexeme

theorem le_ofDigitChars (ds : List Char) (m : Nat) : m ≤ Nat.ofDigitChars 10 ds m := by
  induction ds generalizing m with
  | nil => exact Nat.le_refl m
  | cons d ds ih =>
    rw [Nat.ofDigitChars_cons]
    exact Nat.le_trans (by omega) (ih _)

/-- Giving up as soon as the number gets too large is to give up a number that is too large. -/
theorem number?_eq (ds : List Char) :
    number? ds =
      if Nat.ofDigitChars 10 ds 0 ≤ maxConstant then some (Nat.ofDigitChars 10 ds 0) else none := by
  have hm : ∀ m ≤ maxConstant, ds.foldlM (fun n d =>
      if 10 * n + (d.toNat - '0'.toNat) ≤ maxConstant then some (10 * n + (d.toNat - '0'.toNat))
      else none) m =
        if Nat.ofDigitChars 10 ds m ≤ maxConstant then some (Nat.ofDigitChars 10 ds m) else none := by
    induction ds with
    | nil =>
      intro m hm
      rw [Nat.ofDigitChars_nil, if_pos hm]
      rfl
    | cons d ds ih =>
      intro m hm
      rw [List.foldlM_cons, Nat.ofDigitChars_cons]
      by_cases hd : 10 * m + (d.toNat - '0'.toNat) ≤ maxConstant
      · rw [if_pos hd]
        exact ih _ hd
      · have := le_ofDigitChars ds (10 * m + (d.toNat - '0'.toNat))
        rw [if_neg hd, if_neg (by omega)]
        rfl
  exact hm 0 (Nat.zero_le _)

theorem integerItem_eq (start : Location) (ds : List Char) :
    integerItem start ds =
      if Nat.ofDigitChars 10 ds 0 ≤ maxConstant then .ok ⟨.integer (Nat.ofDigitChars 10 ds 0), start⟩
      else .error ⟨start, .lexical (.largeInteger (String.ofList ds))⟩ := by
  rw [integerItem, number?_eq]
  by_cases hn : Nat.ofDigitChars 10 ds 0 ≤ maxConstant
  · rw [if_pos hn, if_pos hn]
  · rw [if_neg hn, if_neg hn]

section Characters

variable {c : Char}

theorem isBlank_of_isWordStart (h : isWordStart c) : isBlank c = false := by
  refine Bool.eq_false_iff.mpr fun hb => ?_
  simp only [isBlank, Bool.or_eq_true, decide_eq_true_eq] at hb
  obtain ((rfl | rfl) | rfl) | rfl := hb <;> exact absurd h (by decide)

theorem isBlank_of_isDigit (h : c.isDigit) : isBlank c = false := by
  refine Bool.eq_false_iff.mpr fun hb => ?_
  simp only [isBlank, Bool.or_eq_true, decide_eq_true_eq] at hb
  obtain ((rfl | rfl) | rfl) | rfl := hb <;> exact absurd h (by decide)

theorem isWordStart_of_isDigit (h : c.isDigit) : isWordStart c = false := by
  refine Bool.eq_false_iff.mpr fun hw => ?_
  have hd : c.val ≤ '9'.val := of_decide_eq_true (Bool.and_eq_true_iff.mp h).2
  obtain hw | hw := Bool.or_eq_true_iff.mp hw
  · obtain hw | hw := Bool.or_eq_true_iff.mp hw
    · have hu : 'A'.val ≤ c.val := (of_decide_eq_true hw).1
      exact absurd (UInt32.le_trans hu hd) (by decide)
    · have hl : 'a'.val ≤ c.val := of_decide_eq_true (Bool.and_eq_true_iff.mp hw).1
      exact absurd (UInt32.le_trans hl hd) (by decide)
  · cases of_decide_eq_true hw
    exact absurd h (by decide)

theorem isWordChar_of_isDigit (h : c.isDigit) : isWordChar c := by
  simp [isWordChar, Char.isAlphanum, h]

theorem plain_char (s : Symbol) :
    isBlank s.char = false ∧ isWordStart s.char = false ∧ s.char.isDigit = false ∧ s.char ≠ '"' := by
  cases s <;> decide

end Characters

section Blanks

variable {c : Char} {start last : Location} {cs tl rest body : List Char}

theorem step_blank (h : isBlank c) : step c start cs = .gap start cs (Nat.lt_succ_self _) := by
  unfold step
  rw [if_pos h]

theorem newline_notMem_takeWhile (cs : List Char) : '\n' ∉ cs.takeWhile (· ≠ '\n') := fun h => by
  simpa using List.mem_takeWhile_imp h

theorem eq_newline_of_head?_dropWhile (cs : List Char) : ∀ d ∈ (cs.dropWhile (· ≠ '\n')).head?, d = '\n' :=
  fun d hd => by simpa using head?_dropWhile d hd

theorem step_lineComment (start : Location) (h : '\n' ∉ body) (hr : ∀ d ∈ rest.head?, d = '\n') :
    ∃ hlt, step '/' start ('/' :: body ++ rest) = .gap (start.after ('/' :: body)) rest hlt := by
  have hb : ∀ d ∈ body, decide (d ≠ '\n') = true := fun d hd => by
    simpa using ne_of_mem_of_not_mem hd h
  have hr' : ∀ d ∈ rest.head?, decide (d ≠ '\n') = false := fun d hd => by simpa using hr d hd
  have hs : step '/' start ('/' :: body ++ rest) =
      (readLineComment (start.step '/') (body ++ rest)).weaken := rfl
  refine ⟨by simp only [List.length_append, List.length_cons]; omega, ?_⟩
  simp only [hs, readLineComment, takeWhile_append_of_head hb hr', dropWhile_append_of_head hb hr',
    Step.weaken, Location.after_cons]

/-- A block comment is read up to the first `*/`. -/
theorem afterBlockComment_eq_some_iff {l : Location} :
    afterBlockComment last cs = some (l, rest) ↔
      ∃ body, ¬ ['*', '/'] <:+: body ∧ cs = body ++ '*' :: '/' :: rest ∧
        l = last.after (body ++ ['*', '/']) := by
  fun_induction afterBlockComment last cs with
  | case1 => simp
  | case2 last cs =>
    constructor
    · intro h
      cases h
      exact ⟨[], by simp, rfl, rfl⟩
    · rintro ⟨body, hb, he, rfl⟩
      cases body with
      | nil =>
        cases he
        rfl
      | cons c body =>
        cases body with
        | nil => cases he
        | cons d body =>
          cases he
          exact absurd (List.prefix_append ['*', '/'] body).isInfix hb
  | case3 last c cs hc ih =>
    rw [ih]
    constructor
    · rintro ⟨body, hb, rfl, rfl⟩
      refine ⟨c :: body, ?_, rfl, rfl⟩
      rw [List.infix_cons_iff, not_or]
      refine ⟨?_, hb⟩
      rintro ⟨after, he⟩
      cases he
      exact hc _ rfl rfl
    · rintro ⟨body, hb, he, rfl⟩
      cases body with
      | nil =>
        cases he
        exact (hc rest rfl rfl).elim
      | cons d body =>
        cases he
        exact ⟨body, fun hi => hb (hi.trans (List.suffix_cons _ _).isInfix), rfl, rfl⟩

theorem step_blockComment (start : Location) (rest : List Char) (h : ¬ ['*', '/'] <:+: body) :
    ∃ hlt, step '/' start ('*' :: body ++ ['*', '/'] ++ rest) =
      .gap (start.after ('*' :: body ++ ['*', '/'])) rest hlt := by
  have hs : step '/' start ('*' :: body ++ ['*', '/'] ++ rest) =
      (readBlockComment start (start.step '*') (body ++ ['*', '/'] ++ rest)).weaken := rfl
  have ha : afterBlockComment (start.step '*') (body ++ ['*', '/'] ++ rest) =
      some ((start.step '*').after (body ++ ['*', '/']), rest) :=
    afterBlockComment_eq_some_iff.mpr ⟨body, h, by simp, rfl⟩
  refine ⟨by simp only [List.length_append, List.length_cons]; omega, ?_⟩
  rw [hs, readBlockComment]
  split
  next l r he =>
    cases he.symm.trans ha
    rfl
  next he => cases he.symm.trans ha

end Blanks

section Lexemes

variable {c : Char} {start : Location} {cs tl rest text : List Char} {t : Token}

theorem step_word (hc : isWordStart c) (ht : ∀ d ∈ tl, isWordChar d)
    (hr : ∀ d ∈ rest.head?, isWordChar d = false) :
    ∃ hlt, step c start (tl ++ rest) =
      .lexeme ⟨.ofWord (String.ofList (c :: tl)), start⟩ (start.after tl) rest hlt := by
  refine ⟨by rw [List.length_append]; omega, ?_⟩
  unfold step
  simp only [isBlank_of_isWordStart hc, Bool.false_eq_true, if_false, hc, if_true, readWord,
    takeWhile_append_of_head ht hr, dropWhile_append_of_head ht hr]

theorem isWordChar_of_mem_text (k : Keyword) : ∀ c ∈ k.text.toList, isWordChar c :=
  List.all_eq_true.mp (by cases k <;> decide)

theorem isWordStart_of_head_text (k : Keyword) : ∀ c ∈ k.text.toList.head?, isWordStart c := by
  intro c hc
  have h : k.text.toList.head?.all isWordStart = true := by cases k <;> decide
  rwa [Option.mem_def.mp hc] at h

theorem step_integer (hd : ∀ d ∈ c :: tl, d.isDigit)
    (hn : Nat.ofDigitChars 10 (c :: tl) 0 ≤ maxConstant)
    (hr : ∀ d ∈ rest.head?, isWordChar d = false) :
    ∃ hlt, step c start (tl ++ rest) =
      .lexeme ⟨.integer (Nat.ofDigitChars 10 (c :: tl) 0), start⟩ (start.after tl) rest hlt := by
  obtain ⟨hc, ht⟩ := List.forall_mem_cons.mp hd
  have hr' : ∀ d ∈ rest.head?, d.isDigit = false := fun d hm =>
    Bool.eq_false_iff.mpr fun hdd => by simpa [isWordChar_of_isDigit hdd] using hr d hm
  have hw : rest.head?.filter isWordChar = none := by
    rw [Option.filter_eq_none_iff]
    exact fun d hm => by simpa using hr d hm
  refine ⟨by rw [List.length_append]; omega, ?_⟩
  unfold step
  simp only [isBlank_of_isDigit hc, isWordStart_of_isDigit hc, Bool.false_eq_true, if_false, hc,
    if_true, readInteger, takeWhile_append_of_head ht hr', dropWhile_append_of_head ht hr', hw,
    integerItem_eq, hn]

theorem step_string (hb : ∀ d ∈ tl, isStringChar d) (hn : tl.length ≤ maxConstant) :
    ∃ hlt, step '"' start (tl ++ ['"'] ++ rest) =
      .lexeme ⟨.string (String.ofList tl), start⟩ (start.after (tl ++ ['"'])) rest hlt := by
  have hq : ∀ d ∈ (['"'] ++ rest).head?, isStringChar d = false := by
    rintro d ⟨⟩
    decide
  have ht : (tl ++ ['"'] ++ rest).takeWhile isStringChar = tl := by
    rw [List.append_assoc, takeWhile_append_of_head hb hq]
  have hd : (tl ++ ['"'] ++ rest).dropWhile isStringChar = '"' :: rest := by
    rw [List.append_assoc, dropWhile_append_of_head hb hq]
    rfl
  have hs : step '"' start (tl ++ ['"'] ++ rest) = readString start (tl ++ ['"'] ++ rest) := rfl
  refine ⟨by simp only [List.length_append, List.length_cons]; omega, ?_⟩
  rw [hs, readString]
  split
  next h => cases h.symm.trans hd
  next c cs h =>
    cases h.symm.trans hd
    simp only [if_true, ht, Nat.not_lt_of_le hn, if_false, Location.after_append, Location.after_cons,
      Location.after_nil]

theorem step_eq_readSymbol (hb : isBlank c = false) (hw : isWordStart c = false)
    (hd : c.isDigit = false) (hq : c ≠ '"')
    (hs : c = '/' → ∀ d ∈ cs.head?, d ≠ '/' ∧ d ≠ '*') :
    step c start cs = readSymbol c start cs := by
  unfold step
  simp only [hb, hw, hd, hq, Bool.false_eq_true, if_false]
  split
  next => exact absurd rfl (hs rfl _ rfl).1
  next => exact absurd rfl (hs rfl _ rfl).2
  next => rfl

theorem step_symbol {s : Symbol} (hs : Separate (.symbol s) rest) :
    step s.char start rest = .lexeme ⟨.symbol s, start⟩ start rest (Nat.lt_succ_self _) := by
  obtain ⟨hb, hw, hd, hq⟩ := plain_char s
  have hc : s.char = '/' → s = .slash := by cases s <;> decide
  rw [step_eq_readSymbol hb hw hd hq fun h => hs (hc h)]
  unfold readSymbol
  rw [Symbol.ofChar?_char]

/-- A lexeme that is separate from what follows is read just so. -/
theorem step_of_spells (start : Location) (h : Spells (c :: tl) t) (hs : Separate t rest) :
    ∃ hlt, step c start (tl ++ rest) = .lexeme ⟨t, start⟩ (start.after tl) rest hlt := by
  generalize ht : c :: tl = text at h
  cases h with
  | symbol s =>
    cases ht
    exact ⟨_, step_symbol hs⟩
  | keyword k =>
    have hk : Token.keyword k = .ofWord (String.ofList (c :: tl)) := by
      rw [ht, String.ofList_toList, Token.ofWord, Keyword.ofText?_text]
    rw [hk]
    refine step_word (isWordStart_of_head_text k c ?_) (fun d hd => isWordChar_of_mem_text k d ?_) hs
    · rw [← ht]
      rfl
    · rw [← ht]
      exact List.mem_cons_of_mem c hd
  | @identifier d ds hc hcs hk =>
    cases ht
    have hn : Token.identifier (String.ofList (c :: tl)) = .ofWord (String.ofList (c :: tl)) := by
      rw [Token.ofWord,
        Keyword.ofText?_eq_none_iff.mpr fun k he => hk k (by rw [he, String.toList_ofList])]
    rw [hn]
    exact step_word hc hcs hs
  | integer hd hn =>
    cases ht
    exact step_integer hd hn hs
  | string hcs hn =>
    cases ht
    exact step_string hcs hn

end Lexemes

end Lexeme

end Jack
