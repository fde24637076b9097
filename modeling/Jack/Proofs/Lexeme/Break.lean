import Jack.Proofs.Lexeme.Step
import Mathlib.Data.List.Induction

namespace Jack

namespace Location

def sinceNewline (before : List Char) : Nat :=
  (before.reverse.takeWhile (· ≠ '\n')).length

/-- The place of a character that comes behind `before`. -/
def behind (before : List Char) : Location :=
  ⟨1 + before.count '\n', 1 + sinceNewline before⟩

def newlineBehind (before : List Char) : Location :=
  ⟨1 + before.count '\n' + 1, 0⟩

variable {before cs : List Char} {c : Char}

theorem after_start (cs : List Char) : (⟨1, 0⟩ : Location).after cs = ⟨1 + cs.count '\n', sinceNewline cs⟩ := by
  induction cs using List.reverseRecOn with
  | nil => rfl
  | append_singleton cs c ih =>
    rw [after_append, ih, after_cons, after_nil, step]
    by_cases hc : c = '\n'
    · simp [hc, sinceNewline, Nat.add_assoc]
    · simp [hc, sinceNewline]

theorem step_after (hc : c ≠ '\n') : ((⟨1, 0⟩ : Location).after before).step c = behind before := by
  rw [after_start, step, if_neg hc, behind, Nat.add_comm (sinceNewline before)]

theorem step_after_newline : ((⟨1, 0⟩ : Location).after before).step '\n' = newlineBehind before := by
  rw [after_start, step, if_pos rfl, newlineBehind]

theorem after_behind (hc : c ≠ '\n') :
    (behind before).after cs = (⟨1, 0⟩ : Location).after (before ++ c :: cs) := by
  rw [after_append, after_cons, step_after hc]

end Location

/-- The fault is found in a string or a number of which there is something left to tell. -/
def Fault.Lingers : Fault → Prop
  | .lexical .newlineInString | .lexical (.foreignCharacter _) | .lexical .longString
  | .lexical (.characterInInteger _) => True
  | _ => False

namespace Lexeme

abbrev openString (start : Location) : Error := ⟨start, .lexical .openString⟩

/-- The text, which comes behind `before`, is one that the scanner gives up. It reports the error, and the items
`more` behind it. -/
inductive Breaks (before : List Char) : List Char → Error → List Item → Prop where
  | unexpectedCharacter {c : Char} {rest : List Char} (blank : isBlank c = false) (word : isWordStart c = false)
      (digit : c.isDigit = false) (quote : c ≠ '"') (symbol : ∀ s : Symbol, s.char ≠ c) :
      Breaks before (c :: rest) ⟨.behind before, .lexical (.unexpectedCharacter c)⟩ []
  | largeInteger {d : Char} {ds rest : List Char} (digits : ∀ e ∈ d :: ds, e.isDigit)
      (large : maxConstant < Nat.ofDigitChars 10 (d :: ds) 0) (ends : ∀ c ∈ rest.head?, isWordChar c = false) :
      Breaks before (d :: ds ++ rest)
        ⟨.behind before, .lexical (.largeInteger (String.ofList (d :: ds)))⟩ []
  /-- The number counts, all the same. -/
  | characterInInteger {d c : Char} {ds rest : List Char} (digits : ∀ e ∈ d :: ds, e.isDigit)
      (word : isWordChar c) (digit : c.isDigit = false) :
      Breaks before (d :: ds ++ c :: rest) ⟨.behind (before ++ d :: ds), .lexical (.characterInInteger c)⟩
        [if Nat.ofDigitChars 10 (d :: ds) 0 ≤ maxConstant then
          .ok ⟨.integer (Nat.ofDigitChars 10 (d :: ds) 0), .behind before⟩
        else .error ⟨.behind before, .lexical (.largeInteger (String.ofList (d :: ds)))⟩]
  | newlineInString {body rest : List Char} (chars : ∀ c ∈ body, isStringChar c) :
      Breaks before ('"' :: body ++ '\n' :: rest)
        ⟨.newlineBehind (before ++ '"' :: body), .lexical .newlineInString⟩ [.error (openString (.behind before))]
  | foreignCharacter {body rest : List Char} {c : Char} (chars : ∀ c ∈ body, isStringChar c)
      (foreign : 128 ≤ c.toNat) :
      Breaks before ('"' :: body ++ c :: rest)
        ⟨.behind (before ++ '"' :: body), .lexical (.foreignCharacter c)⟩ [.error (openString (.behind before))]
  | longString {body rest : List Char} (chars : ∀ c ∈ body, isStringChar c) (long : maxConstant < body.length) :
      Breaks before ('"' :: body ++ '"' :: rest)
        ⟨.behind before, .lexical .longString⟩ [.error (openString (.behind before))]
  | openString {body : List Char} (chars : ∀ c ∈ body, isStringChar c) :
      Breaks before ('"' :: body) (openString (.behind before)) []
  | openComment {body : List Char} (unclosed : ¬ ['*', '/'] <:+: body) :
      Breaks before ('/' :: '*' :: body) ⟨.behind before, .lexical .openComment⟩ []

namespace Breaks

variable {before text : List Char} {e : Error} {more : List Item}

theorem lingers_iff (h : Breaks before text e more) : e.fault.Lingers ↔ more ≠ [] := by
  cases h with
  | unexpectedCharacter | largeInteger | openString | openComment => exact iff_of_false id fun hm => hm rfl
  | characterInInteger | newlineInString | foreignCharacter | longString =>
    exact iff_of_true trivial (List.cons_ne_nil _ _)

theorem length_le (h : Breaks before text e more) : more.length ≤ 1 := by
  cases h <;> simp

theorem ne_nil (h : Breaks before text e more) : text ≠ [] := by
  cases h <;> simp

theorem exists_lexical (h : Breaks before text e more) {e' : Error} (he : .error e' ∈ Except.error e :: more) :
    ∃ f, e'.fault = .lexical f := by
  obtain he | hm := List.mem_cons.mp he
  · cases he
    cases h <;> exact ⟨_, rfl⟩
  · cases h with
    | unexpectedCharacter | largeInteger | openString | openComment => cases hm
    | newlineInString | foreignCharacter | longString =>
      cases List.mem_singleton.mp hm
      exact ⟨_, rfl⟩
    | characterInInteger =>
      have hm := List.mem_singleton.mp hm
      split at hm <;> cases hm
      exact ⟨_, rfl⟩

theorem exists_spells (h : Breaks before text e more) {x : Lexeme} (hx : .ok x ∈ more) :
    ∃ text, Spells text x.token := by
  cases h with
  | unexpectedCharacter | largeInteger | openString | openComment => cases hx
  | newlineInString | foreignCharacter | longString => cases List.mem_singleton.mp hx
  | characterInInteger digits =>
    have hx := List.mem_singleton.mp hx
    split at hx
    next hn =>
      cases hx
      exact ⟨_, .integer digits hn⟩
    next => cases hx

end Breaks

section Reading

variable {before cs : List Char} {c : Char} {start : Location}

/-- What the outcome of a step at `c`, which comes behind `before`, tells of the text. -/
inductive Reads (before : List Char) (c : Char) (start : Location) (cs : List Char) : Step (cs.length + 1) → Prop
  | filler {tl rest : List Char} {hlt} (h : Filler (c :: tl)) (he : cs = tl ++ rest) :
    Reads before c start cs (.gap (start.after tl) rest hlt)
  | lineComment {body rest : List Char} {hlt} (h : '\n' ∉ body) (hc : c = '/')
    (he : cs = '/' :: body ++ rest) (hr : ∀ d ∈ rest.head?, d = '\n') :
    Reads before c start cs (.gap (start.after ('/' :: body)) rest hlt)
  | lexeme {tl rest : List Char} {t : Token} {hlt} (h : Spells (c :: tl) t) (hs : Separate t rest)
    (he : cs = tl ++ rest) : Reads before c start cs (.lexeme ⟨t, start⟩ (start.after tl) rest hlt)
  | stop {e : Error} {more : List Item} (h : Breaks before (c :: cs) e more) :
    Reads before c start cs (.stop (.error e :: more))

theorem ne_newline_of_isDigit (h : c.isDigit) : c ≠ '\n' := by
  rintro rfl
  exact absurd h (by decide)

theorem ne_newline_of_isWordChar (h : isWordChar c) : c ≠ '\n' := by
  rintro rfl
  exact absurd h (by decide)

theorem spells_ofWord {tl : List Char} (hc : isWordStart c) (ht : ∀ d ∈ tl, isWordChar d) :
    Spells (c :: tl) (.ofWord (String.ofList (c :: tl))) := by
  rw [Token.ofWord]
  split
  next k hk =>
    have := Spells.keyword k
    rwa [Keyword.eq_text_of_ofText? hk, String.toList_ofList] at this
  next hk =>
    refine .identifier hc ht fun k he => ?_
    exact Keyword.ofText?_eq_none_iff.mp hk k (by rw [← he, String.ofList_toList])

theorem separate_ofWord {word : String} {rest : List Char}
    (h : ∀ d ∈ rest.head?, isWordChar d = false) : Separate (.ofWord word) rest := by
  rw [Token.ofWord]
  split <;> exact h

theorem reads_readWord (hc : isWordStart c) : Reads before c start cs (readWord c start cs) :=
  .lexeme (spells_ofWord hc fun _ => List.mem_takeWhile_imp) (separate_ofWord head?_dropWhile)
    List.takeWhile_append_dropWhile.symm

theorem reads_readInteger (hc : c.isDigit) :
    Reads before c (.behind before) cs (readInteger c (.behind before) cs) := by
  have hd : ∀ d ∈ c :: cs.takeWhile Char.isDigit, d.isDigit :=
    List.forall_mem_cons.mpr ⟨hc, fun _ => List.mem_takeWhile_imp⟩
  have hcs : c :: cs = c :: cs.takeWhile Char.isDigit ++ cs.dropWhile Char.isDigit := by simp
  simp only [readInteger, integerItem_eq]
  split
  next d hw =>
    obtain ⟨hhead, hword⟩ := Option.filter_eq_some_iff.mp hw
    obtain ⟨rest, hrest⟩ := List.head?_eq_some_iff.mp hhead
    rw [Location.after_behind (ne_newline_of_isDigit hc), Location.step_after (ne_newline_of_isWordChar hword)]
    refine .stop ?_
    rw [hcs, hrest]
    exact .characterInInteger hd hword (head?_dropWhile d hhead)
  next hw =>
    have hends : ∀ d ∈ (cs.dropWhile Char.isDigit).head?, isWordChar d = false := fun d hm =>
      Bool.eq_false_iff.mpr (Option.filter_eq_none_iff.mp hw d hm)
    by_cases hn : Nat.ofDigitChars 10 (c :: cs.takeWhile Char.isDigit) 0 ≤ maxConstant
    · simp only [hn, if_true]
      exact .lexeme (.integer hd hn) hends List.takeWhile_append_dropWhile.symm
    · simp only [hn, if_false]
      refine .stop ?_
      rw [hcs]
      exact .largeInteger hd (Nat.lt_of_not_le hn) hends

theorem reads_readString : Reads before '"' (.behind before) cs (readString (.behind before) cs) := by
  have hb : ∀ d ∈ cs.takeWhile isStringChar, isStringChar d := fun _ => List.mem_takeWhile_imp
  have hcs : '"' :: cs = '"' :: cs.takeWhile isStringChar ++ cs.dropWhile isStringChar := by simp
  have ha : (Location.behind before).after (cs.takeWhile isStringChar) =
      (⟨1, 0⟩ : Location).after (before ++ '"' :: cs.takeWhile isStringChar) :=
    Location.after_behind (by decide)
  rw [readString]
  split
  next he =>
    refine .stop ?_
    rw [hcs, he, List.append_nil]
    exact .openString hb
  next d rest he =>
    have hd : isStringChar d = false := head?_dropWhile d (by rw [he]; rfl)
    rw [he] at hcs
    split
    next hq =>
      subst hq
      split
      next hl =>
        refine .stop ?_
        rw [hcs]
        exact .longString hb hl
      next hl =>
        have hlast : ((Location.behind before).after (cs.takeWhile isStringChar)).step '"' =
            (Location.behind before).after (cs.takeWhile isStringChar ++ ['"']) := by
          rw [Location.after_append]
          rfl
        rw [hlast]
        exact .lexeme (.string hb (Nat.le_of_not_lt hl)) trivial (by simpa using hcs)
    next hq =>
      rw [ha]
      split
      next hn =>
        subst hn
        rw [Location.step_after_newline]
        refine .stop ?_
        rw [hcs]
        exact .newlineInString hb
      next hn =>
        rw [Location.step_after hn]
        refine .stop ?_
        rw [hcs]
        exact .foreignCharacter hb (by simpa [isStringChar, hq, hn] using hd)

theorem reads_readLineComment :
    Reads before '/' start ('/' :: cs) (readLineComment (start.step '/') cs).weaken :=
  .lineComment (newline_notMem_takeWhile cs) rfl (by simp) (eq_newline_of_head?_dropWhile cs)

theorem unclosed_of_afterBlockComment {last : Location} (h : afterBlockComment last cs = none) :
    ¬ ['*', '/'] <:+: cs := by
  fun_induction afterBlockComment last cs with
  | case1 => simp
  | case2 => cases h
  | case3 last c cs hc ih =>
    rw [List.infix_cons_iff, not_or]
    refine ⟨?_, ih h⟩
    rintro ⟨rest, he⟩
    cases he
    exact hc _ rfl rfl

theorem reads_readBlockComment :
    Reads before '/' (.behind before) ('*' :: cs)
      (readBlockComment (.behind before) ((Location.behind before).step '*') cs).weaken := by
  rw [readBlockComment]
  split
  next l rest h =>
    obtain ⟨body, hb, rfl, rfl⟩ := afterBlockComment_eq_some_iff.mp h
    exact .filler (.blockComment hb) (by simp)
  next h => exact .stop (.openComment (unclosed_of_afterBlockComment h))

theorem reads_readSymbol (hb : isBlank c = false) (hw : isWordStart c = false) (hd : c.isDigit = false)
    (hq : c ≠ '"') (hs : c = '/' → ∀ d ∈ cs.head?, d ≠ '/' ∧ d ≠ '*') :
    Reads before c (.behind before) cs (readSymbol c (.behind before) cs) := by
  rw [readSymbol]
  split
  next s h =>
    cases Symbol.eq_char_of_ofChar? h
    exact .lexeme (.symbol s) (fun he => hs (he ▸ rfl)) rfl
  next h =>
    refine .stop (.unexpectedCharacter hb hw hd hq fun s he => ?_)
    rw [← he, Symbol.ofChar?_char] at h
    cases h

theorem reads_step (before : List Char) (c : Char) (cs : List Char) :
    Reads before c (((⟨1, 0⟩ : Location).after before).step c) cs
      (step c (((⟨1, 0⟩ : Location).after before).step c) cs) := by
  unfold step
  split
  next hb => exact .filler (.blank hb) rfl
  next hb =>
    have hb : isBlank c = false := Bool.eq_false_iff.mpr hb
    have hn : c ≠ '\n' := by
      rintro rfl
      exact absurd hb (by decide)
    rw [Location.step_after hn]
    split
    next hw => exact reads_readWord hw
    next hw =>
      split
      next hd => exact reads_readInteger hd
      next hd =>
        split
        next hq =>
          subst hq
          exact reads_readString
        next hq =>
          split
          next => exact reads_readLineComment
          next => exact reads_readBlockComment
          next hl hs =>
            refine reads_readSymbol hb (Bool.eq_false_iff.mpr hw) (Bool.eq_false_iff.mpr hd) hq fun hc d hd => ?_
            obtain ⟨ds, rfl⟩ := List.head?_eq_some_iff.mp hd
            exact ⟨fun h => hl ds hc (by rw [h]), fun h => hs ds hc (by rw [h])⟩

end Reading

end Lexeme

end Jack
