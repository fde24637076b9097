import Jack.Proofs.Lexeme.Place

namespace Jack.Lexeme

/-- What the tokenizer is in the middle of. -/
inductive Mode where
  | between
  | string
  | integer
  | word
  | lineComment
  /-- At the asterisk that opens a block comment, which cannot close it as well. -/
  | blockOpen
  | block
  /-- Behind an asterisk that may close the block comment. -/
  | blockStar
deriving DecidableEq

structure Tokenizer where
  location : Location
  mode : Mode
  buffer : List Char
  start : Location

/-- What a character brings: a token, nothing yet, or an error. -/
abbrev Outcome := Except Error (Option Token)

namespace Tokenizer

def finishInteger (t : Tokenizer) : Outcome × Tokenizer :=
  (match number? t.buffer with
    | some n => .ok (some (.integer n))
    | none => .error ⟨t.start, .lexical (.largeInteger (String.ofList t.buffer))⟩,
    { t with mode := .between, buffer := [] })

def finishWord (t : Tokenizer) : Outcome × Tokenizer :=
  (.ok (some (.ofWord (String.ofList t.buffer))), { t with mode := .between, buffer := [] })

def inInteger (t : Tokenizer) (c : Char) (next : Option Char) : Outcome × Tokenizer :=
  let t := { t with buffer := t.buffer ++ [c] }
  match next with
  | none => t.finishInteger
  | some d =>
    if d.isDigit then (.ok none, t)
    else if isWordChar d then
      (.error ⟨⟨t.location.line, t.location.column + 1⟩, .lexical (.characterInInteger d)⟩, t)
    else t.finishInteger

def inWord (t : Tokenizer) (c : Char) (next : Option Char) : Outcome × Tokenizer :=
  let t := { t with buffer := t.buffer ++ [c] }
  if next.any isWordChar then (.ok none, t) else t.finishWord

def inString (t : Tokenizer) (c : Char) : Outcome × Tokenizer :=
  if c = '\n' then (.error ⟨t.location, .lexical .newlineInString⟩, t)
  else if c = '"' then
    if maxConstant < t.buffer.length then (.error ⟨t.start, .lexical .longString⟩, t)
    else (.ok (some (.string (String.ofList t.buffer))), { t with mode := .between, buffer := [] })
  else if 128 ≤ c.toNat then (.error ⟨t.location, .lexical (.foreignCharacter c)⟩, t)
  else (.ok none, { t with buffer := t.buffer ++ [c] })

def inBetween (t : Tokenizer) (c : Char) (next : Option Char) : Outcome × Tokenizer :=
  let t := { t with start := t.location }
  if isBlank c then (.ok none, t)
  else if c.isDigit then { t with mode := .integer }.inInteger c next
  else if isWordStart c then { t with mode := .word }.inWord c next
  else if c = '"' then (.ok none, { t with mode := .string })
  else match c, next with
    | '/', some '*' => (.ok none, { t with mode := .blockOpen })
    | '/', some '/' => (.ok none, { t with mode := .lineComment })
    | c, _ =>
      match Symbol.ofChar? c with
      | some s => (.ok (some (.symbol s)), t)
      | none => (.error ⟨t.location, .lexical (.unexpectedCharacter c)⟩, t)

def read (t : Tokenizer) (c : Char) (next : Option Char) : Outcome × Tokenizer :=
  match t.mode with
  | .between => t.inBetween c next
  | .string => t.inString c
  | .integer => t.inInteger c next
  | .word => t.inWord c next
  | .lineComment => (.ok none, if c = '\n' then { t with mode := .between } else t)
  | .blockOpen => (.ok none, { t with mode := .block })
  | .block => (.ok none, if c = '*' then { t with mode := .blockStar } else t)
  | .blockStar =>
    (.ok none, if c = '*' then t else { t with mode := if c = '/' then .between else .block })

def finish (t : Tokenizer) : Outcome × Tokenizer :=
  match t.mode with
  | .between | .lineComment => (.ok none, { t with mode := .between })
  | .string => (.error (openString t.start), { t with mode := .between })
  | .integer => t.finishInteger
  | .word => t.finishWord
  | .blockOpen | .block | .blockStar => (.error ⟨t.start, .lexical .openComment⟩, { t with mode := .between })

/-- The next item of what is left of the text, the tokenizer behind it and what is left then. An error leaves
nothing of the text, but the tokenizer in the middle of what it was in. -/
def next (t : Tokenizer) : List Char → Option Item × Tokenizer × List Char
  | [] =>
    match t.finish with
    | (.ok none, t) => (none, t, [])
    | (.ok (some token), t) => (some (.ok ⟨token, t.start⟩), t, [])
    | (.error e, t) => (some (.error e), t, [])
  | c :: cs =>
    match { t with location := t.location.step c }.read c cs.head? with
    | (.ok none, t) => t.next cs
    | (.ok (some token), t) => (some (.ok ⟨token, t.start⟩), t, cs)
    | (.error e, t) => (some (.error e), t, [])

/-- What is answered after `n` answers more. -/
def answer (t : Tokenizer) (cs : List Char) : Nat → Option Item
  | 0 => (t.next cs).1
  | n + 1 => (t.next cs).2.1.answer (t.next cs).2.2 n

abbrev idle (location start : Location) : Tokenizer := ⟨location, .between, [], start⟩

def fresh : Tokenizer := idle ⟨1, 0⟩ ⟨1, 1⟩

section Run

variable {t t' : Tokenizer} {cs cs' tl rest b body : List Char} {c d : Char} {l s : Location} {k : Token}

theorem answer_congr (h : t.next cs = t'.next cs') : t.answer cs = t'.answer cs' := by
  funext n
  cases n with
  | zero => rw [answer, answer, h]
  | succ n => rw [answer, answer, h]

theorem next_word (hc : ∀ d ∈ tl, isWordChar d) (hr : ∀ d ∈ rest.head?, isWordChar d = false) :
    (⟨l, .word, b, s⟩ : Tokenizer).next (c :: (tl ++ rest)) =
      (some (.ok ⟨.ofWord (String.ofList (b ++ c :: tl)), s⟩), ⟨l.after (c :: tl), .between, [], s⟩, rest) := by
  induction tl generalizing l b c with
  | nil =>
    have hn : rest.head?.any isWordChar = false := by
      rw [Option.any_eq_false]
      exact fun d hd => by simpa using hr d hd
    simp [next, read, inWord, hn, finishWord]
  | cons d tl ih =>
    obtain ⟨hd, hc⟩ := List.forall_mem_cons.mp hc
    have := ih (l := l.step c) (b := b ++ [c]) (c := d) hc
    rw [next]
    simpa [read, inWord, hd] using this

theorem next_integer (hc : ∀ d ∈ tl, d.isDigit) (hr : ∀ d ∈ rest.head?, d.isDigit = false) :
    (⟨l, .integer, b, s⟩ : Tokenizer).next (c :: (tl ++ rest)) =
      match rest.head?.filter isWordChar with
      | some d =>
        (some (.error ⟨(l.after (c :: tl)).step d, .lexical (.characterInInteger d)⟩),
          ⟨l.after (c :: tl), .integer, b ++ c :: tl, s⟩, [])
      | none =>
        (some (integerItem s (b ++ c :: tl)), ⟨l.after (c :: tl), .between, [], s⟩,
          match integerItem s (b ++ c :: tl) with
          | .ok _ => rest
          | .error _ => []) := by
  induction tl generalizing l b c with
  | nil =>
    simp only [List.nil_append, Location.after_cons, Location.after_nil, next, read, inInteger]
    cases rest with
    | nil =>
      simp only [List.head?_nil, Option.filter_none, finishInteger, integerItem]
      cases number? (b ++ [c]) <;> rfl
    | cons d rest =>
      have hd : d.isDigit = false := hr d rfl
      simp only [List.head?_cons, hd, Bool.false_eq_true, if_false, finishInteger, integerItem]
      by_cases hw : isWordChar d
      · have hl : (l.step c).step d = ⟨(l.step c).line, (l.step c).column + 1⟩ :=
          if_neg (ne_newline_of_isWordChar hw)
        simp only [hw, if_true, Option.filter_some, hl]
      · simp only [hw, Option.filter_some]
        cases number? (b ++ [c]) <;> rfl
  | cons d tl ih =>
    obtain ⟨hd, hc⟩ := List.forall_mem_cons.mp hc
    have := ih (l := l.step c) (b := b ++ [c]) (c := d) hc
    rw [next]
    simpa [read, inInteger, hd] using this

theorem next_string (hb : ∀ d ∈ body, isStringChar d) :
    (⟨l, .string, b, s⟩ : Tokenizer).next (body ++ rest) =
      (⟨l.after body, .string, b ++ body, s⟩ : Tokenizer).next rest := by
  induction body generalizing l b with
  | nil => simp
  | cons c body ih =>
    obtain ⟨hc, hb⟩ := List.forall_mem_cons.mp hb
    obtain ⟨⟨hlt, hn⟩, hq⟩ : (c.toNat < 128 ∧ c ≠ '\n') ∧ c ≠ '"' := by simpa [isStringChar] using hc
    have := ih (l := l.step c) (b := b ++ [c]) hb
    rw [List.cons_append, next]
    simpa [read, inString, hn, hq, Nat.not_le_of_lt hlt] using this

theorem next_lineComment (hb : '\n' ∉ body) :
    (⟨l, .lineComment, b, s⟩ : Tokenizer).next (body ++ rest) =
      (⟨l.after body, .lineComment, b, s⟩ : Tokenizer).next rest := by
  induction body generalizing l with
  | nil => rfl
  | cons c body ih =>
    obtain ⟨hc, hb⟩ := not_or.mp (mt List.mem_cons.mpr hb)
    have := ih (l := l.step c) hb
    rw [List.cons_append, next]
    simpa [read, Ne.symm hc] using this

theorem next_blockStar (h : cs.head? ≠ some '/') :
    (⟨l, .blockStar, b, s⟩ : Tokenizer).next cs = (⟨l, .block, b, s⟩ : Tokenizer).next cs := by
  cases cs with
  | nil => rfl
  | cons c cs =>
    have hc : c ≠ '/' := fun he => h (congrArg some he)
    rw [next, next]
    simp only [read, hc, if_false]

theorem next_block :
    (⟨l, .block, b, s⟩ : Tokenizer).next cs =
      match afterBlockComment l cs with
      | some (l', rest) => (⟨l', .between, b, s⟩ : Tokenizer).next rest
      | none => (some (.error ⟨s, .lexical .openComment⟩), ⟨l.after cs, .between, b, s⟩, []) := by
  fun_induction afterBlockComment l cs with
  | case1 => rfl
  | case2 l cs => rfl
  | case3 l c cs hc ih =>
    rw [Location.after_cons, ← ih, next]
    by_cases hs : c = '*'
    · subst hs
      rw [← next_blockStar fun hh => ?_]
      · simp [read]
      · obtain ⟨rest, rfl⟩ := List.head?_eq_some_iff.mp hh
        exact hc rest rfl rfl
    · simp [read, hs]

/-- The answers are the items, and then nothing. -/
def Answers (t : Tokenizer) (cs : List Char) (items : List Item) : Prop :=
  ∀ n, t.answer cs n = items[n]?

theorem Answers.cons {i : Item} {items : List Item} (h : t.next cs = (some i, t', cs'))
    (h' : t'.Answers cs' items) : t.Answers cs (i :: items) := by
  intro n
  cases n with
  | zero => simp [answer, h]
  | succ n => simpa [answer, h] using h' n

theorem answers_nil : (⟨l, .between, b, s⟩ : Tokenizer).Answers [] [] := by
  intro n
  induction n with
  | zero => rfl
  | succ n ih => exact ih

theorem answers_error {e : Error} (h : t.next cs = (some (.error e), ⟨l, .between, b, s⟩, [])) :
    t.Answers cs [.error e] :=
  .cons h answers_nil

theorem answers_digits : (⟨l, .integer, b, s⟩ : Tokenizer).Answers [] [integerItem s b] := by
  have : (⟨l, .integer, b, s⟩ : Tokenizer).next [] = (some (integerItem s b), ⟨l, .between, [], s⟩, []) := by
    simp only [next, finish, finishInteger, integerItem]
    cases number? b <;> rfl
  exact .cons this answers_nil

theorem answer_start (s' : Location) :
    (⟨l, .between, b, s⟩ : Tokenizer).answer cs = (⟨l, .between, b, s'⟩ : Tokenizer).answer cs := by
  cases cs with
  | nil => exact funext fun n => (answers_nil n).trans (answers_nil n).symm
  | cons => exact answer_congr rfl

def Follows (t : Tokenizer) (cs : List Char) {n : Nat} : Step n → Prop
  | .gap last rest _ => ∃ s, t.answer cs = (idle last s).answer rest
  | .lexeme x last rest _ => t.next cs = (some (.ok x), ⟨last, .between, [], x.location⟩, rest)
  | .stop items => t.Answers cs items

theorem next_of_isWordStart (hc : isWordStart c) :
    (idle l s).next (c :: cs) = (⟨l, .word, [], l.step c⟩ : Tokenizer).next (c :: cs) := by
  have hd : c.isDigit = false := Bool.eq_false_iff.mpr fun hd => by
    rw [isWordStart_of_isDigit hd] at hc
    cases hc
  rw [next, next]
  simp only [read, inBetween, isBlank_of_isWordStart hc, hd, hc, Bool.false_eq_true, if_false, if_true]

theorem next_of_isDigit (hc : c.isDigit) :
    (idle l s).next (c :: cs) =
      (⟨l, .integer, [], l.step c⟩ : Tokenizer).next (c :: cs) := by
  rw [next, next]
  simp only [read, inBetween, isBlank_of_isDigit hc, hc, Bool.false_eq_true, if_false, if_true]

theorem follows_readWord (hc : isWordStart c) :
    (idle l s).Follows (c :: cs) (readWord c (l.step c) cs) := by
  have : (⟨l, .word, [], l.step c⟩ : Tokenizer).next
      (c :: (cs.takeWhile isWordChar ++ cs.dropWhile isWordChar)) = _ :=
    next_word (fun _ => List.mem_takeWhile_imp) head?_dropWhile
  rw [List.takeWhile_append_dropWhile] at this
  exact (next_of_isWordStart hc).trans this

theorem follows_readInteger (hc : c.isDigit) :
    (idle l s).Follows (c :: cs) (readInteger c (l.step c) cs) := by
  have : (⟨l, .integer, [], l.step c⟩ : Tokenizer).next
      (c :: (cs.takeWhile Char.isDigit ++ cs.dropWhile Char.isDigit)) = _ :=
    next_integer (fun _ => List.mem_takeWhile_imp) head?_dropWhile
  rw [List.takeWhile_append_dropWhile, ← next_of_isDigit (s := s) hc, List.nil_append] at this
  simp only [readInteger]
  split
  next d hw =>
    simp only [hw] at this
    exact .cons this answers_digits
  next hw =>
    simp only [hw, integerItem] at this ⊢
    cases hn : number? (c :: cs.takeWhile Char.isDigit) with
    | some n =>
      simp only [hn] at this
      exact this
    | none =>
      simp only [hn] at this
      exact answers_error this

theorem follows_readString :
    (idle l s).Follows ('"' :: cs) (readString (l.step '"') cs) := by
  have hbody : (⟨l.step '"', .string, [], l.step '"'⟩ : Tokenizer).next
      (cs.takeWhile isStringChar ++ cs.dropWhile isStringChar) = _ := next_string fun _ => List.mem_takeWhile_imp
  rw [List.takeWhile_append_dropWhile, List.nil_append] at hbody
  have hnext : (idle l s).next ('"' :: cs) = _ := hbody
  rw [readString]
  generalize (l.step '"').after (cs.takeWhile isStringChar) = last at hnext
  -- the string is still open when the text ends, or when an error has made an end of it
  have hopen (d : Char) (b : List Char) : (⟨last.step d, .string, b, l.step '"'⟩ : Tokenizer).Answers []
      [.error (openString (l.step '"'))] := answers_error rfl
  split
  next he =>
    rw [he] at hnext
    exact answers_error hnext
  next d rest he =>
    have hd : isStringChar d = false := head?_dropWhile d (by rw [he]; rfl)
    rw [he] at hnext
    split
    next hq =>
      subst hq
      split
      next hlong =>
        refine .cons (hnext.trans ?_) (hopen '"' (cs.takeWhile isStringChar))
        simp [next, read, inString, hlong]
      next hlong =>
        refine hnext.trans ?_
        simp [next, read, inString, hlong]
    next hq =>
      split
      next hn =>
        refine .cons (hnext.trans ?_) (hopen d (cs.takeWhile isStringChar))
        simp [next, read, inString, hn]
      next hn =>
        have hf : 128 ≤ d.toNat := by simpa [isStringChar, hq, hn] using hd
        refine .cons (hnext.trans ?_) (hopen d (cs.takeWhile isStringChar))
        simp [next, read, inString, hq, hn, hf]

theorem follows_readLineComment :
    (idle l s).Follows ('/' :: '/' :: cs)
      (readLineComment ((l.step '/').step '/') cs).weaken := by
  have hbody : (⟨(l.step '/').step '/', .lineComment, [], l.step '/'⟩ : Tokenizer).next
      (cs.takeWhile (· ≠ '\n') ++ cs.dropWhile (· ≠ '\n')) = _ :=
    next_lineComment (newline_notMem_takeWhile cs)
  rw [List.takeWhile_append_dropWhile] at hbody
  have hnext : (idle l s).next ('/' :: '/' :: cs) = _ := hbody
  refine ⟨l.step '/', (answer_congr hnext).trans ?_⟩
  have hr := eq_newline_of_head?_dropWhile cs
  generalize cs.dropWhile (· ≠ '\n') = rest at hr
  generalize ((l.step '/').step '/').after (cs.takeWhile (· ≠ '\n')) = last
  cases rest with
  | nil => exact answer_congr rfl
  | cons d rest =>
    -- the newline ends the comment, where it would else be a blank
    cases hr d rfl
    have hc : (⟨last, .lineComment, [], l.step '/'⟩ : Tokenizer).answer ('\n' :: rest) =
        (idle (last.step '\n') (l.step '/')).answer rest := answer_congr rfl
    have hg : (idle last (l.step '/')).answer ('\n' :: rest) =
        (idle (last.step '\n') (last.step '\n')).answer rest := answer_congr rfl
    rw [hc, hg, answer_start]

theorem follows_readBlockComment :
    (idle l s).Follows ('/' :: '*' :: cs)
      (readBlockComment (l.step '/') ((l.step '/').step '*') cs).weaken := by
  have hbody : (⟨(l.step '/').step '*', .block, [], l.step '/'⟩ : Tokenizer).next cs = _ := next_block
  have hnext : (idle l s).next ('/' :: '*' :: cs) = _ := hbody
  rw [readBlockComment]
  split
  next l' rest h =>
    simp only [h] at hnext
    exact ⟨l.step '/', answer_congr hnext⟩
  next h =>
    simp only [h] at hnext
    exact answers_error hnext

theorem follows_readSymbol (hb : isBlank c = false) (hw : isWordStart c = false) (hd : c.isDigit = false)
    (hq : c ≠ '"') (hs : c = '/' → ∀ d ∈ cs.head?, d ≠ '/' ∧ d ≠ '*') :
    (idle l s).Follows (c :: cs) (readSymbol c (l.step c) cs) := by
  have hread : (idle (l.step c) s).read c cs.head? =
      match Symbol.ofChar? c with
      | some s => (.ok (some (.symbol s)), ⟨l.step c, .between, [], l.step c⟩)
      | none => (.error ⟨l.step c, .lexical (.unexpectedCharacter c)⟩, ⟨l.step c, .between, [], l.step c⟩) := by
    simp only [read, inBetween, hb, hw, hd, hq, Bool.false_eq_true, if_false]
    split
    next h => exact absurd rfl (hs rfl _ h).2
    next h => exact absurd rfl (hs rfl _ h).1
    next => rfl
  rw [readSymbol]
  split
  next k hk =>
    simp only [hk] at hread
    simp only [Follows, next, hread]
  next hk =>
    simp only [hk] at hread
    have hnext : (idle l s).next (c :: cs) =
        (some (.error ⟨l.step c, .lexical (.unexpectedCharacter c)⟩), ⟨l.step c, .between, [], l.step c⟩, []) := by
      simp only [next, hread]
    exact answers_error hnext

theorem follows_step (l s : Location) (c : Char) (cs : List Char) :
    (idle l s).Follows (c :: cs) (step c (l.step c) cs) := by
  unfold step
  split
  next hb =>
    refine ⟨l.step c, answer_congr ?_⟩
    rw [next]
    simp only [read, inBetween, hb, if_true]
  next hb =>
    split
    next hw => exact follows_readWord hw
    next hw =>
      split
      next hd => exact follows_readInteger hd
      next hd =>
        split
        next hq =>
          subst hq
          exact follows_readString
        next hq =>
          split
          next => exact follows_readLineComment
          next => exact follows_readBlockComment
          next hl hs =>
            refine follows_readSymbol (Bool.eq_false_iff.mpr hb) (Bool.eq_false_iff.mpr hw)
              (Bool.eq_false_iff.mpr hd) hq fun hc d hd => ?_
            obtain ⟨ds, rfl⟩ := List.head?_eq_some_iff.mp hd
            exact ⟨fun h => hl ds hc (by rw [h]), fun h => hs ds hc (by rw [h])⟩

/-- The tokenizer answers with the items of the text, one after the other, and then with nothing for ever. -/
theorem answers_scanFrom (l s : Location) (cs : List Char) :
    (idle l s).Answers cs (scanFrom #[] l cs).toList := by
  induction hn : cs.length using Nat.strongRecOn generalizing l s cs with
  | ind n ih =>
    subst hn
    cases cs with
    | nil =>
      rw [scanFrom]
      exact answers_nil
    | cons c cs =>
      have h := follows_step l s c cs
      rw [scanFrom]
      cases hstep : step c (l.step c) cs with
      | gap last rest hlt =>
        rw [hstep] at h
        obtain ⟨s', h⟩ := h
        intro n
        rw [h]
        exact ih _ hlt last s' rest rfl n
      | lexeme x last rest hlt =>
        rw [hstep] at h
        have := Answers.cons h (ih _ hlt last x.location rest rfl)
        simp only
        rw [scanFrom_eq_append]
        simpa using this
      | stop items =>
        rw [hstep] at h
        simp only [Array.empty_append]
        exact h

theorem fresh_answers (source : String) : fresh.Answers source.toList (scan source).toList :=
  answers_scanFrom ⟨1, 0⟩ ⟨1, 1⟩ source.toList

end Run

end Tokenizer

/-- Of every source text, the answers of the tokenizer are lexemes first. Then there is nothing for ever, or else
an error comes, and behind it one item more just if the error leaves a string or a number behind. -/
theorem tokenizer_stops (source : String) :
    ∃ (xs : List Lexeme) (last : List Item),
      Tokenizer.fresh.Answers source.toList (xs.map Except.ok ++ last) ∧
      scan source = (xs.map Except.ok ++ last).toArray ∧
      (last = [] ∨ ∃ (before text : List Char) (e : Error) (more : List Item),
        before ++ text = source.toList ∧ Breaks before text e more ∧ last = .error e :: more ∧
        (e.fault.Lingers ↔ more ≠ []) ∧ more.length ≤ 1) ∧
      xs.length + last.length ≤ source.length + 1 := by
  have hans := Tokenizer.fresh_answers source
  have hscan := scanned_scan source
  rw [← String.length_toList]
  generalize scan source = items at hans hscan
  cases hscan with
  | whole a valid text =>
    have hlen := valid.spelled.length_placed_le []
    rw [text] at hlen
    refine ⟨a.placed [], [], by simpa using hans, by simp, .inl rfl, ?_⟩
    simp only [List.length_nil]
    omega
  | @broken a tail e more valid text breaks =>
    have hlen := valid.spelled.length_placed_le []
    have htail := List.length_pos_iff.mpr breaks.ne_nil
    have hmore := breaks.length_le
    refine ⟨a.placed [], .error e :: more, hans, rfl,
      .inr ⟨a.text, tail, e, more, text, breaks, rfl, breaks.lingers_iff, hmore⟩, ?_⟩
    rw [← text, List.length_append, List.length_cons]
    omega

end Jack.Lexeme
