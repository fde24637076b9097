namespace Jack

theorem takeWhile_append_of_head {p : Char → Bool} {as bs : List Char} (ha : ∀ c ∈ as, p c)
    (hb : ∀ c ∈ bs.head?, p c = false) : (as ++ bs).takeWhile p = as := by
  rw [List.takeWhile_append_of_pos ha]
  cases bs with
  | nil => simp
  | cons b bs => simp [hb b rfl]

theorem dropWhile_append_of_head {p : Char → Bool} {as bs : List Char} (ha : ∀ c ∈ as, p c)
    (hb : ∀ c ∈ bs.head?, p c = false) : (as ++ bs).dropWhile p = bs := by
  rw [List.dropWhile_append_of_pos ha]
  cases bs with
  | nil => rfl
  | cons b bs => simp [hb b rfl]

theorem head?_dropWhile {p : Char → Bool} {cs : List Char} :
    ∀ c ∈ (cs.dropWhile p).head?, p c = false := by
  intro c hc
  have := List.head?_dropWhile_not p cs
  rwa [Option.mem_def.mp hc] at this

namespace Text

/-- The parts of `cs` between the places where `separator` stands: one more than there are places. -/
def splitList (separator : Char) : List Char → List (List Char)
  | [] => [[]]
  | c :: cs =>
    if c = separator then [] :: splitList separator cs
    else match splitList separator cs with
      | part :: parts => (c :: part) :: parts
      | [] => [[c]]

def split (separator : Char) (text : String) : List String :=
  (splitList separator text.toList).map String.ofList

theorem splitList_ne_nil (separator : Char) (cs : List Char) : splitList separator cs ≠ [] := by
  cases cs with
  | nil => exact List.cons_ne_nil _ _
  | cons c cs =>
    unfold splitList
    split
    · exact List.cons_ne_nil _ _
    · split <;> exact List.cons_ne_nil _ _

theorem splitList_of_notMem {separator : Char} {cs : List Char} (h : separator ∉ cs) :
    splitList separator cs = [cs] := by
  induction cs with
  | nil => rfl
  | cons c cs ih =>
    rw [List.mem_cons, not_or] at h
    rw [splitList, if_neg (Ne.symm h.1), ih h.2]

theorem splitList_append_cons (separator : Char) (cs ds : List Char) :
    splitList separator (cs ++ separator :: ds) = splitList separator cs ++ splitList separator ds := by
  induction cs with
  | nil => simp [splitList]
  | cons c cs ih =>
    rw [List.cons_append, splitList, splitList, ih]
    split
    next => rfl
    next =>
      cases h : splitList separator cs with
      | nil => exact absurd h (splitList_ne_nil separator cs)
      | cons part parts => rfl

theorem splitList_append_of_notMem {separator : Char} {cs ds part : List Char}
    {parts : List (List Char)} (h : separator ∉ cs) (hd : splitList separator ds = part :: parts) :
    splitList separator (cs ++ ds) = (cs ++ part) :: parts := by
  induction cs with
  | nil => exact hd
  | cons c cs ih =>
    rw [List.mem_cons, not_or] at h
    rw [List.cons_append, splitList, if_neg (Ne.symm h.1), ih h.2]
    rfl

theorem splitList_intercalate {separator : Char} {parts : List (List Char)} (hne : parts ≠ [])
    (h : ∀ part ∈ parts, separator ∉ part) :
    splitList separator ([separator].intercalate parts) = parts := by
  induction parts with
  | nil => exact absurd rfl hne
  | cons part parts ih =>
    obtain ⟨hpart, hparts⟩ := List.forall_mem_cons.mp h
    cases parts with
    | nil => simpa [List.intercalate] using splitList_of_notMem hpart
    | cons next more =>
      have hi : [separator].intercalate (part :: next :: more) =
          part ++ separator :: [separator].intercalate (next :: more) := by
        simp [List.intercalate]
      rw [hi, splitList_append_cons, splitList_of_notMem hpart, ih (List.cons_ne_nil _ _) hparts]
      rfl

theorem split_intercalate {separator : Char} {parts : List String} (hne : parts ≠ [])
    (h : ∀ part ∈ parts, separator ∉ part.toList) :
    split separator ((String.singleton separator).intercalate parts) = parts := by
  rw [split, String.toList_intercalate, String.toList_singleton,
    splitList_intercalate (by simpa using hne) (by simpa using h)]
  simp [Function.comp_def, String.ofList_toList]

end Text

end Jack
