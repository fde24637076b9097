import Jack.Path
import Mathlib.Data.List.TakeWhile

namespace Jack.Path

variable {d n m stem extension : String}

def IsFront (d : String) : Prop :=
  d = "" ∨ ∃ d', d = d' ++ "/"

structure IsName (n : String) : Prop where
  ne_empty : n ≠ ""
  ne_dot : n ≠ "."
  ne_dots : n ≠ ".."
  slash_notMem : '/' ∉ n.toList

def front (directory : String) : String :=
  if directory.endsWith "/" then directory else directory ++ "/"

section Names

theorem join_eq (directory name : String) : join directory name = front directory ++ name := by
  rw [join, front]
  split <;> rfl

theorem isFront_front (directory : String) : IsFront (front directory) := by
  rw [front]
  split
  next h =>
    rw [← String.endsWith_toSlice, String.Slice.endsWith_string_iff, String.copy_toSlice] at h
    obtain ⟨cs, hcs⟩ := h
    exact .inr ⟨String.ofList cs, by rw [← String.toList_inj, ← hcs]; simp⟩
  next => exact .inr ⟨directory, rfl⟩

theorem splitName_append (hd : IsFront d) (hn : '/' ∉ n.toList) : splitName (d ++ n) = (d, n) := by
  have hr : ∀ c ∈ n.toList.reverse, decide (c ≠ '/') = true := fun c hc =>
    decide_eq_true (ne_of_mem_of_not_mem (List.mem_reverse.mp hc) hn)
  have hh : ∀ c ∈ d.toList.reverse.head?, decide (c ≠ '/') = false := by
    obtain rfl | ⟨d', rfl⟩ := hd <;> simp
  rw [splitName, String.toList_append, List.reverse_append, takeWhile_append_of_head hr hh,
    dropWhile_append_of_head hr hh, List.reverse_reverse, List.reverse_reverse, String.ofList_toList,
    String.ofList_toList]

theorem exists_front (path : String) : ∃ d n, IsFront d ∧ '/' ∉ n.toList ∧ path = d ++ n := by
  have hs := List.takeWhile_append_dropWhile (p := fun c => decide (c ≠ '/')) (l := path.toList.reverse)
  have hh := @head?_dropWhile (fun c => decide (c ≠ '/')) path.toList.reverse
  have ht : '/' ∉ path.toList.reverse.takeWhile fun c => decide (c ≠ '/') := fun hm => by
    simpa using List.mem_takeWhile_imp hm
  generalize path.toList.reverse.takeWhile _ = name at hs ht
  generalize path.toList.reverse.dropWhile _ = front at hs hh
  refine ⟨String.ofList front.reverse, String.ofList name.reverse, ?_, by simpa using ht, ?_⟩
  · cases front with
    | nil => exact .inl rfl
    | cons c cs =>
      have hc : c = '/' := by simpa using hh c rfl
      exact .inr ⟨String.ofList cs.reverse, by simp [hc]⟩
  · rw [← String.ofList_append, ← List.reverse_append, hs, List.reverse_reverse, String.ofList_toList]

theorem segments_of_notMem (hn : '/' ∉ n.toList) : segments n = [n] := by
  rw [segments, Text.split, Text.splitList_of_notMem hn, List.map_singleton, String.ofList_toList]

theorem segments_append_slash (d n : String) : segments (d ++ "/" ++ n) = segments d ++ segments n := by
  have hl : (d ++ "/" ++ n).toList = d.toList ++ '/' :: n.toList := by simp
  rw [segments, Text.split, hl, Text.splitList_append_cons, List.map_append]
  rfl

/-- The last name of a path is its last segment. -/
theorem exists_segments_front (hd : IsFront d) :
    ∃ xs, segments d = xs ++ [""] ∧ ∀ n, '/' ∉ n.toList → segments (d ++ n) = xs ++ [n] := by
  have hempty : segments "" = [""] := segments_of_notMem (by simp)
  obtain rfl | ⟨d', rfl⟩ := hd
  · refine ⟨[], hempty, fun n hn => ?_⟩
    rw [String.empty_append, segments_of_notMem hn]
    rfl
  · refine ⟨segments d', ?_, fun n hn => ?_⟩
    · have h := segments_append_slash d' ""
      rwa [String.append_empty, hempty] at h
    · rw [segments_append_slash, segments_of_notMem hn]

theorem segments_front (directory : String) :
    segments (front directory) = segments directory ∨ segments (front directory) = segments directory ++ [""] := by
  rw [front]
  split
  next => exact .inl rfl
  next =>
    have h := segments_append_slash directory ""
    rw [String.append_empty, segments_of_notMem (n := "") (by simp)] at h
    exact .inr h

theorem startsWith_front (hd : IsFront d) (hn : '/' ∉ n.toList) (hm : '/' ∉ m.toList) :
    (d ++ n).startsWith "/" = (d ++ m).startsWith "/" := by
  have hfalse {x : String} (hx : '/' ∉ x.toList) : x.startsWith "/" = false := by
    rw [String.startsWith_string_eq_false_iff]
    exact fun h => hx (h.subset (by simp))
  rw [Bool.eq_iff_iff, String.startsWith_string_iff, String.startsWith_string_iff]
  obtain rfl | ⟨d', rfl⟩ := hd
  · rw [String.empty_append, String.empty_append, ← String.startsWith_string_iff, ← String.startsWith_string_iff,
      hfalse hn, hfalse hm]
  · cases h : d'.toList <;> simp [h]

theorem startsWith_of_directory {directory : String} (h : directory ≠ "") :
    (front directory).startsWith "/" = directory.startsWith "/" := by
  rw [front]
  split
  next => rfl
  next =>
    rw [Bool.eq_iff_iff, String.startsWith_string_iff, String.startsWith_string_iff]
    cases hl : directory.toList with
    | nil => exact absurd (String.toList_eq_nil_iff.mp hl) h
    | cons c cs => simp [hl]

end Names

section Extensions

structure IsExtension (extension : String) : Prop where
  ne_empty : extension ≠ ""
  dot_notMem : '.' ∉ extension.toList
  slash_notMem : '/' ∉ extension.toList

theorem splitExtension_append (hs : stem ≠ "") (he : '.' ∉ extension.toList) :
    splitExtension (stem ++ "." ++ extension) = (stem, some extension) := by
  have hl : (stem ++ "." ++ extension).toList.reverse =
      extension.toList.reverse ++ '.' :: stem.toList.reverse := by simp
  have hr : ∀ c ∈ extension.toList.reverse, decide (c ≠ '.') = true := fun c hc =>
    decide_eq_true (ne_of_mem_of_not_mem (List.mem_reverse.mp hc) he)
  have hh : ∀ c ∈ ('.' :: stem.toList.reverse).head?, decide (c ≠ '.') = false := by simp
  have ht := takeWhile_append_of_head hr hh
  have hd := dropWhile_append_of_head hr hh
  cases hc : stem.toList.reverse with
  | nil => exact absurd (by simpa using hc) hs
  | cons c cs =>
    have hstem : String.ofList (c :: cs).reverse = stem := by rw [← hc, List.reverse_reverse, String.ofList_toList]
    rw [hc] at ht hd hl
    simp only [splitExtension, hl, hd, ht]
    rw [hstem, List.reverse_reverse, String.ofList_toList]

/-- The extension of a name comes behind its last dot, in front of which there is something. -/
theorem splitExtension_cases (name : String) :
    splitExtension name = (name, none) ∨ ∃ stem extension, stem ≠ "" ∧ '.' ∉ extension.toList ∧
      name = stem ++ "." ++ extension ∧ splitExtension name = (stem, some extension) := by
  have hs := List.takeWhile_append_dropWhile (p := fun c => decide (c ≠ '.')) (l := name.toList.reverse)
  have hh := @head?_dropWhile (fun c => decide (c ≠ '.')) name.toList.reverse
  have ht : '.' ∉ name.toList.reverse.takeWhile fun c => decide (c ≠ '.') := fun hm => by
    simpa using List.mem_takeWhile_imp hm
  generalize he : name.toList.reverse.takeWhile (fun c => decide (c ≠ '.')) = e at hs ht
  rcases hd : name.toList.reverse.dropWhile (fun c => decide (c ≠ '.')) with _ | ⟨dot, _ | ⟨c, cs⟩⟩
  · exact .inl (by simp only [splitExtension, hd])
  · exact .inl (by simp only [splitExtension, hd])
  · rw [hd] at hs hh
    obtain rfl : dot = '.' := by simpa using hh dot rfl
    have hn : name = String.ofList (e ++ '.' :: c :: cs).reverse := by
      rw [hs, List.reverse_reverse, String.ofList_toList]
    refine .inr ⟨String.ofList (c :: cs).reverse, String.ofList e.reverse, by simp, by simpa using ht, ?_,
      by simp only [splitExtension, hd, he]⟩
    rw [hn, ← String.toList_inj]
    simp

theorem extension?_eq_some_iff (he : '.' ∉ extension.toList) {name : String} :
    extension? name = some extension ↔ ∃ stem, stem ≠ "" ∧ name = stem ++ "." ++ extension := by
  rw [extension?]
  constructor
  · intro h
    obtain hn | ⟨stem, extension', hs, -, rfl, hn⟩ := splitExtension_cases name
    · rw [hn] at h
      cases h
    · rw [hn] at h
      cases h
      exact ⟨stem, hs, rfl⟩
  · rintro ⟨stem, hs, rfl⟩
    rw [splitExtension_append hs he]

theorem extension?_jack (hs : stem ≠ "") : extension? (stem ++ ".jack") = some "jack" := by
  rw [extension?_eq_some_iff (by decide)]
  exact ⟨stem, hs, by rw [String.append_assoc]; rfl⟩

theorem eq_of_append_dot {x y e e' : String} (he : '.' ∉ e.toList) (he' : '.' ∉ e'.toList)
    (h : x ++ "." ++ e = y ++ "." ++ e') : e = e' := by
  have hsplit {x e : String} (he : '.' ∉ e.toList) :
      Text.splitList '.' (x ++ "." ++ e).toList = Text.splitList '.' x.toList ++ [e.toList] := by
    have hl : (x ++ "." ++ e).toList = x.toList ++ '.' :: e.toList := by simp
    rw [hl, Text.splitList_append_cons, Text.splitList_of_notMem he]
  have hlast := hsplit (x := x) he
  rw [h, hsplit he'] at hlast
  have hlists := (List.append_inj' hlast rfl).2
  exact String.toList_inj.mp (List.cons.inj hlists).1.symm

/-- The name with `extension` in the place of its extension, or behind it if it has none. There is no such
name where the old extension goes and leaves a dot behind the dot before it. -/
def rename? (name extension : String) : Option String :=
  match splitExtension name with
  | (".", some _) => none
  | (stem, _) => some (stem ++ "." ++ extension)

theorem rename?_of_none (h : splitExtension n = (n, none)) :
    rename? n extension = some (n ++ "." ++ extension) := by
  rw [rename?, h]
  by_cases hn : n = "." <;> simp [hn]

theorem rename?_of_some {e : String} (h : splitExtension n = (stem, some e)) :
    rename? n extension = if stem = "." then none else some (stem ++ "." ++ extension) := by
  rw [rename?, h]
  by_cases hs : stem = "." <;> simp [hs]

theorem withExtension_front (hd : IsFront d) (hn : '/' ∉ n.toList) :
    withExtension (d ++ n) extension = d ++ (rename? n extension).getD ".." := by
  rw [withExtension, splitName_append hd hn]
  obtain h | ⟨stem, e, -, -, -, h⟩ := splitExtension_cases n
  · simp [h, rename?_of_none h, String.append_assoc]
  · rw [rename?_of_some h]
    by_cases hs : stem = "."
    · simp [h, hs]
    · simp [h, hs, String.append_assoc]

theorem rename?_eq_some_iff : rename? n extension = some m ↔
    (∃ stem e, stem ≠ "" ∧ stem ≠ "." ∧ '.' ∉ e.toList ∧ n = stem ++ "." ++ e ∧ m = stem ++ "." ++ extension) ∨
      extension? n = none ∧ m = n ++ "." ++ extension := by
  rw [extension?]
  obtain h | ⟨stem, e, hs, he, hn, h⟩ := splitExtension_cases n
  · rw [rename?_of_none h, h, Option.some.injEq]
    constructor
    · rintro rfl
      exact .inr ⟨rfl, rfl⟩
    · rintro (⟨stem, e, hs, -, he, rfl, -⟩ | ⟨-, rfl⟩)
      · cases congrArg Prod.snd (h.symm.trans (splitExtension_append hs he))
      · rfl
  · rw [rename?_of_some h, Option.ite_none_left_eq_some, h, Option.some.injEq]
    constructor
    · rintro ⟨hdot, rfl⟩
      exact .inl ⟨stem, e, hs, hdot, he, hn, rfl⟩
    · rintro (⟨stem', e', hs', hdot, he', rfl, rfl⟩ | ⟨hnone, -⟩)
      · cases h.symm.trans (splitExtension_append hs' he')
        exact ⟨hdot, rfl⟩
      · cases hnone

theorem rename?_eq_self_iff (he : '.' ∉ extension.toList) :
    rename? n extension = some n ↔ ∃ stem, stem ≠ "" ∧ stem ≠ "." ∧ n = stem ++ "." ++ extension := by
  rw [rename?_eq_some_iff]
  constructor
  · rintro (⟨stem, e, hs, hdot, -, -, hn⟩ | ⟨-, hn⟩)
    · exact ⟨stem, hs, hdot, hn⟩
    · have hlen := congrArg String.length hn
      rw [String.length_append, String.length_append] at hlen
      have hone : ".".length = 1 := rfl
      omega
  · rintro ⟨stem, hs, hdot, hn⟩
    exact .inl ⟨stem, extension, hs, hdot, he, hn, hn⟩

theorem extension?_of_rename? (hn : n ≠ "") (he : '.' ∉ extension.toList)
    (h : rename? n extension = some m) : extension? m = some extension := by
  rw [extension?_eq_some_iff he]
  obtain ⟨stem, e, hs, -, -, -, rfl⟩ | ⟨-, rfl⟩ := rename?_eq_some_iff.mp h
  · exact ⟨stem, hs, rfl⟩
  · exact ⟨n, hn, rfl⟩

theorem slash_notMem_of_rename? (hn : '/' ∉ n.toList) (he : '/' ∉ extension.toList)
    (h : rename? n extension = some m) : '/' ∉ m.toList := by
  obtain ⟨stem, e, -, -, -, rfl, rfl⟩ | ⟨-, rfl⟩ := rename?_eq_some_iff.mp h
  · simp only [String.toList_append, List.mem_append, not_or] at hn ⊢
    exact ⟨hn.1, he⟩
  · simp [hn, he]

theorem isName_of_extension? (hm : '/' ∉ m.toList) (h : extension? m = some extension)
    (hne : extension ≠ "") : IsName m := by
  refine ⟨?_, ?_, ?_, hm⟩
  · rintro rfl
    cases h
  · rintro rfl
    cases h
  · rintro rfl
    exact hne (Option.some.inj h).symm

theorem rename?_injective {e : String} (hn : extension? n = some e) (hm : extension? m = some e)
    {n' : String} (h : rename? n extension = some n') (h' : rename? m extension = some n') : n = m := by
  have hsplit {x : String} (hx : extension? x = some e) (hx' : rename? x extension = some n') :
      ∃ stem, x = stem ++ "." ++ e ∧ n' = stem ++ "." ++ extension := by
    obtain ⟨stem, e', hs, -, he', rfl, rfl⟩ | ⟨hnone, -⟩ := rename?_eq_some_iff.mp hx'
    · rw [extension?, splitExtension_append hs he'] at hx
      cases hx
      exact ⟨stem, rfl, rfl⟩
    · cases hnone.symm.trans hx
  obtain ⟨s, rfl, hs⟩ := hsplit hn h
  obtain ⟨s', rfl, hs'⟩ := hsplit hm h'
  rw [hs, String.append_left_inj, String.append_left_inj] at hs'
  rw [hs']

end Extensions

end Jack.Path
