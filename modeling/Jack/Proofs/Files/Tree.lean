import Jack.FileTree
import Jack.Proofs.Files.Path
import Mathlib.Data.List.Nodup

/-!
What paths mean in a tree of files, in terms of the directory that they lead to and their last name, and
what remains of a tree when files are stored in it.
-/

namespace Jack.FileTree

variable {t t' : FileTree} {p q place : List String} {d n path : String} {xs ys : List String} {e : Entry}

/-- A tree as it can be: each entry is made once, under a name, in a directory. -/
structure Valid (t : FileTree) : Prop where
  nodup : (t.entries.map Prod.fst).Nodup
  isName : ∀ p n, (t.get? (p ++ [n])).isSome → Path.IsName n
  parent : ∀ p n, (t.get? (p ++ [n])).isSome → t.get? p = some .directory

theorem lookup_filter_ne {α : Type} {es : List (List String × α)} (h : q ≠ p) :
    (es.filter (·.1 ≠ p)).lookup q = es.lookup q := by
  induction es with
  | nil => rfl
  | cons x es ih =>
    obtain ⟨r, a⟩ := x
    by_cases hr : r = p
    · have hq : (q == p) = false := beq_eq_false_iff_ne.mpr h
      simpa [List.filter_cons, hr, List.lookup_cons, hq] using ih
    · rw [List.filter_cons_of_pos (by simpa using hr), List.lookup_cons, List.lookup_cons, ih]

theorem get?_put_self (t : FileTree) (hp : p ≠ []) (e : Entry) : (t.put p e).get? p = some e := by
  simp [get?, put, hp]

theorem get?_put_of_ne (t : FileTree) (h : q ≠ p) (e : Entry) : (t.put p e).get? q = t.get? q := by
  have hq : (q == p) = false := beq_eq_false_iff_ne.mpr h
  simp only [get?, put, List.lookup_cons, hq, lookup_filter_ne h]

theorem Valid.empty (place : List String) : Valid ⟨place, []⟩ :=
  ⟨.nil, fun p n h => by simp [get?] at h, fun p n h => by simp [get?] at h⟩

theorem Valid.put (ht : t.Valid) (hp : t.get? p = some .directory) (hn : Path.IsName n)
    (hnew : t.get? (p ++ [n]) = none) (e : Entry) : (t.put (p ++ [n]) e).Valid := by
  have hcases {q : List String} {m : String} (h : ((t.put (p ++ [n]) e).get? (q ++ [m])).isSome) :
      (q = p ∧ m = n) ∨ (t.get? (q ++ [m])).isSome := by
    by_cases hq : q ++ [m] = p ++ [n]
    · exact .inl (by simpa using hq)
    · exact .inr (by rwa [get?_put_of_ne t hq] at h)
  refine ⟨?_, fun q m h => ?_, fun q m h => ?_⟩
  · rw [FileTree.put, List.map_cons, List.nodup_cons]
    refine ⟨fun hm => ?_, ht.nodup.sublist (List.filter_sublist.map _)⟩
    obtain ⟨x, hx, heq⟩ := List.mem_map.mp hm
    exact of_decide_eq_true (List.mem_filter.mp hx).2 heq
  · obtain ⟨-, rfl⟩ | h := hcases h
    · exact hn
    · exact ht.isName q m h
  · have hq : t.get? q = some .directory := by
      obtain ⟨rfl, -⟩ | h := hcases h
      · exact hp
      · exact ht.parent q m h
    have hne : q ≠ p ++ [n] := by
      rintro rfl
      cases hnew.symm.trans hq
    rw [get?_put_of_ne t hne, hq]

section Follow

theorem follow_append (t : FileTree) (p xs ys : List String) :
    t.follow p (xs ++ ys) = t.follow p xs >>= fun q => t.follow q ys := by
  induction xs generalizing p with
  | nil => rfl
  | cons x xs ih =>
    rw [List.cons_append, follow, follow]
    split
    next => split_ifs <;> first | exact ih _ | rfl
    next => rfl

theorem follow_name (hp : t.get? p = some .directory) (hn : Path.IsName n) :
    t.follow p [n] = if (t.get? (p ++ [n])).isSome then .ok (p ++ [n]) else .error .noEntry := by
  rw [follow, hp]
  simp only [hn.ne_empty, hn.ne_dot, hn.ne_dots, or_self, if_false]
  rfl

theorem follow_empty (hp : t.get? p = some .directory) : t.follow p [""] = .ok p := by
  rw [follow, hp]
  rfl

theorem follow_cons_of_ne (hp : t.get? p ≠ some .directory) (x : String) :
    t.follow p (x :: xs) = .error .notDirectory := by
  rw [follow]
  split
  next h => exact absurd h hp
  next => rfl

theorem get?_of_follow_empty (h : t.follow p [""] = .ok q) : q = p ∧ t.get? p = some .directory := by
  by_cases hp : t.get? p = some .directory
  · rw [follow_empty hp] at h
    cases h
    exact ⟨rfl, hp⟩
  · rw [follow_cons_of_ne hp] at h
    cases h

theorem follow_empty_bind (t : FileTree) (p : List String) (n : String) :
    (t.follow p [""] >>= fun q => t.follow q [n]) = t.follow p [n] := by
  by_cases hp : t.get? p = some .directory
  · rw [follow_empty hp]
    rfl
  · rw [follow_cons_of_ne hp, follow_cons_of_ne hp]
    rfl

end Follow

/-- The directory that what stands in front of the last name of a path leads to. -/
def front? (t : FileTree) (d : String) : Except SystemFault (List String) :=
  t.follow (t.start d) (Path.segments d)

theorem read_of_find (h : t.find path = .ok place) :
    t.read path = match t.get? place with
      | some (.file content) => .ok content
      | some .directory => .error .isDirectory
      | none => .error .noEntry := by
  rw [read, h]
  rfl

theorem exists_find_of_read {content : ByteArray} (h : t.read path = .ok content) :
    ∃ place, t.find path = .ok place ∧ t.get? place = some (.file content) := by
  cases hf : t.find path with
  | error f =>
    rw [read, hf] at h
    cases h
  | ok place =>
    rw [read_of_find hf] at h
    refine ⟨place, rfl, ?_⟩
    split at h <;> cases h
    assumption

section Front

variable (hd : Path.IsFront d)

include hd

theorem start_front (t : FileTree) (hn : '/' ∉ n.toList) : t.start (d ++ n) = t.start d := by
  have h := Path.startsWith_front hd hn (m := "") (by simp)
  rw [String.append_empty] at h
  rw [start, start, h]

theorem directory_of_front? (h : t.front? d = .ok p) : t.get? p = some .directory := by
  obtain ⟨xs, hxs, -⟩ := Path.exists_segments_front hd
  rw [front?, hxs, follow_append] at h
  cases hq : t.follow (t.start d) xs with
  | error f =>
    rw [hq] at h
    cases h
  | ok q =>
    rw [hq] at h
    obtain ⟨rfl, hp⟩ := get?_of_follow_empty h
    exact hp

theorem find_front (t : FileTree) (hn : '/' ∉ n.toList) (hne : n ≠ "") :
    t.find (d ++ n) = t.front? d >>= fun p => t.follow p [n] := by
  obtain ⟨xs, hxs, hseg⟩ := Path.exists_segments_front hd
  have hne' : d ++ n ≠ "" := fun h => hne (String.append_eq_empty_iff.mp h).2
  rw [find, if_neg hne', start_front hd t hn, hseg n hn, front?, hxs, follow_append, follow_append, bind_assoc]
  congr 1
  funext q
  exact (follow_empty_bind t q n).symm

theorem findParent_front (hp : t.front? d = .ok p) (hn : '/' ∉ n.toList) (hne : n ≠ "") :
    t.findParent (d ++ n) = if n = "." ∨ n = ".." then .error .isDirectory else .ok (p ++ [n]) := by
  have hne' : d ++ n ≠ "" := fun h => hne (String.append_eq_empty_iff.mp h).2
  have hdir := directory_of_front? hd hp
  rw [front?] at hp
  simp only [findParent, hne', if_false, Path.splitName_append hd hn, start_front hd t hn, hp, bind,
    Except.bind, hdir, hne, false_or]
  split <;> rfl

theorem find_name (hp : t.front? d = .ok p) (hn : Path.IsName n) :
    t.find (d ++ n) = if (t.get? (p ++ [n])).isSome then .ok (p ++ [n]) else .error .noEntry := by
  rw [find_front hd t hn.slash_notMem hn.ne_empty, hp, ← follow_name (directory_of_front? hd hp) hn]
  rfl

theorem write_front (hp : t.front? d = .ok p) (hn : Path.IsName n) (content : ByteArray) :
    t.write (d ++ n) content = match t.get? (p ++ [n]) with
      | some .directory => .error .isDirectory
      | _ => .ok (t.put (p ++ [n]) (.file content)) := by
  have hf := findParent_front hd hp hn.slash_notMem hn.ne_empty
  rw [if_neg (not_or.mpr ⟨hn.ne_dot, hn.ne_dots⟩)] at hf
  rw [write, hf]
  rfl

theorem write_dots (hp : t.front? d = .ok p) (content : ByteArray) :
    t.write (d ++ "..") content = .error .isDirectory := by
  have hf := findParent_front (n := "..") hd hp (by decide) (by decide)
  rw [write, hf]
  rfl

end Front

theorem Valid.directory_dropLast (ht : t.Valid) (hp : t.get? p = some .directory) :
    t.get? p.dropLast = some .directory := by
  rcases p.eq_nil_or_concat with rfl | ⟨q, n, rfl⟩
  · exact hp
  · rw [List.concat_eq_append] at hp ⊢
    rw [List.dropLast_concat]
    exact ht.parent q n (by rw [hp]; rfl)

theorem front?_eq_ok_of_find (hd : Path.IsFront d) (hn : '/' ∉ n.toList) (hne : n ≠ "")
    (h : t.find (d ++ n) = .ok place) : ∃ p, t.front? d = .ok p ∧ t.follow p [n] = .ok place := by
  rw [find_front hd t hn hne] at h
  cases hp : t.front? d with
  | error f =>
    rw [hp] at h
    cases h
  | ok p =>
    rw [hp] at h
    exact ⟨p, rfl, h⟩

theorem exists_front_of_read (ht : t.Valid) {content : ByteArray} (h : t.read path = .ok content) :
    ∃ d n p, Path.IsFront d ∧ Path.IsName n ∧ path = d ++ n ∧ t.front? d = .ok p ∧
      t.find path = .ok (p ++ [n]) ∧ t.get? (p ++ [n]) = some (.file content) := by
  obtain ⟨place, hf, hfile⟩ := exists_find_of_read h
  have hno {q : List String} (hq : t.get? q = some .directory) : place ≠ q := by
    rintro rfl
    cases hfile.symm.trans hq
  obtain ⟨d, n, hd, hn, rfl⟩ := Path.exists_front path
  by_cases hne : n = ""
  · -- what ends with a slash leads to a directory
    subst hne
    rw [String.append_empty, find] at hf
    split at hf
    next => cases hf
    next => exact absurd rfl (hno (directory_of_front? hd hf))
  · obtain ⟨p, hp, hname⟩ := front?_eq_ok_of_find hd hn hne hf
    have hdir := directory_of_front? hd hp
    have hdot : n ≠ "." := by
      rintro rfl
      rw [follow, hdir] at hname
      cases hname
      exact hno hdir rfl
    have hdots : n ≠ ".." := by
      rintro rfl
      rw [follow, hdir] at hname
      cases hname
      exact hno (ht.directory_dropLast hdir) rfl
    have hname' : Path.IsName n := ⟨hne, hdot, hdots, hn⟩
    rw [follow_name hdir hname', ite_eq_iff] at hname
    obtain ⟨-, h⟩ | ⟨-, h⟩ := hname
    · cases h
      exact ⟨d, n, p, hd, hname', rfl, hp, hf, hfile⟩
    · cases h

section Listing

theorem isDirectory_iff : t.isDirectory path ↔ ∃ p, t.find path = .ok p ∧ t.get? p = some .directory := by
  rw [isDirectory]
  cases t.find path with
  | error f => simp
  | ok p =>
    cases h : t.get? p with
    | none => simp [h]
    | some e => cases e <;> simp [h]

theorem list_of_find (hf : t.find path = .ok p) (hp : t.get? p = some .directory) :
    t.list path = .ok (t.namesIn p) := by
  simp only [list, hf, bind, Except.bind, hp]
  rfl

theorem front?_front (hf : t.find path = .ok p) (hp : t.get? p = some .directory) :
    t.front? (Path.front path) = .ok p := by
  rw [find] at hf
  split at hf
  next => cases hf
  next hne =>
    have hs : t.start (Path.front path) = t.start path := by
      rw [start, start, Path.startsWith_of_directory hne]
    obtain hseg | hseg := Path.segments_front path
    · rw [front?, hs, hseg, hf]
    · rw [front?, hs, hseg, follow_append, hf]
      exact follow_empty hp

theorem isSome_get?_iff (hp : p ≠ []) : (t.get? p).isSome ↔ p ∈ t.entries.map Prod.fst := by
  rw [get?, if_neg hp, List.lookup_isSome_iff, List.mem_map]
  simp only [beq_iff_eq, @eq_comm _ p]

theorem nameIn_eq_some_iff : (if q ≠ [] ∧ q.dropLast = p then q.getLast? else none) = some n ↔ q = p ++ [n] := by
  rcases q.eq_nil_or_concat with rfl | ⟨q, m, rfl⟩
  · simp
  · simp

theorem namesIn_eq (t : FileTree) (p : List String) :
    t.namesIn p = (t.entries.map Prod.fst).filterMap fun q =>
      if q ≠ [] ∧ q.dropLast = p then q.getLast? else none := by
  rw [namesIn, List.filterMap_map]
  rfl

theorem mem_namesIn_iff : n ∈ t.namesIn p ↔ (t.get? (p ++ [n])).isSome := by
  rw [isSome_get?_iff (by simp), namesIn_eq, List.mem_filterMap]
  simp only [nameIn_eq_some_iff, exists_eq_right]

theorem Valid.nodup_namesIn (ht : t.Valid) (p : List String) : (t.namesIn p).Nodup := by
  rw [namesIn_eq]
  refine ht.nodup.filterMap fun q q' n hq hq' => ?_
  rw [nameIn_eq_some_iff.mp hq, nameIn_eq_some_iff.mp hq']

end Listing

section Overlay

/-- `t'` is `t` with these files stored in it, none of them in the place of a directory. -/
structure Overlay (t t' : FileTree) (files : List (List String × String)) : Prop where
  working : t'.workingDirectory = t.workingDirectory
  stored : ∀ place text, (place, text) ∈ files → t'.get? place = some (.file text.toUTF8)
  same : ∀ place, place ∉ files.map Prod.fst → t'.get? place = t.get? place
  free : ∀ place ∈ files.map Prod.fst, t.get? place ≠ some .directory

variable {files : List (List String × String)}

theorem Overlay.refl (t : FileTree) : Overlay t t [] :=
  ⟨rfl, fun _ _ h => (List.not_mem_nil h).elim, fun _ _ => rfl, fun _ h => (List.not_mem_nil h).elim⟩

namespace Overlay

variable (h : Overlay t t' files)

include h

theorem directory (hp : t.get? p = some .directory) : t'.get? p = some .directory := by
  rw [h.same p fun hm => h.free p hm hp, hp]

theorem isSome_get? (hp : (t.get? p).isSome) : (t'.get? p).isSome := by
  by_cases hm : p ∈ files.map Prod.fst
  · obtain ⟨⟨_, text⟩, hf, rfl⟩ := List.mem_map.mp hm
    rw [h.stored _ _ hf]
    rfl
  · rwa [h.same p hm]

theorem follow (hf : t.follow p xs = .ok q) : t'.follow p xs = .ok q := by
  induction xs generalizing p with
  | nil => exact hf
  | cons x xs ih =>
    by_cases hp : t.get? p = some .directory
    · rw [FileTree.follow, hp] at hf
      rw [FileTree.follow, h.directory hp]
      dsimp only at hf ⊢
      split_ifs at hf ⊢
      · exact ih hf
      · exact ih hf
      · exact ih hf
      · exact absurd (h.isSome_get? ‹(t.get? _).isSome›) ‹_›
    · rw [follow_cons_of_ne hp] at hf
      cases hf

theorem start (path : String) : t'.start path = t.start path := by
  rw [FileTree.start, FileTree.start, h.working]

theorem front? (hp : t.front? d = .ok p) : t'.front? d = .ok p := by
  rw [FileTree.front?, h.start]
  exact h.follow hp

theorem find (hf : t.find path = .ok place) : t'.find path = .ok place := by
  rw [FileTree.find] at hf ⊢
  split at hf
  next => cases hf
  next hne =>
    rw [if_neg hne, h.start]
    exact h.follow hf

theorem read_of_mem {text : String} (hf : t.find path = .ok place) (hm : (place, text) ∈ files) :
    t'.read path = .ok text.toUTF8 := by
  rw [read_of_find (h.find hf), h.stored place text hm]

theorem read_of_notMem (hf : t.find path = .ok place)
    (hm : place ∉ files.map Prod.fst) : t'.read path = t.read path := by
  rw [read_of_find (h.find hf), read_of_find hf, h.same place hm]

theorem put {text : String} (hp : p ≠ []) (hnew : p ∉ files.map Prod.fst)
    (hfree : t.get? p ≠ some .directory) :
    Overlay t (t'.put p (.file text.toUTF8)) (files ++ [(p, text)]) := by
  refine ⟨h.working, fun place text' hm => ?_, fun place hm => ?_, fun place hm => ?_⟩
  · obtain hm | hm := List.mem_append.mp hm
    · have hne : place ≠ p := fun he => hnew (he ▸ List.mem_map.mpr ⟨_, hm, rfl⟩)
      rw [get?_put_of_ne t' hne, h.stored place text' hm]
    · cases List.mem_singleton.mp hm
      exact get?_put_self t' hp _
  · rw [List.map_append, List.mem_append, not_or, List.map_singleton, List.mem_singleton] at hm
    rw [get?_put_of_ne t' hm.2, h.same place hm.1]
  · rw [List.map_append, List.mem_append, List.map_singleton, List.mem_singleton] at hm
    obtain hm | rfl := hm
    · exact h.free place hm
    · exact hfree

theorem write (hd : Path.IsFront d) (hp : t.front? d = .ok p) (hn : Path.IsName n)
    (hnew : p ++ [n] ∉ files.map Prod.fst) (text : String) :
    t.get? (p ++ [n]) = some .directory ∧ t'.write (d ++ n) text.toUTF8 = .error .isDirectory ∨
      t.get? (p ++ [n]) ≠ some .directory ∧ ∃ u, t'.write (d ++ n) text.toUTF8 = .ok u ∧
        Overlay t u (files ++ [(p ++ [n], text)]) := by
  have hw := write_front hd (h.front? hp) hn text.toUTF8
  rw [h.same _ hnew] at hw
  by_cases hdir : t.get? (p ++ [n]) = some .directory
  · rw [hdir] at hw
    exact .inl ⟨hdir, hw⟩
  · refine .inr ⟨hdir, t'.put (p ++ [n]) (.file text.toUTF8), ?_, h.put (by simp) hnew hdir⟩
    rw [hw]
    split
    next hc => exact absurd hc hdir
    next => rfl

end Overlay

end Overlay

end Jack.FileTree
