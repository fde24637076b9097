import Jack.Proofs.Files.Order
import Jack.Proofs.Files.Store

namespace Jack.CommandLine

open FileTree (Overlay)

section Arguments

variable {input : String} {xml : Bool} {arguments : List String} {o : Options}

/-- The arguments are these options, in any order: one path, and any number of times `--xml`. -/
def Options.Given (arguments : List String) (o : Options) : Prop :=
  ∃ before after, arguments = List.replicate before "--xml" ++ o.input :: List.replicate after "--xml" ∧
    o.input.startsWith "-" = false ∧ (o.xml = true ↔ before + after ≠ 0)

theorem startsWith_xml : "--xml".startsWith "-" = true := by
  rw [String.startsWith_string_iff]
  exact ⟨['-', 'x', 'm', 'l'], rfl⟩

theorem Options.readFrom_some_iff : readFrom (some input) xml arguments = .ok o ↔
    o.input = input ∧ ∃ k, arguments = List.replicate k "--xml" ∧ (o.xml = true ↔ xml = true ∨ k ≠ 0) := by
  induction arguments generalizing xml with
  | nil =>
    obtain ⟨i, x⟩ := o
    rw [readFrom, Except.ok.injEq, Options.mk.injEq]
    refine and_congr eq_comm ⟨?_, ?_⟩
    · rintro rfl
      exact ⟨0, rfl, by simp⟩
    · rintro ⟨k, hk, hx⟩
      obtain rfl : 0 = k := by simpa using congrArg List.length hk
      exact Bool.eq_iff_iff.mpr (by simpa using hx.symm)
  | cons a rest ih =>
    rw [readFrom, Option.isSome_some, if_pos rfl]
    split_ifs with ha hb
    · subst ha
      rw [ih]
      refine and_congr_right fun _ => ⟨?_, ?_⟩
      · rintro ⟨k, rfl, hx⟩
        exact ⟨k + 1, rfl, by simpa using hx⟩
      · rintro ⟨_ | k, hk, hx⟩
        · cases hk
        · exact ⟨k, (List.cons.inj hk).2, by simpa using hx⟩
    all_goals
      refine iff_of_false nofun ?_
      rintro ⟨-, _ | k, hk, -⟩
      · cases hk
      · exact ha (List.cons.inj hk).1

theorem Options.readFrom_none_iff : readFrom none xml arguments = .ok o ↔
    ∃ j k, arguments = List.replicate j "--xml" ++ o.input :: List.replicate k "--xml" ∧
      o.input.startsWith "-" = false ∧ (o.xml = true ↔ xml = true ∨ j + k ≠ 0) := by
  induction arguments generalizing xml with
  | nil => simp [readFrom]
  | cons a rest ih =>
    rw [readFrom]
    split_ifs with ha hb hc
    · subst ha
      rw [ih]
      constructor
      · rintro ⟨j, k, rfl, hi, hx⟩
        exact ⟨j + 1, k, rfl, hi, by simpa using hx⟩
      · rintro ⟨_ | j, k, hk, hi, hx⟩
        · rw [← (List.cons.inj hk).1, startsWith_xml] at hi
          cases hi
        · exact ⟨j, k, (List.cons.inj hk).2, hi, by simpa using hx⟩
    · refine iff_of_false nofun ?_
      rintro ⟨_ | j, k, hk, hi, -⟩
      · rw [← (List.cons.inj hk).1, hb] at hi
        cases hi
      · exact ha (List.cons.inj hk).1
    · cases hc
    · rw [readFrom_some_iff]
      constructor
      · rintro ⟨rfl, k, rfl, hx⟩
        exact ⟨0, k, rfl, by simpa using hb, by simpa using hx⟩
      · rintro ⟨_ | j, k, hk, hi, hx⟩
        · exact ⟨(List.cons.inj hk).1.symm, k, (List.cons.inj hk).2, by simpa using hx⟩
        · exact absurd (List.cons.inj hk).1 ha

theorem Options.ofArguments_iff : ofArguments arguments = .ok o ↔ Given arguments o := by
  rw [ofArguments, readFrom_none_iff, Given]
  simp

end Arguments

section Sources

variable {t : FileTree} {input n n' e : String} {p place : List String}

/-- The sources that a path stands for: itself, or what is right below a directory under a name with the
extension `jack`, in the order of the bytes of the names. -/
inductive SourcesOf (t : FileTree) (input : String) : List String → Prop where
  | itself : t.isDirectory input = false → SourcesOf t input [input]
  | within {p names : List String} : t.find input = .ok p → t.get? p = some .directory →
      names.Pairwise (Text.bytes · < Text.bytes ·) →
      (∀ n, n ∈ names ↔ (t.get? (p ++ [n])).isSome ∧ ∃ stem, stem ≠ "" ∧ n = stem ++ ".jack") →
      (∀ n ∈ names, t.find (Path.join input n) = .ok (p ++ [n])) →
      SourcesOf t input (names.map (Path.join input))

/-- The names of the sources right below a place, in their order. -/
def sourceNames (t : FileTree) (p : List String) : List String :=
  ((t.namesIn p).filter (Path.extension? · = some "jack")).mergeSort (· ≤ ·)

theorem mem_sourceNames_iff :
    n ∈ sourceNames t p ↔ (t.get? (p ++ [n])).isSome ∧ Path.extension? n = some "jack" := by
  rw [sourceNames, List.mem_mergeSort, List.mem_filter, FileTree.mem_namesIn_iff, decide_eq_true_iff]

theorem pairwise_sourceNames (ht : t.Valid) (p : List String) :
    (sourceNames t p).Pairwise (Text.bytes · < Text.bytes ·) := by
  have hsorted : (sourceNames t p).Pairwise (· ≤ ·) := by
    simpa [sourceNames] using @List.pairwise_mergeSort String (fun a b => decide (a ≤ b))
      (by simpa using fun _ _ _ => le_trans) (by simpa using le_total) _
  have hnodup : (sourceNames t p).Nodup :=
    (List.mergeSort_perm _ _).nodup_iff.mpr ((ht.nodup_namesIn p).filter _)
  exact (hsorted.and hnodup).imp fun ⟨hle, hne⟩ => Text.bytes_lt_iff.mpr (lt_of_le_of_ne hle hne)

theorem eq_of_perm_of_pairwise {names names' : List String} (h : names.Perm names')
    (hs : names.Pairwise (Text.bytes · < Text.bytes ·)) (hs' : names'.Pairwise (Text.bytes · < Text.bytes ·)) :
    names = names' :=
  h.eq_of_pairwise (fun _ _ _ _ hlt hgt => (List.lt_asymm hlt hgt).elim) hs hs'

theorem sourceNames_eq (ht : t.Valid) {names : List String}
    (h : ((t.namesIn p).filter (Path.extension? · = some "jack")).Perm names)
    (hs : names.Pairwise (Text.bytes · < Text.bytes ·)) : sourceNames t p = names :=
  eq_of_perm_of_pairwise ((List.mergeSort_perm _ _).trans h) (pairwise_sourceNames ht p) hs

theorem find_join (ht : t.Valid) (hf : t.find input = .ok p) (hp : t.get? p = some .directory)
    (hn : (t.get? (p ++ [n])).isSome) : t.find (Path.join input n) = .ok (p ++ [n]) := by
  rw [Path.join_eq, FileTree.find_name (Path.isFront_front input) (FileTree.front?_front hf hp) (ht.isName p n hn),
    if_pos hn]

theorem sourcesOf_sourceNames (ht : t.Valid) (hf : t.find input = .ok p) (hp : t.get? p = some .directory) :
    SourcesOf t input ((sourceNames t p).map (Path.join input)) := by
  refine .within hf hp (pairwise_sourceNames ht p) (fun n => ?_) fun n hn => ?_
  · rw [mem_sourceNames_iff, Path.extension?_eq_some_iff (by decide)]
    simp only [String.append_assoc]
    rfl
  · exact find_join ht hf hp (mem_sourceNames_iff.mp hn).1

theorem SourcesOf.unique {paths paths' : List String} (h : SourcesOf t input paths)
    (h' : SourcesOf t input paths') : paths = paths' := by
  cases h with
  | itself hd =>
    cases h' with
    | itself _ => rfl
    | within hf hp _ _ _ => cases hd.symm.trans (FileTree.isDirectory_iff.mpr ⟨_, hf, hp⟩)
  | within hf hp hs hm _ =>
    cases h' with
    | itself hd => cases hd.symm.trans (FileTree.isDirectory_iff.mpr ⟨_, hf, hp⟩)
    | within hf' _ hs' hm' _ =>
      cases hf.symm.trans hf'
      have hmem (n : String) := (hm n).trans (hm' n).symm
      have hnodup {names : List String} (h : names.Pairwise (Text.bytes · < Text.bytes ·)) : names.Nodup := by
        refine h.imp fun {n n'} hlt he => ?_
        rw [he] at hlt
        exact List.lt_irrefl _ hlt
      have hperm := (List.perm_ext_iff_of_nodup (hnodup hs) (hnodup hs')).mpr hmem
      rw [eq_of_perm_of_pairwise hperm hs hs']

theorem onTree_sources_itself (h : t.isDirectory input = false) :
    onTree (sources input) t = (.ok [input], t) := by
  have hd : (FileSystem.isDirectory input : StateM FileTree Bool).run t = (t.isDirectory input, t) := rfl
  rw [sources, onTree_bind, onTree_lift, hd, h]
  rfl

theorem onTree_sources_within (hf : t.find input = .ok p) (hp : t.get? p = some .directory) :
    onTree (sources input) t =
      (if sourceNames t p = [] then .error (.noSources input) else .ok ((sourceNames t p).map (Path.join input)), t) := by
  have hd : (FileSystem.isDirectory input : StateM FileTree Bool).run t = (t.isDirectory input, t) := rfl
  have hl : (FileSystem.list input : StateM FileTree _).run t = (t.list input, t) := rfl
  rw [sources, onTree_bind, onTree_lift, hd, FileTree.isDirectory_iff.mpr ⟨p, hf, hp⟩]
  dsimp only
  rw [if_pos rfl, onTree_bind, onTree_lift, hl, FileTree.list_of_find hf hp]
  dsimp only
  rw [← sourceNames]
  cases sourceNames t p <;> rfl

end Sources

section Loop

/-- Sources of the tree `t` are handled in their order, and the first that fails is the last: so many files
are stored by then, and this is the status. -/
inductive Handled (t : FileTree) (xml : Bool) :
    List String → List (List String × String) → UInt32 → Prop where
  | all {done outs} : List.Forall₂ (Stores t xml) done outs → Handled t xml done outs.flatten 0
  | upTo {done outs bad last} (later : List String) : List.Forall₂ (Stores t xml) done outs →
      Fails t xml bad last → Handled t xml (done ++ bad :: later) (outs.flatten ++ last) 1

def Owns (t : FileTree) (path : String) (place : List String) : Prop :=
  t.find path = .ok place ∨ ∃ e ∈ extensions, t.beside? path e = some place

variable {t t' : FileTree} {xml : Bool} {path input n n' : String} {paths : List String} {p place : List String}
  {outs files : List (List String × String)} {status : UInt32}

theorem Handled.cons (hs : Stores t xml path outs) (h : Handled t xml paths files status) :
    Handled t xml (path :: paths) (outs ++ files) status := by
  cases h with
  | all h => exact .all (.cons hs h)
  | upTo later h hf =>
    rw [← List.append_assoc]
    exact .upTo later (.cons hs h) hf

theorem Handled.of_fails (hf : Fails t xml path outs) (later : List String) :
    Handled t xml (path :: later) outs 1 :=
  .upTo later .nil hf

theorem Handled.cases_cons (h : Handled t xml (path :: paths) files status) :
    (∃ outs rest, Stores t xml path outs ∧ Handled t xml paths rest status ∧ files = outs ++ rest) ∨
      (Fails t xml path files ∧ status = 1) := by
  generalize hl : path :: paths = l at h
  cases h with
  | all h =>
    subst hl
    obtain _ | ⟨hs, h⟩ := h
    exact .inl ⟨_, _, hs, .all h, rfl⟩
  | upTo later h hf =>
    cases h with
    | nil =>
      cases hl
      exact .inr ⟨hf, rfl⟩
    | cons hs h =>
      cases hl
      exact .inl ⟨_, _, hs, .upTo later h hf, by rw [List.flatten_cons, List.append_assoc]⟩

/-- Sources that keep out of each other's places are handled one after the other. -/
theorem forM_compileFile (ht : t.Valid) (hfind : ∀ q ∈ paths, ∃ place, t.find q = .ok place)
    (hpaths : paths.Pairwise fun q q' => ∀ e ∈ extensions, ∀ place, t.beside? q e = some place → ¬ Owns t q' place)
    (h : Overlay t t' files) (hfiles : ∀ q ∈ paths, ∀ place ∈ files.map Prod.fst, ¬ Owns t q place) :
    ∃ outs, Handled t xml paths outs (exitStatus (onTree (paths.forM (compileFile xml)) t').1) ∧
      Overlay t (onTree (paths.forM (compileFile xml)) t').2 (files ++ outs) := by
  induction paths generalizing t' files with
  | nil => exact ⟨[], .all .nil, by rwa [List.append_nil]⟩
  | cons q qs ih =>
    obtain ⟨place, hq⟩ := hfind q (List.mem_cons_self ..)
    have hown := hfiles q (List.mem_cons_self ..)
    have htext := h.text hq fun hm => hown place hm (.inl hq)
    rw [List.forM, onTree_bind]
    obtain ⟨outs, u, hs, hrun, hu⟩ | ⟨outs, f, u, hf, hrun, hu⟩ :=
      compileFile_cases xml q ht h htext fun e he place hp hm => hown place hm (.inr ⟨e, he, hp⟩)
    · rw [hrun]
      dsimp only
      rw [List.pairwise_cons] at hpaths
      have hfiles' : ∀ q' ∈ qs, ∀ place ∈ (files ++ outs).map Prod.fst, ¬ Owns t q' place := by
        intro q' hq' place hm
        rw [List.map_append, List.mem_append] at hm
        obtain hm | hm := hm
        · exact hfiles q' (List.mem_cons_of_mem _ hq') place hm
        · obtain ⟨e, he, hp⟩ := hs.beside hm
          exact hpaths.1 q' hq' e he place hp
      obtain ⟨outs', hh, ho⟩ := ih (fun q' hq' => hfind q' (List.mem_cons_of_mem _ hq')) hpaths.2 hu hfiles'
      exact ⟨outs ++ outs', hh.cons hs, by rwa [← List.append_assoc]⟩
    · rw [hrun]
      exact ⟨outs, .of_fails hf qs, hu⟩

theorem not_owns_of_ne (hf : t.find (Path.join input n) = .ok (p ++ [n]))
    (hf' : t.find (Path.join input n') = .ok (p ++ [n'])) (hn : Path.extension? n = some "jack")
    (hn' : Path.extension? n' = some "jack") (hne : n ≠ n') {e : String} (he : e ∈ extensions)
    (h : t.beside? (Path.join input n) e = some place) : ¬ Owns t (Path.join input n') place := by
  have hempty {x : String} (hx : Path.extension? x = some "jack") : x ≠ "" := by
    rintro rfl
    cases hx
  obtain ⟨m, hm, -, rfl⟩ := (FileTree.beside?_eq_some_iff hf).mp h
  have hme := Path.extension?_of_rename? (hempty hn) (isExtension_of_mem he).dot_notMem hm
  rintro (h' | ⟨e', he', h'⟩)
  · obtain rfl : n' = m := by simpa using hf'.symm.trans h'
    cases hn'.symm.trans hme
    exact absurd he (by decide)
  · obtain ⟨m', hm', -, heq⟩ := (FileTree.beside?_eq_some_iff hf').mp h'
    obtain rfl : m = m' := by simpa using heq
    have hme' := Path.extension?_of_rename? (hempty hn') (isExtension_of_mem he').dot_notMem hm'
    cases hme.symm.trans hme'
    exact hne (Path.rename?_injective hn hn' hm hm')

theorem forM_singleton (ht : t.Valid) :
    ∃ files, Handled t xml [path] files (exitStatus (onTree ([path].forM (compileFile xml)) t).1) ∧
      Overlay t (onTree ([path].forM (compileFile xml)) t).2 files := by
  rw [List.forM, onTree_bind]
  obtain ⟨outs, u, hs, hrun, hu⟩ | ⟨outs, f, u, hf, hrun, hu⟩ :=
    compileFile_cases xml path ht (.refl t) rfl fun _ _ _ _ => List.not_mem_nil
  · rw [hrun]
    refine ⟨_, (Handled.all .nil).cons hs, ?_⟩
    rw [List.flatten_nil, List.append_nil]
    exact hu
  · rw [hrun]
    exact ⟨outs, .of_fails hf [], hu⟩

theorem forM_sourceNames (ht : t.Valid) (hf : t.find input = .ok p) (hp : t.get? p = some .directory) :
    ∃ files, Handled t xml ((sourceNames t p).map (Path.join input)) files
        (exitStatus (onTree (((sourceNames t p).map (Path.join input)).forM (compileFile xml)) t).1) ∧
      Overlay t (onTree (((sourceNames t p).map (Path.join input)).forM (compileFile xml)) t).2 files := by
  have hfind {n : String} (hn : n ∈ sourceNames t p) : t.find (Path.join input n) = .ok (p ++ [n]) :=
    find_join ht hf hp (mem_sourceNames_iff.mp hn).1
  refine forM_compileFile ht (fun q hq => ?_) ?_ (.refl t) fun _ _ _ hm => absurd hm List.not_mem_nil
  · obtain ⟨n, hn, rfl⟩ := List.mem_map.mp hq
    exact ⟨_, hfind hn⟩
  · rw [List.pairwise_map]
    refine (pairwise_sourceNames ht p).imp_of_mem fun {n n'} hn hn' hlt e he place h => ?_
    have hne : n ≠ n' := by
      rintro rfl
      exact List.lt_irrefl _ hlt
    exact not_owns_of_ne (hfind hn) (hfind hn') (mem_sourceNames_iff.mp hn).2 (mem_sourceNames_iff.mp hn').2 hne he h

end Loop

theorem onTree_run (arguments : List String) (t : FileTree) :
    onTree (run arguments) t = match Options.ofArguments arguments with
      | .error f => (.error f, t)
      | .ok o => onTree (sources o.input >>= fun paths => paths.forM (compileFile o.xml)) t := by
  have h : onTree (liftM (Options.ofArguments arguments)) t = (Options.ofArguments arguments, t) := rfl
  rw [run, onTree_bind, h]
  cases Options.ofArguments arguments <;> rfl

/-- A run stores the files of the sources in front of the first that fails, and changes nothing else. -/
theorem sources_stored_up_to_failure {t : FileTree} (ht : t.Valid) (arguments : List String) :
    let result := onTree (run arguments) t
    ((¬ ∃ o, Options.Given arguments o) → exitStatus result.1 = 1 ∧ result.2 = t) ∧
    ∀ o, Options.Given arguments o → ∃ paths, SourcesOf t o.input paths ∧
      (paths = [] → exitStatus result.1 = 1 ∧ result.2 = t) ∧
      (paths ≠ [] → ∃ files, Handled t o.xml paths files (exitStatus result.1) ∧
        Overlay t result.2 files) := by
  intro result
  have hrun : result = _ := onTree_run arguments t
  constructor
  · intro hno
    cases hx : Options.ofArguments arguments with
    | error f =>
      rw [hx] at hrun
      rw [hrun]
      exact ⟨rfl, rfl⟩
    | ok o => exact absurd ⟨o, Options.ofArguments_iff.mp hx⟩ hno
  · intro o ho
    rw [Options.ofArguments_iff.mpr ho] at hrun
    dsimp only at hrun
    rw [hrun]
    clear hrun result
    by_cases hd : ∃ p, t.find o.input = .ok p ∧ t.get? p = some .directory
    · obtain ⟨p, hf, hp⟩ := hd
      refine ⟨_, sourcesOf_sourceNames ht hf hp, fun hno => ?_, fun hne => ?_⟩
      · rw [onTree_bind, onTree_sources_within hf hp, if_pos (List.map_eq_nil_iff.mp hno)]
        exact ⟨rfl, rfl⟩
      · rw [onTree_bind, onTree_sources_within hf hp, if_neg fun h => hne (List.map_eq_nil_iff.mpr h)]
        exact forM_sourceNames ht hf hp
    · have hd' := Bool.eq_false_iff.mpr (mt FileTree.isDirectory_iff.mp hd)
      refine ⟨_, .itself hd', nofun, fun _ => ?_⟩
      rw [onTree_bind, onTree_sources_itself hd']
      exact forM_singleton ht

/-- A directory of three classes, the second of which does not compile, and of a text that is no class. -/
def shelf : FileTree :=
  let tree : FileTree := (⟨[], []⟩ : FileTree).put ["shelf"] .directory
  let tree := tree.put ["shelf", "C.jack"] (.file "class C {}".toUTF8)
  let tree := tree.put ["shelf", "notes"] (.file "A class a day".toUTF8)
  let tree := tree.put ["shelf", "A.jack"] (.file "class A { function void f() { return; } }".toUTF8)
  tree.put ["shelf", "B.jack"] (.file "class B { let }".toUTF8)

theorem shelf_valid : shelf.Valid := by
  have hroot : ((⟨[], []⟩ : FileTree).put ["shelf"] .directory).Valid :=
    (FileTree.Valid.empty []).put (p := []) (n := "shelf") rfl ⟨by decide, by decide, by decide, by decide⟩ rfl _
  have hc := hroot.put (p := ["shelf"]) (n := "C.jack") rfl ⟨by decide, by decide, by decide, by decide⟩ rfl
    (.file "class C {}".toUTF8)
  have hnotes := hc.put (p := ["shelf"]) (n := "notes") rfl ⟨by decide, by decide, by decide, by decide⟩ rfl
    (.file "A class a day".toUTF8)
  have ha := hnotes.put (p := ["shelf"]) (n := "A.jack") rfl ⟨by decide, by decide, by decide, by decide⟩ rfl
    (.file "class A { function void f() { return; } }".toUTF8)
  exact ha.put (p := ["shelf"]) (n := "B.jack") rfl ⟨by decide, by decide, by decide, by decide⟩ rfl _

theorem shelf_a_stores {outs : List (List String × String)} :
    (Stores shelf false "shelf/A.jack" outs →
      outs = [(["shelf", "A.vm"], "function A.f 0\npush constant 0\nreturn\n")]) ∧
      ¬ Fails shelf false "shelf/A.jack" outs := by
  have htext : shelf.text "shelf/A.jack" = .ok "class A { function void f() { return; } }" := by decide +kernel
  have hplace : shelf.beside? "shelf/A.jack" "vm" = some ["shelf", "A.vm"] := by decide +kernel
  have hcompiled : (compile false "class A { function void f() { return; } }").map (·.vmText) =
      .ok "function A.f 0\npush constant 0\nreturn\n" := by decide +kernel
  refine ⟨fun h => ?_, fun h => ?_⟩
  · cases h with
    | code hx hc _ hp =>
      cases htext.symm.trans hx
      cases hplace.symm.trans hp
      rw [hc] at hcompiled
      exact congrArg (fun text => [(_, text)]) (Except.ok.inj hcompiled)
    | trace _ _ hxml => cases hxml
  · cases h with
    | unread hx => cases htext.symm.trans hx
    | uncompiled hx hc =>
      cases htext.symm.trans hx
      rw [hc] at hcompiled
      cases hcompiled
    | uncoded _ _ hp => cases hplace.symm.trans hp
    | untraced _ _ hxml => cases hxml

theorem shelf_b_fails {outs : List (List String × String)} :
    ¬ Stores shelf false "shelf/B.jack" outs ∧ (Fails shelf false "shelf/B.jack" outs → outs = []) := by
  have htext : shelf.text "shelf/B.jack" = .ok "class B { let }" := by decide +kernel
  have hcompiled : (compile false "class B { let }").isOk = false := by decide +kernel
  have hnone {p : Compiled} : compile false "class B { let }" ≠ .ok p := fun hc => by
    rw [hc] at hcompiled
    cases hcompiled
  refine ⟨fun h => ?_, fun h => ?_⟩
  · cases h with
    | code hx hc =>
      cases htext.symm.trans hx
      exact hnone hc
    | trace _ _ hxml => cases hxml
  · cases h with
    | unread | uncompiled | uncoded => rfl
    | untraced _ _ hxml => cases hxml

theorem shelf_stored :
    shelf.Valid ∧ Options.Given ["shelf"] ⟨"shelf", false⟩ ∧
      SourcesOf shelf "shelf" ["shelf/A.jack", "shelf/B.jack", "shelf/C.jack"] ∧
      let result := onTree (run ["shelf"]) shelf
      exitStatus result.1 = 1 ∧
        Overlay shelf result.2 [(["shelf", "A.vm"], "function A.f 0\npush constant 0\nreturn\n")] := by
  have hgiven : Options.Given ["shelf"] ⟨"shelf", false⟩ := ⟨0, 0, rfl, by decide +kernel, by decide⟩
  have hsources : SourcesOf shelf "shelf" ["shelf/A.jack", "shelf/B.jack", "shelf/C.jack"] := by
    have hnames : sourceNames shelf ["shelf"] = ["A.jack", "B.jack", "C.jack"] :=
      sourceNames_eq shelf_valid (by decide +kernel) (by decide +kernel)
    have hs : SourcesOf shelf "shelf" ((sourceNames shelf ["shelf"]).map (Path.join "shelf")) :=
      sourcesOf_sourceNames shelf_valid (by decide +kernel) rfl
    have hpaths : ["A.jack", "B.jack", "C.jack"].map (Path.join "shelf") =
        ["shelf/A.jack", "shelf/B.jack", "shelf/C.jack"] := by decide +kernel
    rwa [hnames, hpaths] at hs
  obtain ⟨paths, hs, -, h⟩ := (sources_stored_up_to_failure shelf_valid ["shelf"]).2 _ hgiven
  obtain rfl := hs.unique hsources
  obtain ⟨files, hh, ho⟩ := h (List.cons_ne_nil _ _)
  refine ⟨shelf_valid, hgiven, hsources, ?_⟩
  obtain ⟨outs, rest, ha, hrest, rfl⟩ | ⟨ha, -⟩ := hh.cases_cons
  · obtain ⟨_, _, hb, -, -⟩ | ⟨hb, hstatus⟩ := hrest.cases_cons
    · exact (shelf_b_fails.1 hb).elim
    · obtain rfl := shelf_b_fails.2 hb
      obtain rfl := shelf_a_stores.1 ha
      exact ⟨hstatus, ho⟩
  · exact (shelf_a_stores.2 ha).elim

end Jack.CommandLine
