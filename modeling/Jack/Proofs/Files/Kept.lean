import Jack.Proofs.Files.Run
import Jack.Proofs.Openings

namespace Jack

open FileTree (Overlay)

namespace Path

variable {d n extension : String}

/-- The path ends in a name with this extension, of which more is left without it than a dot. -/
def Bears (path extension : String) : Prop :=
  ∃ d stem, IsFront d ∧ '/' ∉ stem.toList ∧ stem ≠ "" ∧ stem ≠ "." ∧ path = d ++ (stem ++ "." ++ extension)

theorem bears_front_iff (hd : IsFront d) (hn : '/' ∉ n.toList) (he : IsExtension extension) :
    Bears (d ++ n) extension ↔ rename? n extension = some n := by
  rw [rename?_eq_self_iff he.dot_notMem]
  constructor
  · rintro ⟨d', stem, hd', hslash, hs, hdot, h⟩
    have hn' : '/' ∉ (stem ++ "." ++ extension).toList := by
      simp [hslash, he.slash_notMem]
    have hsplit := splitName_append hd hn
    rw [h, splitName_append hd' hn'] at hsplit
    exact ⟨stem, hs, hdot, (congrArg Prod.snd hsplit).symm⟩
  · rintro ⟨stem, hs, hdot, rfl⟩
    refine ⟨d, stem, hd, fun hm => hn ?_, hs, hdot, rfl⟩
    simp [hm]

theorem Bears.eq_of_append {x e e' : String} (h : Bears (x ++ "." ++ e') e) (he : '.' ∉ e.toList)
    (he' : '.' ∉ e'.toList) : e = e' := by
  obtain ⟨d, stem, -, -, -, -, h⟩ := h
  rw [← String.append_assoc, ← String.append_assoc] at h
  exact (eq_of_append_dot he' he h).symm

end Path

namespace FileTree

variable {t : FileTree} {path extension : String} {place : List String} {content : ByteArray}

/-- A source is stored in its own place just if it is named so. -/
theorem beside?_eq_self_iff (ht : t.Valid) (hr : t.read path = .ok content) (hf : t.find path = .ok place)
    (he : Path.IsExtension extension) : t.beside? path extension = some place ↔ Path.Bears path extension := by
  obtain ⟨d, n, p, hd, hn, rfl, -, hf', hfile⟩ := exists_front_of_read ht hr
  cases hf'.symm.trans hf
  rw [beside?_eq_some_iff hf', Path.bears_front_iff hd hn.slash_notMem he]
  constructor
  · rintro ⟨m, hm, -, heq⟩
    obtain rfl : n = m := by simpa using heq
    exact hm
  · intro h
    exact ⟨n, h, by simp [hfile], rfl⟩

end FileTree

namespace CommandLine

variable {t : FileTree} {xml : Bool} {path text input : String} {paths : List String} {p place : List String}
  {files : List (List String × String)} {status : UInt32} {content : ByteArray} {arguments : List String}
  {o : Options}

/-- The text is stored for a source in the place of the source itself: it is the code of a source that is
named like code, or the trace of one that is named like a trace. -/
inductive Replaced (t : FileTree) (xml : Bool) (path : String) : String → Prop where
  | code {text : String} {p : Compiled} : Path.Bears path "vm" → t.text path = .ok text →
      compile xml text = .ok p → Replaced t xml path p.vmText
  | trace {text : String} {p : Compiled} {code : List String} : xml = true → Path.Bears path "xml" →
      t.text path = .ok text → compile xml text = .ok p → t.beside? path "vm" = some code →
      Replaced t xml path p.xmlText

theorem Replaced.exists_compiled (h : Replaced t xml path text) :
    ∃ source p, t.text path = .ok source ∧ compile xml source = .ok p ∧ (text = p.vmText ∨ text = p.xmlText) := by
  cases h with
  | code _ hs hc => exact ⟨_, _, hs, hc, .inl rfl⟩
  | trace _ _ hs hc _ => exact ⟨_, _, hs, hc, .inr rfl⟩

theorem Replaced.compile_ne_ok (h : Replaced t xml path text) (recorded : Bool) (q : Compiled) :
    compile recorded text ≠ .ok q := by
  obtain ⟨source, p, -, hc, htext⟩ := h.exists_compiled
  exact compile_stored_ne_ok hc htext recorded q

theorem Replaced.read_ne (h : Replaced t xml path text) : t.read path ≠ .ok text.toUTF8 := by
  obtain ⟨source, p, hs, hc, -⟩ := h.exists_compiled
  intro hr
  cases hs.symm.trans (FileTree.text_of_read hr)
  exact h.compile_ne_ok xml p hc

theorem Replaced.path_ne {x : String} (h : Replaced t xml path text) : path ≠ x ++ ".jack" := by
  have hne {e : String} (he : e ∈ extensions) (hb : Path.Bears path e) : path ≠ x ++ ".jack" := by
    rintro rfl
    have hjack : x ++ ".jack" = x ++ "." ++ "jack" := by
      rw [String.append_assoc]
      rfl
    rw [hjack] at hb
    obtain rfl := hb.eq_of_append (isExtension_of_mem he).dot_notMem (by decide)
    exact absurd he (by decide)
  cases h with
  | code hb => exact hne (by decide) hb
  | trace _ hb => exact hne (by decide) hb

section Stored

theorem exists_source_of_stored {outs : List (List (List String × String))}
    (h : List.Forall₂ (Stores t xml) paths outs) (hp : place ∈ outs.flatten.map Prod.fst) :
    ∃ q ∈ paths, ∃ e ∈ extensions, t.beside? q e = some place := by
  induction h with
  | nil => cases hp
  | cons hs _ ih =>
    rw [List.flatten_cons, List.map_append, List.mem_append] at hp
    obtain hp | hp := hp
    · exact ⟨_, List.mem_cons_self, hs.beside hp⟩
    · obtain ⟨q, hq, h⟩ := ih hp
      exact ⟨q, List.mem_cons_of_mem _ hq, h⟩

theorem Handled.exists_source (h : Handled t xml paths files status) (hp : place ∈ files.map Prod.fst) :
    ∃ q ∈ paths, ∃ e ∈ extensions, t.beside? q e = some place := by
  cases h with
  | all hs => exact exists_source_of_stored hs hp
  | upTo later hs hf =>
    rw [List.map_append, List.mem_append] at hp
    obtain hp | hp := hp
    · obtain ⟨q, hq, h⟩ := exists_source_of_stored hs hp
      exact ⟨q, List.mem_append_left _ hq, h⟩
    · exact ⟨_, List.mem_append_right _ List.mem_cons_self, hf.beside hp⟩

theorem Handled.single (h : Handled t xml [path] files status) :
    Stores t xml path files ∨ Fails t xml path files := by
  generalize hpaths : [path] = paths at h
  cases h with
  | all hs =>
    subst hpaths
    obtain ⟨files, -, hs, ⟨⟩, rfl⟩ := List.forall₂_cons_left_iff.mp hs
    exact .inl (by simpa using hs)
  | @upTo done _ _ _ later hs hf =>
    cases done with
    | nil =>
      obtain ⟨rfl, -⟩ := List.cons.inj hpaths
      cases hs
      exact .inr hf
    | cons q done => simp at hpaths

/-- Of a source that is compiled the code is stored if there is a place for it, and then the trace if it is
asked for and there is a place for it too. -/
theorem mem_files_iff (h : Stores t xml path files ∨ Fails t xml path files) :
    (place, text) ∈ files ↔ ∃ source p, t.text path = .ok source ∧ compile xml source = .ok p ∧
      (t.beside? path "vm" = some place ∧ text = p.vmText ∨
        xml = true ∧ (∃ code, t.beside? path "vm" = some code) ∧ t.beside? path "xml" = some place ∧
          text = p.xmlText) := by
  obtain h | h := h
  · cases h with
    | code hs hc hx hcode =>
      subst hx
      simp [hs, hc, hcode, @eq_comm _ place]
    | trace hs hc hx hcode htrace =>
      subst hx
      simp [hs, hc, hcode, htrace, @eq_comm _ place]
  · cases h with
    | unread hs => simp [hs]
    | uncompiled hs hc => simp [hs, hc]
    | uncoded hs hc hcode => simp [hs, hcode]
    | untraced hs hc _ hcode htrace => simp [hs, hc, hcode, htrace, @eq_comm _ place]

theorem mem_files_iff_replaced (ht : t.Valid) (hr : t.read path = .ok content) (hf : t.find path = .ok place)
    (h : Stores t xml path files ∨ Fails t xml path files) :
    (place, text) ∈ files ↔ Replaced t xml path text := by
  have hself {e : String} (he : e ∈ extensions) : t.beside? path e = some place ↔ Path.Bears path e :=
    FileTree.beside?_eq_self_iff ht hr hf (isExtension_of_mem he)
  have hvm := hself (e := "vm") (by decide)
  have hxml := hself (e := "xml") (by decide)
  rw [mem_files_iff h]
  constructor
  · rintro ⟨source, p, hs, hc, ⟨hcode, rfl⟩ | ⟨hx, ⟨code, hcode⟩, htrace, rfl⟩⟩
    · exact .code (hvm.mp hcode) hs hc
    · exact .trace hx (hxml.mp htrace) hs hc hcode
  · rintro (⟨hb, hs, hc⟩ | ⟨hx, hb, hs, hc, hcode⟩)
    · exact ⟨_, _, hs, hc, .inl ⟨hvm.mpr hb, rfl⟩⟩
    · exact ⟨_, _, hs, hc, .inr ⟨hx, ⟨_, hcode⟩, hxml.mpr hb, rfl⟩⟩

end Stored

section Runs

theorem onTree_run_itself (ho : Options.Given arguments o) (hd : t.isDirectory o.input = false) :
    onTree (run arguments) t = onTree ([o.input].forM (compileFile o.xml)) t := by
  rw [onTree_run, Options.ofArguments_iff.mpr ho]
  dsimp only
  rw [onTree_bind, onTree_sources_itself hd]

theorem onTree_run_within (ho : Options.Given arguments o) (hf : t.find o.input = .ok p)
    (hp : t.get? p = some .directory) (hne : sourceNames t p ≠ []) :
    onTree (run arguments) t =
      onTree (((sourceNames t p).map (Path.join o.input)).forM (compileFile o.xml)) t := by
  rw [onTree_run, Options.ofArguments_iff.mpr ho]
  dsimp only
  rw [onTree_bind, onTree_sources_within hf hp, if_neg hne]

theorem not_mem_files_of_source (ht : t.Valid) (hf : t.find input = .ok p) (hp : t.get? p = some .directory)
    (h : Handled t xml ((sourceNames t p).map (Path.join input)) files status) {stem : String}
    (hstem : stem ≠ "") : p ++ [stem ++ ".jack"] ∉ files.map Prod.fst := by
  intro hm
  obtain ⟨q, hq, e, he, hbeside⟩ := h.exists_source hm
  obtain ⟨n, hn, rfl⟩ := List.mem_map.mp hq
  obtain ⟨hsome, hjack⟩ := mem_sourceNames_iff.mp hn
  obtain ⟨m, hrename, -, heq⟩ := (FileTree.beside?_eq_some_iff (find_join ht hf hp hsome)).mp hbeside
  obtain rfl : stem ++ ".jack" = m := by simpa using heq
  have hn₀ : n ≠ "" := by
    rintro rfl
    cases hjack
  have hext := Path.extension?_of_rename? hn₀ (isExtension_of_mem he).dot_notMem hrename
  cases (Path.extension?_jack hstem).symm.trans hext
  exact absurd he (by decide)

theorem SourcesOf.exists_append (hs : SourcesOf t input paths) (hd : t.isDirectory input = true)
    (hq : path ∈ paths) : ∃ x, path = x ++ ".jack" := by
  cases hs with
  | itself hno =>
    rw [hd] at hno
    cases hno
  | within _ _ _ hnames =>
    obtain ⟨n, hn, rfl⟩ := List.mem_map.mp hq
    obtain ⟨-, stem, -, rfl⟩ := (hnames n).mp hn
    exact ⟨Path.front input ++ stem, by rw [Path.join_eq, String.append_assoc]⟩

theorem exists_files_of_run (ht : t.Valid) (ho : Options.Given arguments o) (hs : SourcesOf t o.input paths)
    (hq : path ∈ paths) (hr : t.read path = .ok content) (hf : t.find path = .ok place) :
    ∃ files, Overlay t (onTree (run arguments) t).2 files ∧
      ∀ text, (place, text) ∈ files ↔ Replaced t o.xml path text := by
  have hs' := hs
  cases hs with
  | itself hd =>
    obtain rfl := List.mem_singleton.mp hq
    obtain ⟨files, hh, hu⟩ : ∃ files, Handled t o.xml [o.input] files _ ∧ Overlay t _ files := forM_singleton ht
    rw [← onTree_run_itself ho hd] at hh hu
    exact ⟨files, hu, fun text => mem_files_iff_replaced ht hr hf hh.single⟩
  | @within p names hfi hp hsorted hnames hfind =>
    obtain ⟨x, hx⟩ := hs'.exists_append (FileTree.isDirectory_iff.mpr ⟨p, hfi, hp⟩) hq
    obtain ⟨n, hn, rfl⟩ := List.mem_map.mp hq
    cases hf.symm.trans (hfind n hn)
    obtain ⟨hsome, stem, hstem, rfl⟩ := (hnames n).mp hn
    have hne : sourceNames t p ≠ [] :=
      List.ne_nil_of_mem (mem_sourceNames_iff.mpr ⟨hsome, Path.extension?_jack hstem⟩)
    obtain ⟨files, hh, hu⟩ : ∃ files, Handled t o.xml _ files _ ∧ Overlay t _ files :=
      forM_sourceNames ht hfi hp
    rw [← onTree_run_within ho hfi hp hne] at hh hu
    refine ⟨files, hu, fun text => iff_of_false (fun hm => ?_) fun h => h.path_ne hx⟩
    exact not_mem_files_of_source ht hfi hp hh hstem (List.mem_map.mpr ⟨_, hm, rfl⟩)

end Runs

/-- A run leaves a source as it was, unless the source is named like what is stored for it. Then that is in
the place of the source, and no class can be compiled from it. A source in a directory, or any that is named
like a source, is always left as it was. -/
theorem sources_are_kept_iff (ht : t.Valid) (ho : Options.Given arguments o) (hs : SourcesOf t o.input paths)
    (hq : path ∈ paths) (hr : t.read path = .ok content) :
    let after := (onTree (run arguments) t).2
    (after.read path = .ok content ↔ ∀ text, ¬ Replaced t o.xml path text) ∧
    (∀ text, Replaced t o.xml path text →
      after.read path = .ok text.toUTF8 ∧ ∀ recorded q, compile recorded text ≠ .ok q) ∧
    (t.isDirectory o.input = true ∨ (∃ x, path = x ++ ".jack") → after.read path = .ok content) := by
  intro after
  obtain ⟨place, hf, -⟩ := FileTree.exists_find_of_read hr
  obtain ⟨files, hu, hfiles⟩ := exists_files_of_run ht ho hs hq hr hf
  have hreplaced {text : String} (h : Replaced t o.xml path text) : after.read path = .ok text.toUTF8 :=
    hu.read_of_mem hf ((hfiles text).mpr h)
  have hkept (h : ∀ text, ¬ Replaced t o.xml path text) : after.read path = .ok content := by
    rw [← hr]
    refine hu.read_of_notMem hf fun hm => ?_
    obtain ⟨⟨_, text⟩, hmem, rfl⟩ := List.mem_map.mp hm
    exact h text ((hfiles text).mp hmem)
  refine ⟨⟨fun hsame text h => ?_, hkept⟩, fun text h => ⟨hreplaced h, h.compile_ne_ok⟩, fun hjack => ?_⟩
  · exact h.read_ne (hr.trans (hsame.symm.trans (hreplaced h)))
  · obtain ⟨x, hx⟩ : ∃ x, path = x ++ ".jack" := hjack.elim (fun hd => hs.exists_append hd hq) id
    exact hkept fun text h => h.path_ne hx

def oneClass : FileTree :=
  (⟨[], []⟩ : FileTree).put ["Main.jack"] (.file "class Main {}".toUTF8)

theorem oneClass_valid : oneClass.Valid :=
  (FileTree.Valid.empty []).put (p := []) (n := "Main.jack") rfl ⟨by decide, by decide, by decide, by decide⟩ rfl _

/-- A class under a name that its code is to have. -/
def misnamed : FileTree :=
  (⟨[], []⟩ : FileTree).put ["Main.vm"] (.file "class Main { function void f() { return; } }".toUTF8)

theorem misnamed_valid : misnamed.Valid :=
  (FileTree.Valid.empty []).put (p := []) (n := "Main.vm") rfl ⟨by decide, by decide, by decide, by decide⟩ rfl _

theorem misnamed_given : Options.Given ["Main.vm"] ⟨"Main.vm", false⟩ :=
  ⟨0, 0, rfl, by decide +kernel, by decide⟩

theorem misnamed_source : SourcesOf misnamed "Main.vm" ["Main.vm"] :=
  .itself (by decide +kernel)

theorem misnamed_read :
    misnamed.read "Main.vm" = .ok "class Main { function void f() { return; } }".toUTF8 := by
  decide +kernel

theorem misnamed_replaced : Replaced misnamed false "Main.vm" "function Main.f 0\npush constant 0\nreturn\n" := by
  have hc : compile false "class Main { function void f() { return; } }" =
      .ok ⟨"Main", [.function "Main.f" 0, .push .constant 0, .return], []⟩ := by decide +kernel
  have hb : Path.Bears "Main.vm" "vm" :=
    ⟨"", "Main", .inl rfl, by decide, by decide, by decide, by decide⟩
  exact .code hb (FileTree.text_of_read misnamed_read) hc

theorem misnamed_is_not_kept :
    (misnamed.Valid ∧ Options.Given ["Main.vm"] ⟨"Main.vm", false⟩ ∧
      SourcesOf misnamed "Main.vm" ["Main.vm"] ∧
      Replaced misnamed false "Main.vm" "function Main.f 0\npush constant 0\nreturn\n" ∧
      (onTree (run ["Main.vm"]) misnamed).2.read "Main.vm" ≠ misnamed.read "Main.vm" ∧
      ∀ recorded q, compile recorded "function Main.f 0\npush constant 0\nreturn\n" ≠ .ok q) ∧
    (oneClass.Valid ∧ Options.Given ["--xml", "Main.jack"] ⟨"Main.jack", true⟩ ∧
      SourcesOf oneClass "Main.jack" ["Main.jack"] ∧ oneClass.read "Main.jack" = .ok "class Main {}".toUTF8 ∧
      (onTree (run ["--xml", "Main.jack"]) oneClass).2.read "Main.jack" = .ok "class Main {}".toUTF8) := by
  obtain ⟨hkept, hlost, -⟩ := sources_are_kept_iff misnamed_valid misnamed_given misnamed_source
    (List.mem_singleton_self _) misnamed_read
  have hgiven : Options.Given ["--xml", "Main.jack"] ⟨"Main.jack", true⟩ := ⟨1, 0, rfl, by decide +kernel, by decide⟩
  have hsource : SourcesOf oneClass "Main.jack" ["Main.jack"] := .itself (by decide +kernel)
  have hread : oneClass.read "Main.jack" = .ok "class Main {}".toUTF8 := by decide +kernel
  obtain ⟨-, -, hjack⟩ := sources_are_kept_iff oneClass_valid hgiven hsource (List.mem_singleton_self _) hread
  refine ⟨⟨misnamed_valid, misnamed_given, misnamed_source, misnamed_replaced, ?_, (hlost _ misnamed_replaced).2⟩,
    oneClass_valid, hgiven, hsource, hread, hjack (.inr ⟨"Main", rfl⟩)⟩
  rw [misnamed_read]
  exact fun h => hkept.mp h _ misnamed_replaced

/-- The code of a class is stored in the place of the class. -/
theorem source_named_like_code_is_lost :
    misnamed.Valid ∧ Options.Given ["Main.vm"] ⟨"Main.vm", false⟩ ∧ SourcesOf misnamed "Main.vm" ["Main.vm"] ∧
    misnamed.read "Main.vm" = .ok "class Main { function void f() { return; } }".toUTF8 ∧
    (onTree (run ["Main.vm"]) misnamed).2.read "Main.vm" =
      .ok "function Main.f 0\npush constant 0\nreturn\n".toUTF8 ∧
    "class Main { function void f() { return; } }".toUTF8 ≠
      "function Main.f 0\npush constant 0\nreturn\n".toUTF8 :=
  ⟨misnamed_valid, misnamed_given, misnamed_source, misnamed_read, by decide +kernel, by decide⟩

end CommandLine

end Jack
