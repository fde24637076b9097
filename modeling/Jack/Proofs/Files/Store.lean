import Jack.CommandLine
import Jack.Proofs.Files.Tree

namespace Jack

open FileTree (Overlay)

namespace FileTree

open CommandLine (ReadFault)

def text (t : FileTree) (path : String) : Except ReadFault String :=
  match t.read path with
  | .error fault => .error (.system fault)
  | .ok content =>
    match String.fromUTF8? content with
    | some text => .ok text
    | none => .error .notText

/-- The place beside a file where a file of the same name, but with another extension, can be stored. -/
def beside? (t : FileTree) (path extension : String) : Option (List String) := do
  let place ← (t.find path).toOption
  let name ← place.getLast?
  let renamed ← Path.rename? name extension
  match t.get? (place.dropLast ++ [renamed]) with
  | some .directory => none
  | _ => some (place.dropLast ++ [renamed])

variable {t t' : FileTree} {path extension : String} {p q place : List String} {n : String}
  {files : List (List String × String)}

theorem exists_read_of_text {s : String} (h : t.text path = .ok s) : ∃ content, t.read path = .ok content := by
  rw [text] at h
  cases hr : t.read path with
  | error f =>
    rw [hr] at h
    cases h
  | ok content => exact ⟨content, rfl⟩

theorem text_of_read {s : String} (h : t.read path = .ok s.toUTF8) : t.text path = .ok s := by
  have hutf8 : String.fromUTF8? s.toUTF8 = some s := dif_pos s.isValidUTF8
  rw [FileTree.text, h]
  dsimp only
  rw [hutf8]

theorem beside?_eq_some_iff (hf : t.find path = .ok (p ++ [n])) :
    t.beside? path extension = some q ↔
      ∃ m, Path.rename? n extension = some m ∧ t.get? (p ++ [m]) ≠ some .directory ∧ q = p ++ [m] := by
  have h : t.beside? path extension = (Path.rename? n extension).bind fun m =>
      match t.get? (p ++ [m]) with
      | some .directory => none
      | _ => some (p ++ [m]) := by
    rw [beside?, hf]
    simp only [Except.toOption, Option.bind_eq_bind, Option.bind_some, List.getLast?_concat, List.dropLast_concat]
  rw [h, Option.bind_eq_some_iff]
  refine exists_congr fun m => and_congr_right fun _ => ?_
  split
  next hd => simp [hd]
  next hd => simpa [eq_comm] using fun _ => hd

theorem beside?_injective (ht : t.Valid) {content : ByteArray} (hr : t.read path = .ok content) {e e' : String}
    (he : Path.IsExtension e) (he' : Path.IsExtension e') (h : t.beside? path e = some q)
    (h' : t.beside? path e' = some q) : e = e' := by
  obtain ⟨d, n, p, -, hn, rfl, -, hf, -⟩ := exists_front_of_read ht hr
  obtain ⟨m, hm, -, rfl⟩ := (beside?_eq_some_iff hf).mp h
  obtain ⟨m', hm', -, heq⟩ := (beside?_eq_some_iff hf).mp h'
  obtain rfl : m = m' := by simpa using heq
  have hx := Path.extension?_of_rename? hn.ne_empty he.dot_notMem hm
  rw [Path.extension?_of_rename? hn.ne_empty he'.dot_notMem hm'] at hx
  exact (Option.some.inj hx).symm

theorem Overlay.text (h : Overlay t t' files) (hf : t.find path = .ok place)
    (hnew : place ∉ files.map Prod.fst) : t'.text path = t.text path := by
  rw [FileTree.text, FileTree.text, read_of_find hf, read_of_find (h.find hf), h.same place hnew]

theorem Overlay.write_beside (ht : t.Valid) (h : Overlay t t' files) {content : ByteArray}
    (hr : t.read path = .ok content) (he : Path.IsExtension extension)
    (hnew : ∀ place, t.beside? path extension = some place → place ∉ files.map Prod.fst) (text : String) :
    (t.beside? path extension = none ∧ ∃ f, t'.write (Path.withExtension path extension) text.toUTF8 = .error f) ∨
      ∃ place u, t.beside? path extension = some place ∧
        t'.write (Path.withExtension path extension) text.toUTF8 = .ok u ∧
        Overlay t u (files ++ [(place, text)]) := by
  obtain ⟨d, n, p, hd, hn, rfl, hp, hf, -⟩ := exists_front_of_read ht hr
  rw [Path.withExtension_front hd hn.slash_notMem]
  cases hm : Path.rename? n extension with
  | none =>
    refine .inl ⟨?_, _, write_dots hd (h.front? hp) _⟩
    refine Option.eq_none_iff_forall_ne_some.mpr fun q hq => ?_
    obtain ⟨m, hm', -⟩ := (beside?_eq_some_iff hf).mp hq
    cases hm.symm.trans hm'
  | some m =>
    have hname := Path.isName_of_extension? (Path.slash_notMem_of_rename? hn.slash_notMem he.slash_notMem hm)
      (Path.extension?_of_rename? hn.ne_empty he.dot_notMem hm) he.ne_empty
    by_cases hdir : t.get? (p ++ [m]) = some .directory
    · have hfree : p ++ [m] ∉ files.map Prod.fst := fun hmem => h.free _ hmem hdir
      obtain ⟨-, hw⟩ | ⟨hno, -⟩ := h.write hd hp hname hfree text
      · refine .inl ⟨Option.eq_none_iff_forall_ne_some.mpr fun q hq => ?_, _, hw⟩
        obtain ⟨m', hm', hno, -⟩ := (beside?_eq_some_iff hf).mp hq
        cases hm.symm.trans hm'
        exact hno hdir
      · exact absurd hdir hno
    · have hplace := (beside?_eq_some_iff hf).mpr ⟨m, hm, hdir, rfl⟩
      obtain ⟨hdir', -⟩ | ⟨-, u, hw, hu⟩ := h.write hd hp hname (hnew _ hplace) text
      · exact absurd hdir' hdir
      · exact .inr ⟨p ++ [m], u, hplace, hw, hu⟩

end FileTree

namespace CommandLine

variable {α β : Type} {t u : FileTree}

/-- Runs a program on a tree. -/
def onTree (x : ExceptT Failure (StateM FileTree) α) (t : FileTree) : Except Failure α × FileTree :=
  x.run.run t

section Programs

theorem onTree_bind (x : ExceptT Failure (StateM FileTree) α)
    (f : α → ExceptT Failure (StateM FileTree) β) (t : FileTree) :
    onTree (x >>= f) t = match onTree x t with
      | (.ok a, u) => onTree (f a) u
      | (.error e, u) => (.error e, u) := by
  change (match x t with | (a, u) => ExceptT.bindCont f a u : Except Failure β × FileTree) = match x t with
    | (.ok a, u) => onTree (f a) u
    | (.error e, u) => (.error e, u)
  rcases x t with ⟨a | a, u⟩ <;> rfl

theorem onTree_lift (x : StateM FileTree α) (t : FileTree) :
    onTree (liftM x) t = (.ok (x.run t).1, (x.run t).2) := rfl

theorem run_write_of_ok {path : String} {content : ByteArray} (h : t.write path content = .ok u) :
    (FileSystem.write path content : StateM FileTree _).run t = (.ok (), u) := by
  rw [StateT.run]
  simp only [FileSystem.write, h]

theorem run_write_of_error {path : String} {content : ByteArray} {f : SystemFault}
    (h : t.write path content = .error f) :
    (FileSystem.write path content : StateM FileTree _).run t = (.error f, t) := by
  rw [StateT.run]
  simp only [FileSystem.write, h]

theorem onTree_readText (path : String) (t : FileTree) :
    onTree (readText path) t = ((t.text path).mapError (.unread path), t) := by
  have h : (FileSystem.read path : StateM FileTree _).run t = (t.read path, t) := rfl
  rw [readText, onTree_bind, onTree_lift, h, FileTree.text]
  cases t.read path with
  | error f => rfl
  | ok content =>
    dsimp only
    cases String.fromUTF8? content <;> rfl

theorem onTree_writeText_of_ok {path text : String} (h : t.write path text.toUTF8 = .ok u) :
    onTree (writeText path text) t = (.ok (), u) := by
  rw [writeText, onTree_bind, onTree_lift, run_write_of_ok h]
  rfl

theorem onTree_writeText_of_error {path text : String} {f : SystemFault}
    (h : t.write path text.toUTF8 = .error f) :
    onTree (writeText path text) t = (.error (.unwritten path f), t) := by
  rw [writeText, onTree_bind, onTree_lift, run_write_of_error h]
  rfl

theorem onTree_compileFile_of_unread {xml : Bool} {path : String} {f : ReadFault} (h : t.text path = .error f) :
    onTree (compileFile xml path) t = (.error (.unread path f), t) := by
  rw [compileFile, onTree_bind, onTree_readText, h]
  rfl

theorem onTree_compileFile_of_uncompiled {xml : Bool} {path text : String} {e : Error} (h : t.text path = .ok text)
    (hc : compile xml text = .error e) : onTree (compileFile xml path) t = (.error (.uncompiled path e), t) := by
  rw [compileFile, onTree_bind, onTree_readText, h]
  dsimp only [Except.mapError]
  rw [hc]
  rfl

theorem onTree_compileFile_of_compiled {xml : Bool} {path text : String} {p : Compiled} (h : t.text path = .ok text)
    (hc : compile xml text = .ok p) :
    onTree (compileFile xml path) t = onTree (do
      writeText (Path.withExtension path "vm") p.vmText
      if xml then writeText (Path.withExtension path "xml") p.xmlText) t := by
  rw [compileFile, onTree_bind, onTree_readText, h]
  dsimp only [Except.mapError]
  rw [hc]

end Programs

section Sources

def extensions : List String := ["vm", "xml"]

theorem isExtension_of_mem {e : String} (h : e ∈ extensions) : Path.IsExtension e := by
  obtain rfl | rfl : e = "vm" ∨ e = "xml" := by simpa [extensions] using h
  · exact ⟨by decide, by decide, by decide⟩
  · exact ⟨by decide, by decide, by decide⟩

/-- A source of the tree `t` is stored as these files: its code, and its trace if asked for. -/
inductive Stores (t : FileTree) (xml : Bool) (path : String) : List (List String × String) → Prop where
  | code {text : String} {p : Compiled} {code : List String} : t.text path = .ok text →
      compile xml text = .ok p → xml = false → t.beside? path "vm" = some code →
      Stores t xml path [(code, p.vmText)]
  | trace {text : String} {p : Compiled} {code trace : List String} : t.text path = .ok text →
      compile xml text = .ok p → xml = true → t.beside? path "vm" = some code →
      t.beside? path "xml" = some trace → Stores t xml path [(code, p.vmText), (trace, p.xmlText)]

/-- A source of the tree `t` fails, and by then these files are stored: none of them, unless it is the trace
that has no place. -/
inductive Fails (t : FileTree) (xml : Bool) (path : String) : List (List String × String) → Prop where
  | unread {f : ReadFault} : t.text path = .error f → Fails t xml path []
  | uncompiled {text : String} {e : Error} : t.text path = .ok text → compile xml text = .error e →
      Fails t xml path []
  | uncoded {text : String} {p : Compiled} : t.text path = .ok text → compile xml text = .ok p →
      t.beside? path "vm" = none → Fails t xml path []
  | untraced {text : String} {p : Compiled} {code : List String} : t.text path = .ok text →
      compile xml text = .ok p → xml = true → t.beside? path "vm" = some code →
      t.beside? path "xml" = none → Fails t xml path [(code, p.vmText)]

variable {xml : Bool} {path : String} {t t' : FileTree} {files outs : List (List String × String)}

theorem Stores.beside (h : Stores t xml path outs) {place : List String} (hp : place ∈ outs.map Prod.fst) :
    ∃ e ∈ extensions, t.beside? path e = some place := by
  cases h with
  | code _ _ _ hc =>
    obtain rfl : place = _ := by simpa using hp
    exact ⟨"vm", by decide, hc⟩
  | trace _ _ _ hc ht =>
    obtain rfl | rfl : place = _ ∨ place = _ := by simpa using hp
    · exact ⟨"vm", by decide, hc⟩
    · exact ⟨"xml", by decide, ht⟩

theorem Fails.beside (h : Fails t xml path outs) {place : List String} (hp : place ∈ outs.map Prod.fst) :
    ∃ e ∈ extensions, t.beside? path e = some place := by
  cases h with
  | unread | uncompiled | uncoded => cases hp
  | untraced _ _ _ hcode _ =>
    obtain rfl : place = _ := by simpa using hp
    exact ⟨"vm", by decide, hcode⟩

theorem writeText_cases (ht : t.Valid) (h : Overlay t t' files) {content : ByteArray}
    (hr : t.read path = .ok content) {e : String} (he : e ∈ extensions)
    (hnew : ∀ place, t.beside? path e = some place → place ∉ files.map Prod.fst) (text : String) :
    (t.beside? path e = none ∧ ∃ f, onTree (writeText (Path.withExtension path e) text) t' = (.error f, t')) ∨
      ∃ place u, t.beside? path e = some place ∧
        onTree (writeText (Path.withExtension path e) text) t' = (.ok (), u) ∧
        Overlay t u (files ++ [(place, text)]) := by
  obtain ⟨hno, f, hw⟩ | ⟨place, u, hp, hw, hu⟩ := h.write_beside ht hr (isExtension_of_mem he) hnew text
  · exact .inl ⟨hno, _, onTree_writeText_of_error hw⟩
  · exact .inr ⟨place, u, hp, onTree_writeText_of_ok hw, hu⟩

/-- One source in the middle of a run, where files are stored already, but none in a place that is its own. -/
theorem compileFile_cases (xml : Bool) (path : String) (ht : t.Valid) (h : Overlay t t' files) (htext : t'.text path = t.text path)
    (hnew : ∀ e ∈ extensions, ∀ place, t.beside? path e = some place → place ∉ files.map Prod.fst) :
    (∃ outs u, Stores t xml path outs ∧ onTree (compileFile xml path) t' = (.ok (), u) ∧
      Overlay t u (files ++ outs)) ∨
    ∃ outs f u, Fails t xml path outs ∧ onTree (compileFile xml path) t' = (.error f, u) ∧
      Overlay t u (files ++ outs) := by
  have hnone : Overlay t t' (files ++ []) := by rwa [List.append_nil]
  cases hx : t.text path with
  | error f => exact .inr ⟨[], _, t', .unread hx, onTree_compileFile_of_unread (htext.trans hx), hnone⟩
  | ok text =>
    cases hc : compile xml text with
    | error e =>
      exact .inr ⟨[], _, t', .uncompiled hx hc, onTree_compileFile_of_uncompiled (htext.trans hx) hc, hnone⟩
    | ok p =>
      obtain ⟨content, hr⟩ := FileTree.exists_read_of_text hx
      rw [onTree_compileFile_of_compiled (htext.trans hx) hc, onTree_bind]
      obtain ⟨hno, f, hw⟩ | ⟨code, u, hcode, hw, hu⟩ :=
        writeText_cases ht h hr (e := "vm") (by decide) (hnew "vm" (by decide)) p.vmText
      · rw [hw]
        exact .inr ⟨[], f, t', .uncoded hx hc hno, rfl, hnone⟩
      · rw [hw]
        dsimp only
        cases xml with
        | false => exact .inl ⟨_, u, .code hx hc rfl hcode, rfl, hu⟩
        | true =>
          have hnew' : ∀ place, t.beside? path "xml" = some place →
              place ∉ (files ++ [(code, p.vmText)]).map Prod.fst := by
            intro place hplace hm
            rw [List.map_append, List.mem_append, List.map_singleton, List.mem_singleton] at hm
            obtain hm | rfl := hm
            · exact hnew "xml" (by decide) place hplace hm
            · exact absurd (FileTree.beside?_injective ht hr (isExtension_of_mem (by decide))
                (isExtension_of_mem (by decide)) hcode hplace) (by decide)
          rw [if_pos rfl]
          obtain ⟨hno, f, hw'⟩ | ⟨trace, v, htrace, hw', hv⟩ :=
            writeText_cases ht hu hr (e := "xml") (by decide) hnew' p.xmlText
          · exact .inr ⟨_, f, u, .untraced hx hc rfl hcode hno, hw', hu⟩
          · exact .inl ⟨_, v, .trace hx hc rfl hcode htrace, hw', by simpa using hv⟩

end Sources

end CommandLine

end Jack
