import Jack.Proofs.Grammar.Slots
import Jack.Proofs.Lookahead
import Jack.Proofs.Parse.Ahead
import Jack.Proofs.VM.Reader

namespace Jack

open VM (Command)

/-- The words of which the code makes names without regard to the source. -/
def ownWords : List String :=
  ["int", "char", "boolean", "Math", "multiply", "divide", "String", "new", "appendChar", "Memory",
    "alloc"]

/-- If there is a name in the command, it is two words that `P` holds of, with a dot between them. -/
def VM.Command.Dotted (P : String → Prop) (c : Command) : Prop :=
  ∀ name, c.name? = some name → ∃ x y, P x ∧ P y ∧ name = x ++ "." ++ y

theorem Entry.exists_mem_of_find? {before es : List Entry} {x : String} {v : Variable}
    (h : Entry.find? before es x = some v) : ∃ e ∈ es, e.type = v.type := by
  induction es generalizing before with
  | nil => cases h
  | cons e es ih =>
    rw [find?] at h
    split at h
    next =>
      cases h
      exact ⟨e, List.mem_cons_self, rfl⟩
    next =>
      obtain ⟨f, hf, hv⟩ := ih h
      exact ⟨f, List.mem_cons_of_mem _ hf, hv⟩

section Names

variable {P : String → Prop} {names : Names} {c : Command}

theorem dotted_of_name?_eq_none (h : c.name? = none) : c.Dotted P := by
  intro name hn
  rw [h] at hn
  cases hn

theorem dotted_push (segment : VM.Segment) (i : Nat) : (Command.push segment i).Dotted P :=
  dotted_of_name?_eq_none rfl

theorem dotted_pop (segment : VM.Segment) (i : Nat) : (Command.pop segment i).Dotted P :=
  dotted_of_name?_eq_none rfl

theorem dotted_call {x y : String} {n : Nat} (hx : P x) (hy : P y) :
    (Command.call (x ++ "." ++ y) n).Dotted P := by
  rintro _ ⟨⟩
  exact ⟨x, y, hx, hy, rfl⟩

section Own

variable (hown : ∀ x ∈ ownWords, P x)

include hown

theorem dotted_ownCall {x y : String} {n : Nat} (hx : x ∈ ownWords) (hy : y ∈ ownWords) :
    (Command.call (x ++ "." ++ y) n).Dotted P :=
  dotted_call (hown x hx) (hown y hy)

theorem dotted_glue : ∀ c ∈ glue, c.Dotted P := by
  have hm : (Command.call "Math.multiply" 2).Dotted P :=
    dotted_ownCall (x := "Math") (y := "multiply") hown (by decide) (by decide)
  have hd : (Command.call "Math.divide" 2).Dotted P :=
    dotted_ownCall (x := "Math") (y := "divide") hown (by decide) (by decide)
  intro c hc
  by_cases hn : c.name? = none
  · exact dotted_of_name?_eq_none hn
  · have : c = .call "Math.multiply" 2 ∨ c = .call "Math.divide" 2 := by
      revert c
      decide
    obtain rfl | rfl := this
    · exact hm
    · exact hd

theorem dotted_stringCode (text : String) : ∀ c ∈ stringCode text, c.Dotted P := by
  intro c hc
  simp only [stringCode, List.mem_cons, List.mem_flatMap, List.not_mem_nil, or_false] at hc
  obtain rfl | rfl | ⟨d, -, rfl | rfl⟩ := hc
  · exact dotted_of_name?_eq_none rfl
  · exact dotted_ownCall (x := "String") (y := "new") hown (by decide) (by decide)
  · exact dotted_of_name?_eq_none rfl
  · exact dotted_ownCall (x := "String") (y := "appendChar") hown (by decide) (by decide)

theorem SubroutineKind.dotted_prologue (fields : Nat) (kind : SubroutineKind) :
    ∀ c ∈ kind.prologue fields, c.Dotted P := by
  have ha : (Command.call "Memory.alloc" 1).Dotted P :=
    dotted_ownCall (x := "Memory") (y := "alloc") hown (by decide) (by decide)
  cases kind <;> simp [SubroutineKind.prologue, ha, dotted_push, dotted_pop]

theorem DataType.name_of_words {type : DataType} {ts : List Token} (h : Grammar.Words P (type.token :: ts)) :
    P type.name := by
  cases type with
  | int | char | boolean => exact hown _ (by decide)
  | object className => exact (Grammar.words_cons.mp h).1 className rfl

end Own

theorem dotted_of_joint (h : c.IsJoint) : c.Dotted P := by
  refine dotted_of_name?_eq_none ?_
  cases c with
  | function | call => exact h.elim
  | push | pop | arithmetic | label | goto | ifGoto | «return» => rfl

structure Names.Named (names : Names) (P : String → Prop) : Prop where
  own : ∀ x ∈ ownWords, P x
  className : P names.className
  types : ∀ x v, names.scopes.resolve? x = some v → P v.type

theorem Names.Named.target (h : names.Named P) {called : Grammar.Called} (hc : ∀ x ∈ called.names, P x) :
    ∃ x y, P x ∧ P y ∧ (called.resolve names).target = x ++ "." ++ y := by
  cases called with
  | plain x => exact ⟨names.className, x, h.className, hc x (by simp [Grammar.Called.names]), rfl⟩
  | dotted x y =>
    have hy : P y := hc y (by simp [Grammar.Called.names])
    rw [Grammar.Called.resolve]
    cases hx : names.scopes.resolve? x with
    | none => exact ⟨x, y, hc x (by simp [Grammar.Called.names]), hy, rfl⟩
    | some v => exact ⟨v.type, y, h.types x v hx, hy, rfl⟩

theorem Callee.dotted_receiver (f : Callee) : ∀ c ∈ f.receiver, c.Dotted P := by
  cases f <;> simp [Callee.receiver, Variable.push, dotted_push]

theorem Leaf.Spelled.dotted {l : Leaf} (hn : names.Named P) (hl : l.Spelled names P) (h : l.Brings c) :
    c.Dotted P := by
  cases l with
  | integer | «variable» =>
    cases h
    exact dotted_of_name?_eq_none rfl
  | string text => exact dotted_stringCode hn.own text c h
  | callee f =>
    obtain h | ⟨n, rfl⟩ := h
    · exact f.dotted_receiver c h
    · obtain ⟨called, hc, rfl⟩ := hl
      obtain ⟨x, y, hx, hy, ht⟩ := hn.target hc
      rw [Callee.call, ht]
      exact dotted_call hx hy

theorem Leaf.Explain.dotted {ls : List Leaf} (hn : names.Named P) (hls : ∀ l ∈ ls, l.Spelled names P)
    (h : Leaf.Explain ls c) : c.Dotted P := by
  obtain hg | hj | ⟨l, hl, hb | ⟨v, -, rfl⟩⟩ := h
  · exact dotted_glue hn.own c hg
  · exact dotted_of_joint hj
  · exact (hls l hl).dotted hn hb
  · exact dotted_of_name?_eq_none rfl

end Names

namespace Grammar

variable {P : String → Prop} {c : Class} {s : Subroutine} {r : Jack.Class}

theorem Variables.type_of_mem_entries {d : Variables} {kind : VariableKind} {e : Entry}
    (h : e ∈ d.entries kind) : e.type = d.type.name := by
  obtain ⟨x, -, rfl⟩ := List.mem_map.mp h
  rfl

section Types

variable (hown : ∀ x ∈ ownWords, P x)

include hown

theorem Class.type_of_mem_entries (hc : Words P c.tokens) {e : Entry} (he : e ∈ c.entries) :
    P e.type := by
  obtain ⟨d, hd, he⟩ := List.mem_flatMap.mp he
  rw [d.2.type_of_mem_entries he]
  exact DataType.name_of_words hown ((Class.words_tokens.mp hc).2.1 d hd)

theorem Subroutine.type_of_mem_entries {className : String} (hclass : P className)
    (hs : Words P (Event.tokens s.derivation)) {e : Entry} (he : e ∈ s.entries className) : P e.type := by
  obtain ⟨-, -, hps, hds, -⟩ := Subroutine.words_derivation.mp hs
  simp only [Subroutine.entries, List.mem_append, List.mem_map, List.mem_flatMap] at he
  obtain (he | ⟨p, hp, rfl⟩) | ⟨d, hd, he⟩ := he
  · cases hk : s.kind <;> simp [receiverEntry, hk] at he
    rwa [he]
  · exact DataType.name_of_words hown (words_parameters hps p hp).1
  · rw [d.type_of_mem_entries he]
    exact DataType.name_of_words hown (hds d hd)

/-- The names in the code of a class are made of words of the class. -/
theorem Class.dotted_code (h : c.resolve = some r) (hc : Words P c.tokens) :
    ∀ k ∈ r.code, k.Dotted P := by
  obtain ⟨scopes, hscopes, ss, hss, rfl⟩ := Class.resolve_eq_some_iff.mp h
  obtain ⟨hname, -, hsub⟩ := Class.words_tokens.mp hc
  intro k hk
  obtain ⟨s', hs', hk⟩ := List.mem_flatMap.mp hk
  obtain ⟨s, hs, hr⟩ := (mem_mapM_iff hss).mp hs'
  obtain ⟨scopes', henter, body, hbody, rfl⟩ := Subroutine.resolve_eq_some_iff.mp hr
  have hwords := hsub s hs
  obtain ⟨-, hsname, -, -, hstatements⟩ := Subroutine.words_derivation.mp hwords
  have hn : Names.Named ⟨c.name, scopes'⟩ P := by
    refine ⟨hown, hname, fun x v hv => ?_⟩
    have hf : c.find? s x = some v := (Subroutine.resolve?_eq_find? hscopes henter x).symm.trans hv
    obtain ⟨e, he, htype⟩ := Entry.exists_mem_of_find? hf
    rw [← htype]
    obtain he | he := List.mem_append.mp he
    · exact s.type_of_mem_entries hown hname hwords he
    · exact c.type_of_mem_entries hown hc he
  rw [Jack.Subroutine.code, List.mem_cons, List.mem_append] at hk
  obtain rfl | hk | hk := hk
  · rintro _ ⟨⟩
    exact ⟨c.name, s.name, hname, hsname, rfl⟩
  · exact s.kind.dotted_prologue hown _ k hk
  · exact (Jack.Statement.leaves_explain_all _ body k hk).dotted hn
      (Statement.spelled_all hbody hstatements)

end Types

end Grammar

namespace Lexeme

def IsWord (x : String) : Prop :=
  x ≠ "" ∧ ∀ c ∈ x.toList, isWordChar c

instance : DecidablePred IsWord := fun x =>
  decidable_of_iff (x ≠ "" ∧ x.toList.all isWordChar) (and_congr_right' List.all_eq_true)

theorem IsWord.of_ownWords : ∀ x ∈ ownWords, IsWord x := by
  decide

theorem Spells.isWord {cs : List Char} {x : String} (h : Spells cs (.identifier x)) : IsWord x := by
  cases h with
  | identifier hc hcs =>
    refine ⟨by simp, ?_⟩
    rw [String.toList_ofList, List.forall_mem_cons]
    refine ⟨?_, hcs⟩
    simp only [isWordStart, Bool.or_eq_true] at hc
    simp only [isWordChar, Char.isAlphanum, Bool.or_eq_true]
    exact hc.imp_left .inl

theorem Layout.Valid.words {a : Layout} (h : a.Valid) : Grammar.Words IsWord a.tokens := by
  induction a with
  | last gap => exact Grammar.words_nil
  | next gap text token rest ih =>
    obtain ⟨-, hs, -, hr⟩ := h
    refine Grammar.words_cons.mpr ⟨?_, ih hr⟩
    rintro x rfl
    exact hs.isWord

theorem notMem_of_isWord {x : String} (h : IsWord x) {d : Char} (hd : isWordChar d = false) :
    d ∉ x.toList := by
  intro hm
  rw [h.2 d hm] at hd
  cases hd

end Lexeme

theorem exists_layout_of_compile {recorded : Bool} {source : String} {p : Compiled}
    (h : compile recorded source = .ok p) :
    ∃ a : Lexeme.Layout, a.Valid ∧ lexemesOf (Lexeme.scan source).toList = a.lexemes ⟨1, 0⟩ := by
  obtain ⟨xs, hs, hxs⟩ := exists_lexemes_of_compile h
  obtain ⟨a, ha, -, hx⟩ := Lexeme.exists_layout hs
  exact ⟨a, ha, by rw [hs, lexemesOf_map_ok hxs, hx]⟩

theorem dotted_of_compile {recorded : Bool} {source : String} {p : Compiled}
    (h : compile recorded source = .ok p) : ∀ c ∈ p.commands, c.Dotted Lexeme.IsWord := by
  obtain ⟨a, ha, hx⟩ := exists_layout_of_compile h
  obtain ⟨c, hc, r, hr, hcode⟩ := exists_tree_of_compileItems h
  rw [hx, a.map_token_lexemes] at hc
  rw [hcode]
  exact c.dotted_code Lexeme.IsWord.of_ownWords hr (hc ▸ ha.words)

theorem VM.Command.Dotted.legible {c : Command} (h : c.Dotted Lexeme.IsWord) : c.Legible := by
  intro name hn
  obtain ⟨x, y, hx, hy, rfl⟩ := h name hn
  have hd {d : Char} (hw : Lexeme.isWordChar d = false) (hdot : d ≠ '.') : d ∉ (x ++ "." ++ y).toList := by
    simp [Lexeme.notMem_of_isWord hx hw, Lexeme.notMem_of_isWord hy hw, hdot]
  exact ⟨hd (by decide) (by decide), hd (by decide) (by decide)⟩

/-- Commands in which each name is one word can be read back from their text, in which each of them is one
line. In what is compiled, whatever the text of the source is, each name is two words of letters, digits and
underscores with a dot between them, so that the code of a class can be read back from its text. -/
theorem text_tells_commands :
    (∀ cs : List Command, (∀ c ∈ cs, c.Legible) →
      VM.lines? (VM.render cs) = some (cs.map Command.text) ∧ VM.read? (VM.render cs) = some cs) ∧
    ∀ (recorded : Bool) (source : String) (p : Compiled), compile recorded source = .ok p →
      (∀ c ∈ p.commands, c.Dotted Lexeme.IsWord) ∧
        VM.lines? p.vmText = some (p.commands.map Command.text) ∧ VM.read? p.vmText = some p.commands := by
  refine ⟨fun cs h => ⟨VM.lines?_render h, VM.read?_render h⟩, fun recorded source p h => ?_⟩
  have hd := dotted_of_compile h
  have hl : ∀ c ∈ p.commands, c.Legible := fun c hc => (hd c hc).legible
  exact ⟨hd, VM.lines?_render hl, VM.read?_render hl⟩

namespace Grammar

/-- `class A { function void f() { var B b; do g(); do b.h(); do C.k(); return; } }` -/
def caller : Class :=
  ⟨"A", [], [⟨.function, .void, "f", [], [⟨.object "B", "b", []⟩],
    [.do (.plain "g") [], .do (.dotted "b" "h") [], .do (.dotted "C" "k") [], .return none]⟩]⟩

end Grammar

theorem read_back_calls :
    let cs : List Command :=
      [.function "A.f" 1, .push .pointer 0, .call "A.g" 1, .pop .temp 0, .push .local 0, .call "B.h" 1,
        .pop .temp 0, .call "C.k" 0, .pop .temp 0, .push .constant 0, .return]
    VM.read? (VM.render cs) = some cs ∧
      ∃ p, compile false "class A { /* */ function void f() { var B b; do g(); do b.h(); do C.k(); return; } }" =
        .ok p ∧ p.commands = cs ∧ VM.read? p.vmText = some cs := by
  intro cs
  let xs := lexemesOf
    (Lexeme.scan "class A { /* */ function void f() { var B b; do g(); do b.h(); do C.k(); return; } }").toList
  have hscan :
      Lexeme.scan "class A { /* */ function void f() { var B b; do g(); do b.h(); do C.k(); return; } }" =
        (xs.map .ok).toArray := by
    decide +kernel
  have htokens : Grammar.caller.tokens = xs.map (·.token) := by decide +kernel
  have hresolve : Grammar.caller.resolve.map (·.code) = some cs := by cbv
  obtain ⟨r, hr, hcode⟩ := Option.map_eq_some_iff.mp hresolve
  have hp : compileItems false (xs.map .ok).toArray = .ok ⟨r.name, r.code, []⟩ :=
    (compileItems_eq_ok_iff (by decide +kernel)).mpr ⟨_, htokens, r, hr, rfl⟩
  rw [← hscan] at hp
  have hs : ∀ c ∈ cs, c.Legible := by
    simp [cs, Command.Legible, Command.name?]
  exact ⟨(text_tells_commands.1 cs hs).2, _, hp, hcode, hcode ▸ (text_tells_commands.2 false _ _ hp).2.2⟩

end Jack
