import Jack.Event
import Jack.Proofs.Lexeme.Step
import Std.Data.String.ToNat

namespace Jack

def Rule.all : List Rule :=
  [.class, .classVarDec, .subroutineDec, .parameterList, .subroutineBody, .varDec, .statements,
    .letStatement, .ifStatement, .whileStatement, .doStatement, .returnStatement, .expression, .term,
    .expressionList]

def Rule.ofName? (name : String) : Option Rule :=
  all.find? (·.name == name)

def Token.ofElement? (tag text : String) : Option Token :=
  match tag with
  | "keyword" => (Keyword.ofText? text).map .keyword
  | "symbol" => (text.toList.head?.bind Symbol.ofChar?).map .symbol
  | "integerConstant" => text.toNat?.map .integer
  | "stringConstant" => some (.string text)
  | "identifier" => some (.identifier text)
  | _ => none

namespace Event

def unescape : List Char → List Char
  | '&' :: 'l' :: 't' :: ';' :: cs => '<' :: unescape cs
  | '&' :: 'g' :: 't' :: ';' :: cs => '>' :: unescape cs
  | '&' :: 'a' :: 'm' :: 'p' :: ';' :: cs => '&' :: unescape cs
  | '&' :: 'q' :: 'u' :: 'o' :: 't' :: ';' :: cs => '"' :: unescape cs
  | c :: cs => c :: unescape cs
  | [] => []

inductive Tag where
  | opening (name : String) (behind : List Char)
  | closing (name : String)

namespace Tag

def ofPiece : List Char → Tag
  | '/' :: cs => .closing (String.ofList (cs.takeWhile (· ≠ '>')))
  | cs => .opening (String.ofList (cs.takeWhile (· ≠ '>'))) ((cs.dropWhile (· ≠ '>')).drop 1)

/-- An element in which a token is stored goes on behind a blank, and the one of a rule on a new line. -/
def read? : List Tag → Option (List Event)
  | [] => some []
  | .closing name :: tags => do
    let rule ← Rule.ofName? name
    let es ← read? tags
    some (.leave rule :: es)
  | .opening name ('\n' :: _) :: tags => do
    let rule ← Rule.ofName? name
    let es ← read? tags
    some (.enter rule :: es)
  | .opening name (' ' :: text) :: .closing _ :: tags => do
    let token ← Token.ofElement? name (String.ofList (unescape text.dropLast))
    let es ← read? tags
    some (.consumed token :: es)
  | _ => none

end Tag

def read? (text : String) : Option (List Event) :=
  Tag.read? (((Text.splitList '<' text.toList).drop 1).map Tag.ofPiece)

section Escape

/-- What stands behind an `&` in a text that is escaped. -/
def entities : List String := ["lt;", "gt;", "amp;", "quot;"]

theorem toList_escapeChar (c : Char) :
    (∃ entity ∈ entities, (escapeChar c).toList = '&' :: entity.toList) ∨
      (escapeChar c).toList = [c] ∧ c ≠ '<' ∧ c ≠ '>' ∧ c ≠ '&' := by
  unfold escapeChar
  split
  next => exact .inl ⟨"lt;", by decide, rfl⟩
  next => exact .inl ⟨"gt;", by decide, rfl⟩
  next => exact .inl ⟨"amp;", by decide, rfl⟩
  next => exact .inl ⟨"quot;", by decide, rfl⟩
  next hl hg ha hq => exact .inr ⟨String.toList_singleton c, hl, hg, ha⟩

theorem notMem_entity {entity : String} (h : entity ∈ entities) :
    '<' ∉ entity.toList ∧ '>' ∉ entity.toList ∧ '&' ∉ entity.toList := by
  revert entity
  decide

theorem toList_escape (text : String) :
    (escape text).toList = text.toList.flatMap fun c => (escapeChar c).toList := by
  simp [escape, String.toList_join, List.flatMap_map]

theorem notMem_escape (text : String) : '<' ∉ (escape text).toList ∧ '>' ∉ (escape text).toList := by
  have hc (c : Char) : '<' ∉ (escapeChar c).toList ∧ '>' ∉ (escapeChar c).toList := by
    obtain ⟨entity, he, hc⟩ | ⟨hc, hl, hg, -⟩ := toList_escapeChar c
    · have hn := notMem_entity he
      simp [hc, hn.1, hn.2.1]
    · simp [hc, hl.symm, hg.symm]
  rw [toList_escape]
  constructor
  · intro h
    obtain ⟨c, -, h⟩ := List.mem_flatMap.mp h
    exact (hc c).1 h
  · intro h
    obtain ⟨c, -, h⟩ := List.mem_flatMap.mp h
    exact (hc c).2 h

theorem entity_of_escape {text : String} {front behind : List Char}
    (h : (escape text).toList = front ++ '&' :: behind) :
    ∃ entity ∈ entities, entity.toList <+: behind := by
  rw [toList_escape] at h
  generalize text.toList = cs at h
  induction cs generalizing front with
  | nil => simp at h
  | cons c cs ih =>
    rw [List.flatMap_cons, List.append_eq_append_iff] at h
    obtain ⟨more, -, h⟩ | ⟨more, hc, h⟩ := h
    · exact ih h
    · cases more with
      | nil => exact ih (show _ = [] ++ '&' :: behind from h.symm)
      | cons d more =>
        obtain ⟨rfl, rfl⟩ := List.cons.inj h
        -- An entity holds no `&`, so this one is the first character of what `c` is written as.
        obtain ⟨entity, he, hc'⟩ | ⟨hc', -, -, ha⟩ := toList_escapeChar c
        · rw [hc'] at hc
          cases front with
          | nil =>
            obtain ⟨-, rfl⟩ := List.cons.inj hc
            exact ⟨entity, he, List.prefix_append _ _⟩
          | cons d front =>
            refine ((notMem_entity he).2.2 ?_).elim
            rw [(List.cons.inj hc).2]
            simp
        · refine (ha ?_).elim
          have hm : '&' ∈ [c] := by simp [← hc', hc]
          exact (List.mem_singleton.mp hm).symm

theorem unescape_cons {c : Char} (h : c ≠ '&') (cs : List Char) : unescape (c :: cs) = c :: unescape cs := by
  simp [unescape, h]

theorem unescape_escapeChar (c : Char) (cs : List Char) :
    unescape ((escapeChar c).toList ++ cs) = c :: unescape cs := by
  unfold escapeChar
  split
  next => simp [unescape]
  next => simp [unescape]
  next => simp [unescape]
  next => simp [unescape]
  next ha _ =>
    rw [show c.toString.toList = [c] from String.toList_singleton c]
    exact unescape_cons ha cs

theorem unescape_escape (text : String) : unescape (escape text).toList = text.toList := by
  rw [toList_escape]
  induction text.toList with
  | nil => rfl
  | cons c cs ih => rw [List.flatMap_cons, unescape_escapeChar, ih]

end Escape

section Elements

theorem ofElement?_element {t : Token} {tag text : String} (h : element? t = some (tag, text)) :
    Token.ofElement? tag text = some t := by
  cases t with
  | keyword k =>
    cases h
    simp [Token.ofElement?, Keyword.ofText?_text]
  | symbol s =>
    cases h
    simp [Token.ofElement?, Symbol.text, Symbol.ofChar?_char]
  | integer n =>
    cases h
    simp [Token.ofElement?, Nat.toNat?_repr]
  | string text | identifier name =>
    cases h
    rfl
  | eof => cases h

theorem ofName?_name (r : Rule) : Rule.ofName? r.name = some r := by
  cases r <;> decide

/-- A name that can be told from what stands around it in a tag. -/
structure TagName (name : String) : Prop where
  notMem : '<' ∉ name.toList ∧ '>' ∉ name.toList
  head : ∃ c cs, name.toList = c :: cs ∧ c ≠ '/'

theorem tagName_rule (r : Rule) : TagName r.name := by
  cases r <;> exact ⟨by decide, _, _, rfl, by decide⟩

theorem tagName_element {t : Token} {tag text : String} (h : element? t = some (tag, text)) :
    TagName tag := by
  cases t <;> cases h <;> exact ⟨by decide, _, _, rfl, by decide⟩

end Elements

section Pieces

variable {name : String} {behind cs : List Char} {es : List Event}

theorem takeWhile_name (behind : List Char) (h : '>' ∉ name.toList) :
    String.ofList ((name.toList ++ '>' :: behind).takeWhile (· ≠ '>')) = name := by
  have hn : ∀ c ∈ name.toList, decide (c ≠ '>') = true := fun c hc =>
    decide_eq_true fun he => h (he ▸ hc)
  rw [takeWhile_append_of_head hn (by simp), String.ofList_toList]

theorem dropWhile_name (behind : List Char) (h : '>' ∉ name.toList) :
    (name.toList ++ '>' :: behind).dropWhile (· ≠ '>') = '>' :: behind := by
  have hn : ∀ c ∈ name.toList, decide (c ≠ '>') = true := fun c hc =>
    decide_eq_true fun he => h (he ▸ hc)
  rw [dropWhile_append_of_head hn (by simp)]

theorem Tag.ofPiece_opening (h : TagName name) :
    Tag.ofPiece (name.toList ++ '>' :: behind) = .opening name behind := by
  obtain ⟨c, cs, hc, hs⟩ := h.head
  have ht := takeWhile_name behind h.notMem.2
  have hd := dropWhile_name behind h.notMem.2
  rw [hc] at ht hd ⊢
  rw [List.cons_append] at ht hd ⊢
  rw [Tag.ofPiece, ht, hd]
  · rfl
  · intro _ he
    exact hs (List.cons.inj he).1

theorem Tag.ofPiece_closing (h : TagName name) :
    Tag.ofPiece ('/' :: (name.toList ++ '>' :: behind)) = .closing name := by
  rw [Tag.ofPiece, takeWhile_name behind h.notMem.2]

/-- The tags of the text tell the events, whatever stands in front of the first of them. -/
def Told (cs : List Char) (es : List Event) : Prop :=
  ∃ pad pieces, Text.splitList '<' cs = pad :: pieces ∧ Tag.read? (pieces.map Tag.ofPiece) = some es

theorem notMem_indent (depth : Nat) : '<' ∉ (indent depth).toList := by
  simp [indent]

theorem splitList_tag {front pad : List Char} {pieces : List (List Char)} (tag : List Char)
    (hf : '<' ∉ front) (ht : '<' ∉ tag) (h : Text.splitList '<' cs = pad :: pieces) :
    Text.splitList '<' (front ++ '<' :: (tag ++ cs)) = front :: (tag ++ pad) :: pieces := by
  rw [Text.splitList_append_cons, Text.splitList_of_notMem hf, Text.splitList_append_of_notMem ht h]
  rfl

theorem Told.enter (h : Told cs es) (depth : Nat) (r : Rule) :
    Told (((Event.enter r).line depth).1.toList ++ cs) (.enter r :: es) := by
  obtain ⟨pad, pieces, hs, he⟩ := h
  have hr := tagName_rule r
  have htag := splitList_tag (r.name.toList ++ ['>', '\n']) (notMem_indent depth)
    (by simp [hr.notMem.1]) hs
  refine ⟨_, _, (congrArg _ ?_).trans htag, ?_⟩
  · simp [line]
  · rw [List.map_cons, List.append_assoc, List.cons_append, Tag.ofPiece_opening hr]
    simp [Tag.read?, ofName?_name, he]

theorem Told.leave (h : Told cs es) (depth : Nat) (r : Rule) :
    Told (((Event.leave r).line depth).1.toList ++ cs) (.leave r :: es) := by
  obtain ⟨pad, pieces, hs, he⟩ := h
  have hr := tagName_rule r
  have htag := splitList_tag ('/' :: (r.name.toList ++ ['>', '\n'])) (notMem_indent (depth - 1))
    (by simp [hr.notMem.1]) hs
  refine ⟨_, _, (congrArg _ ?_).trans htag, ?_⟩
  · simp [line]
  · rw [List.map_cons, List.cons_append, List.append_assoc, List.cons_append, Tag.ofPiece_closing hr]
    simp [Tag.read?, ofName?_name, he]

theorem Told.consumed (h : Told cs es) (depth : Nat) {t : Token} (ht : t ≠ .eof) :
    Told (((Event.consumed t).line depth).1.toList ++ cs) (.consumed t :: es) := by
  obtain ⟨pad, pieces, hs, he⟩ := h
  obtain ⟨⟨tag, text⟩, hel⟩ : ∃ p, element? t = some p := by
    cases t <;> first | exact ⟨_, rfl⟩ | exact (ht rfl).elim
  have htag := tagName_element hel
  have hfront : '<' ∉ tag.toList ++ '>' :: ' ' :: ((escape text).toList ++ [' ']) := by
    simp [htag.notMem.1, (notMem_escape text).1]
  have hclose := splitList_tag ('/' :: (tag.toList ++ ['>', '\n'])) hfront (by simp [htag.notMem.1]) hs
  have hopen := splitList_tag [] (notMem_indent depth) List.not_mem_nil hclose
  refine ⟨_, _, (congrArg _ ?_).trans hopen, ?_⟩
  · simp [line, hel]
  · rw [List.map_cons, List.map_cons, List.nil_append, Tag.ofPiece_opening htag, List.cons_append,
      List.append_assoc, List.cons_append, Tag.ofPiece_closing htag]
    simp [Tag.read?, unescape_escape, ofElement?_element hel, he]

def stored (e : Event) : Bool := e ≠ .consumed .eof

theorem writeFrom_cons (depth : Nat) (e : Event) (es : List Event) :
    writeFrom "" depth (e :: es) = (e.line depth).1 ++ writeFrom "" (e.line depth).2 es := by
  rw [writeFrom, writeFrom_eq_append, String.empty_append]

theorem told_writeFrom (depth : Nat) (es : List Event) :
    Told (writeFrom "" depth es).toList (es.filter stored) := by
  induction es generalizing depth with
  | nil => exact ⟨[], [], rfl, rfl⟩
  | cons e es ih =>
    rw [writeFrom_cons, String.toList_append]
    have h := ih (e.line depth).2
    cases e with
    | enter r => exact h.enter depth r
    | leave r => exact h.leave depth r
    | consumed t =>
      by_cases ht : t = .eof
      · subst ht
        simpa [line, element?, stored] using h
      · rw [List.filter_cons_of_pos (by simp [stored, ht])]
        exact h.consumed depth ht

/-- Every event that has a line is read again, in whatever order they are and whatever is in them. -/
theorem read?_xml_eq (es : List Event) : read? (xml es) = some (es.filter stored) := by
  obtain ⟨pad, pieces, hs, he⟩ := told_writeFrom 0 es
  rw [read?, xml, hs]
  exact he

end Pieces

end Event

end Jack
