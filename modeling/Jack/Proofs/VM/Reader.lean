import Jack.Text
import Jack.VM.Command
import Std.Data.String.ToNat

namespace Jack.VM

def Segment.all : List Segment :=
  [.constant, .argument, .local, .static, .this, .that, .pointer, .temp]

def Segment.ofText? (text : String) : Option Segment :=
  all.find? (·.text == text)

def Arithmetic.all : List Arithmetic :=
  [.add, .sub, .neg, .not, .and, .or, .lt, .gt, .eq]

def Arithmetic.ofText? (text : String) : Option Arithmetic :=
  all.find? (·.text == text)

def LabelRole.all : List LabelRole :=
  [.ifTrue, .ifFalse, .ifEnd, .whileCondition, .whileEnd]

def LabelRole.ofText? (text : String) : Option LabelRole :=
  all.find? (·.text == text)

/-- The number of a label begins at the first digit. -/
def Label.ofText? (text : String) : Option Label := do
  let role ← LabelRole.ofText? (String.ofList (text.toList.takeWhile (!·.isDigit)))
  let id ← (String.ofList (text.toList.dropWhile (!·.isDigit))).toNat?
  some ⟨role, id⟩

namespace Command

def words : Command → List String
  | .push segment index => ["push", segment.text, toString index]
  | .pop segment index => ["pop", segment.text, toString index]
  | .arithmetic op => [op.text]
  | .label l => ["label", l.text]
  | .goto l => ["goto", l.text]
  | .ifGoto l => ["if-goto", l.text]
  | .function name locals => ["function", name, toString locals]
  | .call name arguments => ["call", name, toString arguments]
  | .return => ["return"]

def ofWords? : List String → Option Command
  | ["push", segment, index] => do
    let segment ← Segment.ofText? segment
    let index ← index.toNat?
    some (.push segment index)
  | ["pop", segment, index] => do
    let segment ← Segment.ofText? segment
    let index ← index.toNat?
    some (.pop segment index)
  | ["label", l] => (Label.ofText? l).map .label
  | ["goto", l] => (Label.ofText? l).map .goto
  | ["if-goto", l] => (Label.ofText? l).map .ifGoto
  | ["function", name, locals] => locals.toNat?.map (.function name)
  | ["call", name, arguments] => arguments.toNat?.map (.call name)
  | ["return"] => some .return
  | [op] => (Arithmetic.ofText? op).map .arithmetic
  | _ => none

def ofText? (line : String) : Option Command :=
  ofWords? (Text.split ' ' line)

def name? : Command → Option String
  | .function name _ | .call name _ => some name
  | _ => none

/-- If there is a name in the command, it is one word of one line. -/
def Legible (c : Command) : Prop :=
  ∀ name, c.name? = some name → ' ' ∉ name.toList ∧ '\n' ∉ name.toList

end Command

/-- The lines of a text in which each line is ended by a newline. -/
def lines? (text : String) : Option (List String) :=
  let parts := Text.split '\n' text
  if parts.getLast? = some "" then some parts.dropLast else none

def read? (text : String) : Option (List Command) :=
  (lines? text).bind fun lines => lines.mapM Command.ofText?

section Words

theorem Segment.ofText?_text (segment : Segment) : ofText? segment.text = some segment := by
  cases segment <;> decide

theorem LabelRole.ofText?_text (role : LabelRole) : ofText? role.text = some role := by
  cases role <;> decide

theorem LabelRole.isDigit_of_mem_text (role : LabelRole) :
    ∀ c ∈ role.text.toList, c.isDigit = false := by
  cases role <;> simp [text]

theorem isDigit_of_mem_toString {n : Nat} {c : Char} (h : c ∈ (toString n).toList) : c.isDigit := by
  rw [Nat.toString_eq_repr, Nat.toList_repr] at h
  exact Nat.isDigit_of_mem_toDigits (by decide) (by decide) h

theorem Label.ofText?_text (l : Label) : ofText? l.text = some l := by
  have hr : ∀ c ∈ l.role.text.toList, (!c.isDigit) = true := fun c hc => by
    simp [l.role.isDigit_of_mem_text c hc]
  have hd : ∀ c ∈ (toString l.id).toList.head?, (!c.isDigit) = false := fun c hc => by
    simp [isDigit_of_mem_toString (List.mem_of_mem_head? hc)]
  have htake := takeWhile_append_of_head hr hd
  have hdrop := dropWhile_append_of_head hr hd
  rw [ofText?, Label.text, String.toList_append, htake, hdrop, String.ofList_toList, String.ofList_toList, LabelRole.ofText?_text,
    Nat.toString_eq_repr, Nat.toNat?_repr]
  rfl

theorem Label.text_injective : Function.Injective Label.text := by
  intro l l' h
  have hl := l.ofText?_text
  rw [h, l'.ofText?_text] at hl
  exact (Option.some.inj hl).symm

end Words

theorem mem_intercalate_cases {c separator : Char} {parts : List (List Char)}
    (h : c ∈ [separator].intercalate parts) : c = separator ∨ ∃ part ∈ parts, c ∈ part := by
  induction parts with
  | nil => cases h
  | cons part parts ih =>
    cases parts with
    | nil =>
      rw [List.intercalate_singleton] at h
      exact .inr ⟨part, List.mem_cons_self, h⟩
    | cons next more =>
      rw [List.intercalate_cons_cons, List.mem_append, List.mem_append, List.mem_singleton] at h
      obtain (h | h) | h := h
      · exact .inr ⟨part, List.mem_cons_self, h⟩
      · exact .inl h
      · exact (ih h).imp_right fun ⟨p, hp, hc⟩ => ⟨p, List.mem_cons_of_mem _ hp, hc⟩

namespace Command

theorem text_eq (c : Command) : c.text = (String.singleton ' ').intercalate c.words := by
  cases c <;> rfl

theorem ofWords?_words (c : Command) : ofWords? c.words = some c := by
  cases c with
  | push segment index | pop segment index =>
    simp [words, ofWords?, Segment.ofText?_text, Nat.toNat?_repr]
  | arithmetic op => cases op <;> rfl
  | label l | goto l | ifGoto l => simp [words, ofWords?, Label.ofText?_text]
  | function name n | call name n => simp [words, ofWords?, Nat.toNat?_repr]
  | «return» => rfl

theorem notMem_words {c : Command} (h : c.Legible) {separator : Char}
    (hs : separator = ' ' ∨ separator = '\n') : ∀ word ∈ c.words, separator ∉ word.toList := by
  have number (n : Nat) : separator ∉ (toString n).toList := fun hm => by
    have hd := isDigit_of_mem_toString hm
    obtain rfl | rfl := hs <;> exact absurd hd (by decide)
  have label (l : Label) : separator ∉ l.text.toList := by
    rw [Label.text, String.toList_append, List.mem_append, not_or]
    refine ⟨?_, number l.id⟩
    obtain rfl | rfl := hs <;> cases l.role <;> decide
  have segment (t : Segment) : separator ∉ t.text.toList := by
    obtain rfl | rfl := hs <;> cases t <;> decide
  have word {w : String} (hw : w ∈ ["push", "pop", "label", "goto", "if-goto", "function", "call"]) :
      separator ∉ w.toList := by
    obtain rfl | rfl := hs <;> revert w <;> decide
  cases c with
  | push t i | pop t i =>
    simp only [words, List.forall_mem_cons]
    exact ⟨word (by decide), segment t, number i, List.forall_mem_nil _⟩
  | label l | goto l | ifGoto l =>
    simp only [words, List.forall_mem_cons]
    exact ⟨word (by decide), label l, List.forall_mem_nil _⟩
  | function name n | call name n =>
    simp only [words, List.forall_mem_cons]
    refine ⟨word (by decide), ?_, number n, List.forall_mem_nil _⟩
    obtain rfl | rfl := hs
    · exact (h name rfl).1
    · exact (h name rfl).2
  | arithmetic op => obtain rfl | rfl := hs <;> cases op <;> decide
  | «return» => obtain rfl | rfl := hs <;> decide

theorem words_ne_nil (c : Command) : c.words ≠ [] := by
  cases c <;> exact List.cons_ne_nil _ _

theorem ofText?_text {c : Command} (h : c.Legible) : ofText? c.text = some c := by
  rw [ofText?, text_eq, Text.split_intercalate c.words_ne_nil (notMem_words h (.inl rfl)), ofWords?_words]

theorem newline_notMem_text {c : Command} (h : c.Legible) : '\n' ∉ c.text.toList := by
  rw [text_eq, String.toList_intercalate, String.toList_singleton]
  intro hm
  obtain hm | ⟨part, hp, hm⟩ := mem_intercalate_cases hm
  · cases hm
  · obtain ⟨word, hw, rfl⟩ := List.mem_map.mp hp
    exact notMem_words h (.inr rfl) word hw hm

end Command

section Lines

theorem render_eq_intercalate (cs : List Command) :
    render cs = (String.singleton '\n').intercalate (cs.map Command.text ++ [""]) := by
  induction cs with
  | nil => rfl
  | cons c cs ih =>
    have hr : render (c :: cs) = c.text ++ "\n" ++ render cs := render_append [c] cs
    rw [hr, ih, List.map_cons, List.cons_append, String.intercalate_cons_of_ne_nil (by simp)]
    rfl

variable {cs : List Command}

theorem lines?_render (h : ∀ c ∈ cs, c.Legible) : lines? (render cs) = some (cs.map Command.text) := by
  have hs : Text.split '\n' (render cs) = cs.map Command.text ++ [""] := by
    rw [render_eq_intercalate]
    refine Text.split_intercalate (by simp) fun part hp => ?_
    obtain hp | hp := List.mem_append.mp hp
    · obtain ⟨c, hc, rfl⟩ := List.mem_map.mp hp
      exact Command.newline_notMem_text (h c hc)
    · rw [List.mem_singleton.mp hp]
      exact List.not_mem_nil
  simp [lines?, hs]

theorem read?_render (h : ∀ c ∈ cs, c.Legible) : read? (render cs) = some cs := by
  rw [read?, lines?_render h, Option.bind_some]
  induction cs with
  | nil => rfl
  | cons c cs ih =>
    obtain ⟨hc, hcs⟩ := List.forall_mem_cons.mp h
    rw [List.map_cons, List.mapM_cons, Command.ofText?_text hc, ih hcs]
    rfl

end Lines

end Jack.VM
