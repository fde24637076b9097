import Jack.Proofs.Acceptance
import Jack.Proofs.Grammar.Nesting
import Jack.Proofs.Markup.Reader
import Jack.Proofs.Trace

namespace Jack

namespace Event

/-- The line of an event, without the blanks in front of it. -/
def mark : Event → String
  | .enter r => "<" ++ r.name ++ ">"
  | .leave r => "</" ++ r.name ++ ">"
  | .consumed t =>
    match element? t with
    | some (tag, text) => "<" ++ tag ++ "> " ++ escape text ++ " </" ++ tag ++ ">"
    | none => ""

/-- The rules that an event is inside of, where these are open in front of it. The end of a rule is not
inside the rule. -/
def around (opened : List Rule) : Event → List Rule
  | .leave _ => opened.tail
  | .enter _ | .consumed _ => opened

variable {e : Event} {es front behind : List Event} {opened opened' : List Rule}

def inset (depth : Nat) : Event → Nat
  | .leave _ => depth - 1
  | .enter _ | .consumed _ => depth

theorem length_around (opened : List Rule) (e : Event) :
    (around opened e).length = e.inset opened.length := by
  cases e with
  | enter r | consumed t => rfl
  | leave r => exact List.length_tail

def blanks (n : Nat) : String := String.ofList (List.replicate n ' ')

theorem indent_eq (depth : Nat) : indent depth = blanks (2 * depth) := rfl

theorem line_eq (depth : Nat) (he : e ≠ .consumed .eof) :
    (e.line depth).1 = blanks (2 * e.inset depth) ++ e.mark ++ "\n" := by
  cases e with
  | enter r | leave r => simp [line, indent_eq, mark, inset, String.append_assoc]
  | consumed t =>
    cases t with
    | eof => exact (he rfl).elim
    | keyword | symbol | integer | string | identifier =>
      simp [line, indent_eq, mark, element?, inset, String.append_assoc]

theorem writeFrom_append (behind : List Event) (h : nest? opened front = some opened') :
    writeFrom "" opened.length (front ++ behind) =
      writeFrom "" opened.length front ++ writeFrom "" opened'.length behind := by
  induction front generalizing opened with
  | nil =>
    cases h
    simp [writeFrom]
  | cons e front ih =>
    rw [List.cons_append, writeFrom_cons, writeFrom_cons, String.append_assoc]
    congr 1
    cases e with
    | enter r => exact ih h
    | consumed t => cases t <;> exact ih h
    | leave r =>
      cases opened with
      | nil => cases h
      | cons r' opened =>
        rw [nest?] at h
        split at h
        · exact ih h
        · cases h

theorem xml_append_cons (behind : List Event) (h : nest? [] front = some opened) (he : e ≠ .consumed .eof) :
    ∃ below, xml (front ++ e :: behind) =
      xml front ++ blanks (2 * (around opened e).length) ++ e.mark ++ "\n" ++ below := by
  refine ⟨writeFrom "" (e.line opened.length).2 behind, ?_⟩
  have ha := writeFrom_append (e :: behind) h
  rw [List.length_nil] at ha
  rw [xml, xml, ha, writeFrom_cons, line_eq _ he, length_around]
  simp only [String.append_assoc]

theorem writeFrom_newline (depth : Nat) (es : List Event) :
    writeFrom "" depth es = "" ∨ ∃ above, writeFrom "" depth es = above ++ "\n" := by
  induction es generalizing depth with
  | nil => exact .inl rfl
  | cons e es ih =>
    rw [writeFrom_cons]
    obtain h | ⟨above, h⟩ := ih (e.line depth).2
    · rw [h, String.append_empty]
      by_cases he : e = .consumed .eof
      · exact .inl (by simp [he, line, element?])
      · exact .inr ⟨_, line_eq depth he⟩
    · exact .inr ⟨(e.line depth).1 ++ above, by rw [h, String.append_assoc]⟩

end Event

namespace Grammar.Tree

open Event (blanks writeFrom)

mutual

/-- A tree as nested elements, in which a node begins and ends with a tag on a line of its own. -/
def markup (depth : Nat) : Tree → String
  | .token t => blanks (2 * depth) ++ (Event.consumed t).mark ++ "\n"
  | .node r children =>
    blanks (2 * depth) ++ (Event.enter r).mark ++ "\n" ++ markupAll (depth + 1) children ++
      blanks (2 * depth) ++ (Event.leave r).mark ++ "\n"
termination_by structural t => t

def markupAll (depth : Nat) : List Tree → String
  | [] => ""
  | t :: ts => t.markup depth ++ markupAll depth ts
termination_by structural ts => ts

end

mutual

theorem balanced_events (t : Tree) : Event.Balanced t.events := by
  match t with
  | .token t => rfl
  | .node r children => exact (balanced_eventsAll children).span r
termination_by structural t

theorem balanced_eventsAll (ts : List Tree) : Event.Balanced (eventsAll ts) := by
  match ts with
  | [] => rfl
  | t :: ts => exact (balanced_events t).append (balanced_eventsAll ts)
termination_by structural ts

end

mutual

theorem writeFrom_events (depth : Nat) (es : List Event) (t : Tree) (ht : .eof ∉ t.tokens) :
    writeFrom "" depth (t.events ++ es) = t.markup depth ++ writeFrom "" depth es := by
  match t with
  | .token t =>
    have he : Event.consumed t ≠ .consumed .eof := fun he => by
      cases he
      simp [tokens] at ht
    have hd : ((Event.consumed t).line depth).2 = depth := by cases t <;> rfl
    rw [events, List.singleton_append, Event.writeFrom_cons, hd, markup,
      Event.line_eq depth he]
    rfl
  | .node r children =>
    rw [events, Event.span, List.cons_append, List.append_assoc, Event.writeFrom_cons,
      Event.line, writeFrom_eventsAll (depth + 1) _ children ht, List.singleton_append,
      Event.writeFrom_cons, Event.line, markup]
    simp [Event.mark, Event.indent_eq, String.append_assoc]
termination_by structural t

theorem writeFrom_eventsAll (depth : Nat) (es : List Event) (ts : List Tree) (ht : .eof ∉ tokensAll ts) :
    writeFrom "" depth (eventsAll ts ++ es) = markupAll depth ts ++ writeFrom "" depth es := by
  match ts with
  | [] => simp [eventsAll, markupAll]
  | t :: ts =>
    rw [tokensAll, List.mem_append, not_or] at ht
    rw [eventsAll, List.append_assoc, writeFrom_events depth _ t ht.1, writeFrom_eventsAll depth _ ts ht.2,
      markupAll, String.append_assoc]
termination_by structural ts

end

end Grammar.Tree

open Event (escape blanks mark nest? around)

/-- The text form of a record loses nothing but the end of the file, of any list of events. That of a class
is an element for every rule, with its parts inside it. -/
theorem xml_tells_events :
    (∀ es, Event.read? (Event.xml es) = some (es.filter (· ≠ .consumed .eof))) ∧
    (∀ es fs, Event.xml es = Event.xml fs →
      es.filter (· ≠ .consumed .eof) = fs.filter (· ≠ .consumed .eof)) ∧
    (∀ text, '<' ∉ (escape text).toList ∧ '>' ∉ (escape text).toList ∧
      ∀ front behind, (escape text).toList = front ++ '&' :: behind →
        ∃ entity ∈ ["lt;", "gt;", "amp;", "quot;"], entity.toList <+: behind) ∧
    ∀ items p, compileItems true items = .ok p →
      (∃ t : Grammar.Tree, t.Derives ∧ t.part = .rule .class ∧ p.events = t.events ++ [.consumed .eof] ∧
        p.xmlText = t.markup 0) ∧
      nest? [] p.events = some [] ∧
      ∀ front e behind, p.events = front ++ e :: behind → e ≠ .consumed .eof →
        ∃ opened below, nest? [] front = some opened ∧
          p.xmlText = Event.xml front ++ blanks (2 * (around opened e).length) ++ e.mark ++ "\n" ++ below ∧
          (Event.xml front = "" ∨ ∃ above, Event.xml front = above ++ "\n") := by
  refine ⟨Event.read?_xml_eq, fun es fs h => ?_, fun text => ?_, fun items p h => ?_⟩
  · have hes := Event.read?_xml_eq es
    rw [h, Event.read?_xml_eq fs] at hes
    exact (Option.some.inj hes).symm
  · exact ⟨(Event.notMem_escape text).1, (Event.notMem_escape text).2, fun _ _ => Event.entity_of_escape⟩
  · obtain ⟨c, -, r, -, rfl⟩ := compileItems_eq_ok_iff_tells.mp h
    obtain ⟨t, hd, hp, he⟩ := Grammar.exists_class_iff.mp ⟨c, rfl⟩
    have heof : .eof ∉ t.tokens := by
      rw [← t.tokens_events, he]
      exact c.eof_not_mem
    have hnest : nest? [] (t.events ++ [.consumed .eof]) = some [] := t.balanced_events.append rfl
    simp only [Compiled.xmlText, if_pos, ← he]
    refine ⟨⟨t, hd, hp, rfl, ?_⟩, hnest, fun front e behind hev hne => ?_⟩
    · rw [Event.xml, t.writeFrom_events 0 _ heof]
      exact String.append_empty
    · rw [hev] at hnest ⊢
      obtain ⟨opened, ho⟩ := Event.exists_nest? hnest
      obtain ⟨below, hb⟩ := Event.xml_append_cons behind ho hne
      exact ⟨opened, below, ho, hb, Event.writeFrom_newline 0 front⟩

theorem xml_of_tally :
    (Event.xml [.enter .term, .consumed .eof] = Event.xml [.enter .term] ∧
      [Event.enter .term, .consumed .eof].filter (· ≠ .consumed .eof) =
        [Event.enter .term].filter (· ≠ .consumed .eof)) ∧
    ((escape "&").toList = [] ++ '&' :: "amp;".toList ∧
      ∃ entity ∈ ["lt;", "gt;", "amp;", "quot;"], entity.toList <+: "amp;".toList) ∧
    ∃ p, compileItems true (Grammar.tally.lexemes.map .ok).toArray = .ok p ∧
      (∃ t : Grammar.Tree, t.Derives ∧ t.part = .rule .class ∧ p.events = t.events ++ [.consumed .eof] ∧
        p.xmlText = t.markup 0) ∧
      nest? [] p.events = some [] ∧
      ∃ behind, p.events = [] ++ .enter .class :: behind ∧ Event.enter .class ≠ .consumed .eof ∧
        ∃ opened below, nest? [] [] = some opened ∧
          p.xmlText = Event.xml [] ++ blanks (2 * (around opened (.enter .class)).length) ++
            (Event.enter .class).mark ++ "\n" ++ below ∧
          (Event.xml [] = "" ∨ ∃ above, Event.xml [] = above ++ "\n") := by
  obtain ⟨-, hinj, htext, hclass⟩ := xml_tells_events
  have hx : Event.xml [.enter .term, .consumed .eof] = Event.xml [.enter .term] := by decide
  have he : (escape "&").toList = [] ++ '&' :: "amp;".toList := by decide
  refine ⟨⟨hx, hinj _ _ hx⟩, ⟨he, (htext "&").2.2 _ _ he⟩, ?_⟩
  obtain ⟨r, hr⟩ := Option.isSome_iff_exists.mp (Grammar.tally.isSome_resolve.mpr Grammar.tally_static)
  have hp : compileItems true (Grammar.tally.lexemes.map .ok).toArray =
      .ok ⟨r.name, r.code, Grammar.tally.derivation ++ [.consumed .eof]⟩ :=
    (compileItems_eq_ok_iff Grammar.tally.token_ne_eof).mpr
      ⟨Grammar.tally, Grammar.tally.map_token_lexemes.symm, r, hr, rfl⟩
  obtain ⟨ht, hn, hl⟩ := hclass _ _ hp
  have hne : Event.enter .class ≠ .consumed .eof := by decide
  exact ⟨_, hp, ht, hn, _, rfl, hne, hl [] _ _ rfl hne⟩

end Jack
