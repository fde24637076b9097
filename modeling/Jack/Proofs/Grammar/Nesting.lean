import Jack.Proofs.Grammar.Tree

namespace Jack.Event

/-- The rules that are open behind the events, the innermost first, if each rule that is left is the
innermost one that is open. -/
def nest? : List Rule → List Event → Option (List Rule)
  | opened, [] => some opened
  | opened, .enter r :: es => nest? (r :: opened) es
  | opened, .consumed _ :: es => nest? opened es
  | r' :: opened, .leave r :: es => if r = r' then nest? opened es else none
  | [], .leave _ :: _ => none

def Balanced (es : List Event) : Prop := nest? [] es = some []

variable {r r' : Rule} {t u : Token} {es fs inner front behind : List Event} {opened inside : List Rule}

theorem nest?_append (opened : List Rule) (es fs : List Event) :
    nest? opened (es ++ fs) = (nest? opened es).bind (nest? · fs) := by
  induction es generalizing opened with
  | nil => rfl
  | cons e es ih =>
    cases e with
    | enter r | consumed t => exact ih _
    | leave r =>
      cases opened with
      | nil => rfl
      | cons r' opened =>
        rw [List.cons_append, nest?, nest?]
        split
        · exact ih opened
        · rfl

/-- Rules that are open all the time do not matter. -/
theorem nest?_lift (h : nest? opened es = some inside) (around : List Rule) :
    nest? (opened ++ around) es = some (inside ++ around) := by
  induction es generalizing opened with
  | nil =>
    cases h
    rfl
  | cons e es ih =>
    cases e with
    | enter r | consumed t => exact ih h
    | leave r =>
      cases opened with
      | nil => cases h
      | cons r' opened =>
        rw [nest?] at h
        rw [List.cons_append, nest?]
        split at h
        next hr =>
          rw [if_pos hr]
          exact ih h
        next => cases h

theorem exists_nest? (h : nest? opened (es ++ fs) = some inside) : ∃ between, nest? opened es = some between := by
  rw [nest?_append, Option.bind_eq_some_iff] at h
  exact h.imp fun _ => And.left

namespace Balanced

theorem nest?_eq (h : Balanced es) (opened : List Rule) : nest? opened es = some opened :=
  nest?_lift h opened

theorem nil : Balanced [] := rfl

theorem append (h : Balanced es) (h' : Balanced fs) : Balanced (es ++ fs) := by
  rw [Balanced, nest?_append, h, Option.bind_some, h']

theorem consumed (t : Token) (h : Balanced es) : Balanced (.consumed t :: es) := h

theorem enclosed (t u : Token) (h : Balanced es) : Balanced (.consumed t :: (es ++ [.consumed u])) :=
  h.append rfl

theorem span (r : Rule) (h : Balanced es) : Balanced (span r es) := by
  rw [Balanced, Event.span, nest?, nest?_append, h.nest?_eq, Option.bind_some]
  simp [nest?]

theorem flatMap {α : Type} {f : α → List Event} {as : List α} (h : ∀ a ∈ as, Balanced (f a)) :
    Balanced (as.flatMap f) := by
  induction as with
  | nil => rfl
  | cons a as ih =>
    rw [List.forall_mem_cons] at h
    exact h.1.append (ih h.2)

end Balanced

/-- Where a rule ends that was open from the start is told by what is in front. -/
theorem eq_of_append_leave (h : Balanced es) (h' : Balanced fs)
    (he : es ++ .leave r :: front = fs ++ .leave r' :: behind) : es = fs ∧ r = r' ∧ front = behind := by
  have ends {es more : List Event} {r : Rule} (h : Balanced es) : ¬ Balanced (es ++ .leave r :: more) := by
    intro hb
    rw [Balanced, nest?_append, h] at hb
    cases hb
  obtain ⟨more, rfl, hm⟩ | ⟨more, rfl, hm⟩ := List.append_eq_append_iff.mp he
  · cases more with
    | nil =>
      cases hm
      exact ⟨(List.append_nil _).symm, rfl, rfl⟩
    | cons e more =>
      cases hm
      exact (ends h h').elim
  · cases more with
    | nil =>
      cases hm
      exact ⟨List.append_nil _, rfl, rfl⟩
    | cons e more =>
      cases hm
      exact (ends h' h).elim

/-- Between the marks of a rule, a part that is balanced ends before the rule does. -/
theorem not_balanced_of_open (hi : Balanced (es ++ fs)) : ¬ Balanced (front ++ .enter r :: es) := by
  intro h
  obtain ⟨between, hb⟩ := exists_nest? hi
  rw [Balanced, nest?_append, Option.bind_eq_some_iff] at h
  obtain ⟨opened, -, h⟩ := h
  have hl := nest?_lift hb (r :: opened)
  rw [List.nil_append] at hl
  cases between <;> cases hl.symm.trans h

section Split

variable (hi : Balanced inner)

include hi

theorem split_append (h : Balanced es) (he : es ++ fs = front ++ (span r inner ++ behind)) :
    (∃ more, behind = more ++ fs ∧ es = front ++ (span r inner ++ more)) ∨
      ∃ more, front = es ++ more ∧ fs = more ++ (span r inner ++ behind) := by
  obtain ⟨more, rfl, hm⟩ | ⟨more, rfl, hm⟩ := List.append_eq_append_iff.mp he
  · exact .inr ⟨more, rfl, hm⟩
  cases more with
  | nil => exact .inr ⟨[], by simp, by simpa using hm.symm⟩
  | cons e more =>
    obtain ⟨rfl, hin⟩ := List.cons.inj hm
    rw [List.append_eq, List.append_assoc, List.append_eq, List.append_eq_append_iff] at hin
    obtain ⟨rest, rfl, hr⟩ | ⟨rest, hr, -⟩ := hin
    · cases rest with
      | nil =>
        rw [List.append_nil] at h
        exact (not_balanced_of_open ((List.append_nil inner).symm ▸ hi) h).elim
      | cons e rest =>
        obtain ⟨rfl, rfl⟩ := List.cons.inj hr
        exact .inl ⟨rest, rfl, by simp [span]⟩
    · exact (not_balanced_of_open (hr ▸ hi) h).elim

omit hi in
theorem split_consumed (he : .consumed t :: es = front ++ (span r inner ++ behind)) :
    ∃ more, front = .consumed t :: more ∧ es = more ++ (span r inner ++ behind) := by
  cases front with
  | nil => cases he
  | cons e front =>
    obtain ⟨rfl, hes⟩ := List.cons.inj he
    exact ⟨front, rfl, hes⟩

omit hi in
theorem not_split_nil : ¬ [] = front ++ (span r inner ++ behind) := by
  simp [span]

theorem split_enclosed (h : Balanced es)
    (he : .consumed t :: (es ++ [.consumed u]) = front ++ (span r inner ++ behind)) :
    ∃ front' behind', front = .consumed t :: front' ∧ behind = behind' ++ [.consumed u] ∧
      es = front' ++ (span r inner ++ behind') := by
  obtain ⟨front, rfl, hes⟩ := split_consumed he
  obtain ⟨more, rfl, hm⟩ | ⟨more, rfl, hm⟩ := split_append hi h hes
  · exact ⟨front, more, rfl, rfl, hm⟩
  · obtain ⟨more, rfl, hn⟩ := split_consumed hm
    exact (not_split_nil hn).elim

/-- What a rule reads is what another rule reads, or it lies between the marks of that. -/
theorem split_span (h : Balanced es) (he : span r' es = front ++ (span r inner ++ behind)) :
    (front = [] ∧ behind = [] ∧ r' = r ∧ es = inner) ∨
      ∃ front' behind', front = .enter r' :: front' ∧ behind = behind' ++ [.leave r'] ∧
        es = front' ++ (span r inner ++ behind') := by
  cases front with
  | nil =>
    obtain ⟨hr, he⟩ := List.cons.inj he
    cases hr
    rw [List.append_eq, List.append_assoc] at he
    obtain ⟨rfl, -, rfl⟩ := eq_of_append_leave h hi he
    exact .inl ⟨rfl, rfl, rfl, rfl⟩
  | cons e front =>
    obtain ⟨rfl, hes⟩ := List.cons.inj he
    obtain ⟨more, rfl, hm⟩ | ⟨more, rfl, hm⟩ := split_append hi h hes
    · exact .inr ⟨front, more, rfl, rfl, hm⟩
    · cases more with
      | nil => cases hm
      | cons e more =>
        obtain ⟨-, hm⟩ := List.cons.inj hm
        exact (not_split_nil hm).elim

theorem split_flatMap {α : Type} {f : α → List Event} {as : List α} (h : ∀ a ∈ as, Balanced (f a))
    (he : as.flatMap f = front ++ (span r inner ++ behind)) :
    ∃ as₁ a as₂ front' behind', as = as₁ ++ a :: as₂ ∧ front = as₁.flatMap f ++ front' ∧
      behind = behind' ++ as₂.flatMap f ∧ f a = front' ++ (span r inner ++ behind') := by
  induction as generalizing front with
  | nil => exact (not_split_nil he).elim
  | cons a as ih =>
    rw [List.forall_mem_cons] at h
    obtain ⟨more, rfl, hm⟩ | ⟨more, rfl, hm⟩ := split_append hi h.1 he
    · exact ⟨[], a, as, front, more, rfl, rfl, rfl, hm⟩
    · obtain ⟨as₁, a', as₂, front', behind', rfl, rfl, rfl, hf⟩ := ih h.2 hm
      exact ⟨a :: as₁, a', as₂, front', behind', rfl, by simp, rfl, hf⟩

end Split

end Jack.Event
