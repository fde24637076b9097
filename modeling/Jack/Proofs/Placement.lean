import Jack.Proofs.Lexeme.Scan
import Jack.Proofs.Reading.Whole

namespace Jack

open Jack.Stream (handedOut)

/-- What there is in an item apart from its place. -/
def unplaced (i : Item) : Except Fault Token :=
  (i.mapError (·.fault)).map (·.token)

/-- The same is compiled, or the same fault is found, though perhaps at another place. -/
inductive SameOutcome : Except Error Compiled → Except Error Compiled → Prop
  | ok (p : Compiled) : SameOutcome (.ok p) (.ok p)
  | error {e e' : Error} (h : e.fault = e'.fault) : SameOutcome (.error e) (.error e')

/-- Lexemes and errors are taken for the same wherever they stand. -/
abbrev Anywhere : Location → Location → Prop := fun _ _ => True

theorem likeItems_of_unplaced_eq {i j : Item} (h : unplaced i = unplaced j) : LikeItems Anywhere i j := by
  cases i with
  | ok x => cases j with
    | ok y => exact .ok ⟨Except.ok.inj h, trivial⟩
    | error e => cases h
  | error e => cases j with
    | ok y => cases h
    | error e' => exact .error ⟨Except.error.inj h, trivial⟩

section Streams

variable {left right : Array Item} {w v : Window} {recorded : Bool}

theorem likeItems_handedOut (h : left.map unplaced = right.map unplaced) (i : Nat) :
    LikeItems Anywhere (handedOut left i) (handedOut right i) := by
  have hi : left[i]?.map unplaced = right[i]?.map unplaced := by
    rw [← Array.getElem?_map, ← Array.getElem?_map, h]
  unfold handedOut
  cases hl : left[i]? with
  | none =>
    rw [hl, Option.map_none, eq_comm, Option.map_eq_none_iff] at hi
    rw [hi]
    exact .ok ⟨rfl, trivial⟩
  | some x =>
    rw [hl, Option.map_some, eq_comm, Option.map_eq_some_iff] at hi
    obtain ⟨y, hy, hxy⟩ := hi
    rw [hy]
    exact likeItems_of_unplaced_eq hxy.symm

theorem fork_anywhere (h : left.map unplaced = right.map unplaced) (n : Nat) :
    Fork Anywhere left right n :=
  ⟨trivial, fun i _ => likeItems_handedOut h i⟩

theorem Parse.Similar.sameOutcome {q p : Except Stop (Class × Window)} {same : Location → Location → Prop}
    (hw : w.record = none) (hv : v.record = none)
    (h : Similar same (if recorded then w.startRecord else w) (if recorded then v.startRecord else v) q p) :
    SameOutcome (compiledOf q) (compiledOf p) := by
  cases h with
  | ok hw' hv' =>
    rw [compiledOf, compiledOf, Window.events_of_follow hw hw', Window.events_of_follow hv hv']
    exact .ok _
  | error h => exact .error h.fault

theorem compileItems_sameOutcome (h : left.map unplaced = right.map unplaced) :
    SameOutcome (compileItems recorded left) (compileItems recorded right) := by
  have h₀ := likeItems_handedOut h 0
  cases hw : Window.ofItems left with
  | error e =>
    rw [Stream.handedOut_eq_error_iff.mpr (Window.ofItems_eq_error_iff.mp hw)] at h₀
    cases hy : handedOut right 0 with
    | ok y =>
      rw [hy] at h₀
      cases h₀
    | error e' =>
      have hv := Window.ofItems_eq_error_iff.mpr (Stream.handedOut_eq_error_iff.mp hy)
      rw [hy] at h₀
      cases h₀ with
      | error h₀ =>
        rw [compileItems_of_error hw, compileItems_of_error hv]
        exact .error h₀.fault
  | ok w =>
    obtain ⟨x, hx, -⟩ := Window.ofItems_eq_ok_iff.mp hw
    rw [hx] at h₀
    cases hy : handedOut right 0 with
    | error e =>
      rw [hy] at h₀
      cases h₀
    | ok y =>
      have hv := Window.ofItems_eq_ok_iff.mpr ⟨y, hy, rfl⟩
      rw [compileItems_of_ok hw, compileItems_of_ok hv]
      exact (parse_similar (fork_anywhere h _) (at_start hw recorded) (at_start hv recorded)
        (Nat.le_refl _)).sameOutcome (record_ofItems hw) (record_ofItems hv)

end Streams

namespace Lexeme

def Layout.words : Layout → List (List Char × Token)
  | .last _ => []
  | .next _ text token rest => (text, token) :: rest.words

theorem Layout.map_snd_words (a : Layout) : a.words.map Prod.snd = a.tokens := by
  induction a with
  | last => rfl
  | next gap text token rest ih => rw [words, tokens, List.map_cons, ih]

theorem Layout.Valid.map_unplaced_scan {a : Layout} (h : a.Valid) :
    (scan (String.ofList a.text)).map unplaced = (a.tokens.map .ok).toArray := by
  rw [scan, String.toList_ofList, h.scanFrom_text, Array.empty_append, ← a.map_token_lexemes ⟨1, 0⟩]
  simp [Function.comp_def, unplaced, Except.map, Except.mapError]

theorem exists_map_ok {items : List Item} (h : ∀ i ∈ items, ∃ x, i = .ok x) :
    ∃ xs : List Lexeme, items = xs.map .ok := by
  induction items with
  | nil => exact ⟨[], rfl⟩
  | cons i items ih =>
    obtain ⟨⟨x, rfl⟩, hitems⟩ := List.forall_mem_cons.mp h
    obtain ⟨xs, rfl⟩ := ih hitems
    exact ⟨x :: xs, rfl⟩

theorem exists_layout_of_scan {source : String} (h : ∀ i ∈ scan source, ∃ x, i = .ok x) :
    ∃ a : Layout, a.Valid ∧ a.text = source.toList := by
  obtain ⟨xs, hxs⟩ := exists_map_ok fun i hi => h i (Array.mem_toList_iff.mp hi)
  have hscan : scanFrom #[] ⟨1, 0⟩ source.toList = (xs.map .ok).toArray := Array.toList_inj.mp hxs
  obtain ⟨a, ha, ht, -⟩ := exists_layout hscan
  exact ⟨a, ha, ht⟩

end Lexeme

open Lexeme (Layout scan)

/-- Of two streams that differ in places alone, and of two texts that are scanned as the same tokens, the
same class with the same code and the same record is compiled, or else the same fault is found. So it is with
a text that is scanned without an error and any other with the same lexemes, which may have other blanks and
comments between them as long as no lexeme is read on into the next. -/
theorem places_do_not_matter :
    (∀ recorded (left right : Array Item), left.map unplaced = right.map unplaced →
      SameOutcome (compileItems recorded left) (compileItems recorded right)) ∧
    (∀ recorded left right, (scan left).map unplaced = (scan right).map unplaced →
      SameOutcome (compile recorded left) (compile recorded right)) ∧
    ∀ recorded source, (∀ i ∈ scan source, ∃ x, i = .ok x) →
      ∃ a : Layout, a.Valid ∧ a.text = source.toList ∧ ∀ b : Layout, b.Valid → b.words = a.words →
        SameOutcome (compile recorded source) (compile recorded (String.ofList b.text)) := by
  refine ⟨fun _ _ _ => compileItems_sameOutcome, fun _ _ _ => compileItems_sameOutcome,
    fun recorded source h => ?_⟩
  obtain ⟨a, ha, ht⟩ := Lexeme.exists_layout_of_scan h
  refine ⟨a, ha, ht, fun b hb hw => compileItems_sameOutcome ?_⟩
  have hs : source = String.ofList a.text := by rw [ht, String.ofList_toList]
  rw [hs, ha.map_unplaced_scan, hb.map_unplaced_scan, ← a.map_snd_words, ← hw, b.map_snd_words]

theorem places_of_class_do_not_matter :
    SameOutcome (compileItems true #[.ok ⟨.keyword .class, ⟨1, 1⟩⟩, .ok ⟨.integer 5, ⟨1, 7⟩⟩])
      (compileItems true #[.ok ⟨.keyword .class, ⟨9, 4⟩⟩, .ok ⟨.integer 5, ⟨2, 2⟩⟩]) ∧
    SameOutcome (compile true "class A{}") (compile true "class /* b */ A\n{ }// c") ∧
    ∃ a : Layout, a.text = "class A{}".toList ∧ ∀ b : Layout, b.Valid → b.words = a.words →
      SameOutcome (compile true "class A{}") (compile true (String.ofList b.text)) := by
  have hs : (scan "class A{}").map unplaced = (scan "class /* b */ A\n{ }// c").map unplaced := by decide +kernel
  have hok : ∀ i ∈ scan "class A{}", ∃ x, i = .ok x := by
    have hx : scan "class A{}" = #[.ok ⟨.keyword .class, ⟨1, 1⟩⟩, .ok ⟨.identifier "A", ⟨1, 7⟩⟩,
        .ok ⟨.symbol .leftBrace, ⟨1, 8⟩⟩, .ok ⟨.symbol .rightBrace, ⟨1, 9⟩⟩] := by decide +kernel
    simp [hx]
  obtain ⟨a, -, ht, hb⟩ := places_do_not_matter.2.2 true "class A{}" hok
  exact ⟨places_do_not_matter.1 true _ _ (by decide +kernel), places_do_not_matter.2.1 true _ _ hs, a, ht, hb⟩

end Jack
