import Jack.Proofs.Language
import Jack.Proofs.Reading.Class
import Jack.Proofs.Reading.Fork

namespace Jack

open Jack.Stream (handedOut)
open Event (tokens)
open Parse (asked Arrives Halt Similar Stop)

/-- How many items a run over the stream pulls: as many without a record as with one. -/
def pulled (items : Array Item) : Nat :=
  match Window.ofItems items with
  | .error _ => 1
  | .ok w => asked (parse w.startRecord)

/-- The tokens that a run over the stream consumes. -/
def consumed (items : Array Item) : List Token :=
  match Window.ofItems items with
  | .error _ => []
  | .ok w =>
    match parse w.startRecord with
    | .ok (_, v) => tokens v.events
    | .error s => tokens s.window.events

def Compiled.withoutEvents (p : Compiled) : Compiled := { p with events := [] }

variable {items left right : Array Item} {same : Location → Location → Prop} {n k : Nat}
  {w v : Window} {e : Error}

section Start

theorem parse_similar (hf : Fork same left right n) (hw : w.At left 0) (hv : v.At right 0)
    (hn : asked (parse w) ≤ n) : Similar same w v (parse w) (parse v) :=
  (parse_steady (w.remaining + v.remaining + 1)).similar hf hw hv (by omega) (by omega) hn

theorem parse_arrives (w : Window) : Arrives w (parse w) :=
  (parse_steady (w.remaining + 1)).arrives (Nat.lt_succ_self _) (Parse.Place.fits_anywhere w)

theorem Parse.Similar.asked_eq {α : Type} {q p : Except Stop (α × Window)} (h : Similar same w v q p)
    (hw : w.At left k) (hv : v.At right k) : asked q = asked p := by
  cases h with
  | ok hw' hv' => exact (hw.follow hw').asked_eq.trans (hv.follow hv').asked_eq.symm
  | error _ ha => exact ha

theorem record_ofItems (h : Window.ofItems items = .ok w) : w.record = none := by
  obtain ⟨x, -, rfl⟩ := Window.ofItems_eq_ok_iff.mp h
  rfl

theorem at_start (h : Window.ofItems items = .ok w) (recorded : Bool) :
    (if recorded then w.startRecord else w).At items 0 := by
  have hat := Window.at_ofItems h
  cases recorded with
  | false => exact hat
  | true =>
    exact ⟨⟨hat.shows.items_eq, hat.shows.last_eq, hat.shows.next_eq, hat.shows.asked_eq⟩, hat.asked_eq⟩

theorem pulled_of_ok (h : Window.ofItems items = .ok w) : pulled items = asked (parse w.startRecord) := by
  rw [pulled, h]

theorem pulled_of_error (h : Window.ofItems items = .error e) : pulled items = 1 := by
  rw [pulled, h]

theorem asked_parse (h : Window.ofItems items = .ok w) (recorded : Bool) :
    asked (parse (if recorded then w.startRecord else w)) = pulled items := by
  rw [pulled_of_ok h]
  have hs := parse_similar (.of_eq Eq.refl fun _ _ => rfl) (at_start h recorded) (at_start h true) (Nat.le_refl _)
  exact hs.asked_eq (at_start h recorded) (at_start h true)

theorem compileItems_of_error (h : Window.ofItems items = .error e) (recorded : Bool) :
    compileItems recorded items = .error e := by
  rw [compileItems, h]
  rfl

theorem compileItems_of_ok (h : Window.ofItems items = .ok w) (recorded : Bool) :
    compileItems recorded items = compiledOf (parse (if recorded then w.startRecord else w)) := by
  rw [compileItems, h]
  change (match parse _ with | .ok (tree, v) => _ | .error stop => _) = _
  cases parse (if recorded then w.startRecord else w) <;> rfl

end Start

section Similar

variable {q p : Except Stop (Class × Window)}

theorem Parse.Similar.compiledOf_eq {recorded : Bool} (hw : w.record = none) (hv : v.record = none)
    (h : Similar Eq (if recorded then w.startRecord else w) (if recorded then v.startRecord else v) q p) :
    compiledOf q = compiledOf p := by
  cases h with
  | ok hw' hv' =>
    rw [compiledOf, compiledOf, Window.events_of_follow hw hw', Window.events_of_follow hv hv']
  | error h ha => rw [compiledOf, compiledOf, h.eq]

theorem Parse.Similar.compiledOf_withoutEvents (hw : w.record = none)
    (h : Similar Eq (if false then w.startRecord else w) (if true then w.startRecord else w) q p) :
    compiledOf q = (compiledOf p).map Compiled.withoutEvents := by
  cases h with
  | ok hw' hv' =>
    rw [compiledOf, Window.events_of_follow hw hw']
    rfl
  | error h ha =>
    rw [compiledOf, h.eq]
    rfl

end Similar

/-- Whether a record is kept shows in the record alone. -/
theorem compileItems_false (items : Array Item) :
    compileItems false items = (compileItems true items).map Compiled.withoutEvents := by
  cases hw : Window.ofItems items with
  | error e =>
    rw [compileItems_of_error hw, compileItems_of_error hw]
    rfl
  | ok w =>
    have hs := parse_similar (.of_eq Eq.refl fun _ _ => rfl) (at_start hw false) (at_start hw true) (Nat.le_refl _)
    rw [compileItems_of_ok hw, compileItems_of_ok hw]
    exact hs.compiledOf_withoutEvents (record_ofItems hw)

theorem compileItems_eq_error_iff {recorded : Bool} :
    compileItems recorded items = .error e ↔ compileItems true items = .error e := by
  cases recorded with
  | true => exact Iff.rfl
  | false =>
    rw [compileItems_false]
    cases compileItems true items <;> simp [Except.map]

theorem pulled_pos (items : Array Item) : 0 < pulled items := by
  cases hw : Window.ofItems items with
  | error e => exact pulled_of_error hw ▸ Nat.one_pos
  | ok w =>
    have hat := at_start hw true
    have ha := (parse_steady (w.startRecord.remaining + 1)).asked_le (Nat.lt_succ_self _)
    rw [if_pos rfl] at hat
    rw [hat.asked_eq] at ha
    exact pulled_of_ok hw ▸ ha

/-- Items that are not pulled do not show. -/
theorem compileItems_of_agree (h : ∀ i < pulled left, handedOut right i = handedOut left i)
    (recorded : Bool) :
    compileItems recorded right = compileItems recorded left ∧ pulled right = pulled left := by
  have h₀ := h 0 (pulled_pos left)
  cases hw : Window.ofItems left with
  | error e =>
    have hv : Window.ofItems right = .error e := by
      rw [Window.ofItems_eq] at hw ⊢
      rw [h₀]
      cases hi : handedOut left 0 <;> rw [hi] at hw <;> cases hw
      rfl
    rw [compileItems_of_error hw, compileItems_of_error hv, pulled_of_error hw, pulled_of_error hv]
    exact ⟨rfl, rfl⟩
  | ok w =>
    obtain ⟨x, hx, -⟩ := Window.ofItems_eq_ok_iff.mp hw
    have hv := Window.ofItems_eq_ok_iff.mpr ⟨x, h₀.trans hx, rfl⟩
    have hs (recorded : Bool) := parse_similar (.of_eq Eq.refl h) (at_start hw recorded) (at_start hv recorded)
      (Nat.le_of_eq (asked_parse hw recorded))
    constructor
    · rw [compileItems_of_ok hw, compileItems_of_ok hv]
      exact ((hs recorded).compiledOf_eq (record_ofItems hw) (record_ofItems hv)).symm
    · rw [← asked_parse hw true, ← asked_parse hv true]
      exact ((hs true).asked_eq (at_start hw true) (at_start hv true)).symm

section Ends

theorem exists_stop (hw : Window.ofItems items = .ok w) (h : compileItems true items = .error e) :
    ∃ s, parse w.startRecord = .error s ∧ s.error = e ∧ pulled items = s.window.asked := by
  rw [compileItems_of_ok hw, if_pos rfl] at h
  have hp := pulled_of_ok hw
  generalize parse w.startRecord = q at h hp ⊢
  cases q with
  | ok q => cases h
  | error s => exact ⟨s, rfl, Except.error.inj h, hp⟩

/-- Where a run stops that has come as far as to open a window. -/
structure HaltsAt (items : Array Item) (e : Error) (v : Window) (s : Stop) : Prop where
  place : v.At items (consumed items).length
  halt : Halt v s
  error_eq : s.error = e
  pulled_eq : pulled items = s.window.asked
  eof_not_mem : .eof ∉ consumed items
  handed : ∀ i t, (consumed items)[i]? = some t → ∃ x, handedOut items i = .ok x ∧ x.token = t

theorem getElem?_pulled (hv : v.At items k) (hi : v.incoming = .error e) (hp : pulled items = v.asked + 1) :
    items[pulled items - 1]? = some (.error e) := by
  rw [← Stream.handedOut_eq_error_iff, hp, Nat.add_sub_cancel, hv.asked_eq, ← hv.incoming_eq]
  exact hi

theorem Parse.Halt.record_eq {s : Stop} (h : Halt v s) : s.window.record = v.record := by
  cases h <;> rfl

theorem exists_halt {recorded : Bool} (h : compileItems recorded items = .error e) :
    items[0]? = some (.error e) ∧ pulled items = 1 ∨ ∃ v s, HaltsAt items e v s := by
  rw [compileItems_eq_error_iff] at h
  cases hw : Window.ofItems items with
  | error e' =>
    rw [compileItems_of_error hw] at h
    cases h
    exact .inl ⟨Window.ofItems_eq_error_iff.mp hw, pulled_of_error hw⟩
  | ok w =>
    obtain ⟨s, hs, he, hp⟩ := exists_stop hw h
    have hat := at_start hw true
    have harr := parse_arrives w.startRecord
    rw [hs] at harr
    cases harr with
    | @error es v _ hf heof halt =>
      have hc : consumed items = tokens es := by
        rw [consumed, hw]
        simp only [hs]
        rw [Window.events, halt.record_eq, Window.record_of_follow hf]
        simp [Window.startRecord, record_ofItems hw]
      have hv := hat.follow hf
      rw [Nat.zero_add, ← hc] at hv
      refine .inr ⟨v, s, hv, halt, he, hp, hc ▸ heof, fun i t hi => ?_⟩
      rw [hc] at hi
      simpa using hat.consumed hf hi

/-- A run that comes to a result has pulled lexemes alone, up to the end of the file. -/
theorem exists_of_ok {recorded : Bool} {p : Compiled} (h : compileItems recorded items = .ok p) :
    ∃ n, pulled items = n + 2 ∧ (∀ i < n + 2, ∃ x, handedOut items i = .ok x) ∧
      ∃ x, handedOut items n = .ok x ∧ x.token = .eof := by
  cases hw : Window.ofItems items with
  | error e =>
    rw [compileItems_of_error hw] at h
    cases h
  | ok w =>
    rw [compileItems_of_ok hw] at h
    cases hp : parse (if recorded then w.startRecord else w) with
    | error s =>
      rw [hp] at h
      cases h
    | ok q =>
      obtain ⟨r, v⟩ := q
      obtain ⟨u, hu, hv⟩ := parse_eq_ok_iff.mp hp
      obtain ⟨c, hf, -⟩ := Grammar.yields_classDec.mp hu
      have hat := (at_start hw recorded).follow hf
      obtain ⟨x, hx, rfl⟩ := Window.perform_eq_past hv
      have hat' := hat.past hx
      refine ⟨_, ?_, fun i hi => ⟨_, hat'.handedOut_eq (Nat.le_of_lt_succ hi)⟩, u.next, hat.handedOut_next,
        Window.next_token_of_perform hv⟩
      rw [← asked_parse hw recorded, hp]
      exact hat'.asked_eq

end Ends

end Jack
