import Jack.Compiled
import Jack.Proofs.Parse.Class

namespace Jack

namespace Window

variable {w v : Window} {t : Token} {ts : List Token} {es : List Event}

/-- The tokens ahead, up to the end of the stream, in which no error lies. -/
structure Holds (w : Window) (ts : List Token) : Prop where
  next : w.next.token = ts.headD .eof
  rest : ∃ xs : List Lexeme, w.items.toList.drop w.asked = xs.map .ok ∧ xs.map (·.token) = ts.tail

namespace Holds

theorem slide (h : w.Holds ts) : ∃ v, Window.slide w = .ok () v ∧ v.Holds ts.tail := by
  obtain ⟨xs, hxs, hts⟩ := h.rest
  have hi : w.items[w.asked]? = (xs.map .ok)[0]? := by
    rw [← hxs, List.getElem?_drop, Nat.add_zero, Array.getElem?_toList]
  have hr : w.items.toList.drop (w.asked + 1) = xs.tail.map .ok := by
    rw [← List.drop_drop, hxs, List.drop_one, List.map_tail]
  unfold Window.slide incoming
  rw [hi, ← hts]
  cases xs with
  | nil => exact ⟨_, rfl, rfl, [], hr, rfl⟩
  | cons x xs => exact ⟨_, rfl, rfl, xs, hr, rfl⟩

theorem note (h : w.Holds ts) (e : Event) : (w.note e).Holds ts :=
  ⟨h.next, h.rest⟩

theorem recording (h : w.Holds ts) (recorded : Bool) :
    (if recorded then w.startRecord else w).Holds ts := by
  cases recorded
  · exact h
  · exact ⟨h.next, h.rest⟩

theorem perform (h : w.Holds (t :: ts)) : ∃ v, w.perform (.consumed t) = some v ∧ v.Holds ts := by
  obtain ⟨v, hv, hs⟩ := h.slide
  refine ⟨v.note (.consumed t), ?_, hs.note _⟩
  have hn : w.next.token = t := h.next
  simp [Window.perform, hn, hv]

theorem perform_eof (h : w.Holds []) : ∃ v, w.perform (.consumed .eof) = some v := by
  obtain ⟨v, hv, -⟩ := h.slide
  have hn : w.next.token = .eof := h.next
  exact ⟨v.note (.consumed .eof), by simp [Window.perform, hn, hv]⟩

theorem of_perform (h : w.Holds ts) (ht : t ≠ .eof) (hp : w.perform (.consumed t) = some v) :
    ∃ ts', ts = t :: ts' ∧ v.Holds ts' := by
  have hn := h.next
  rw [next_token_of_perform hp] at hn
  cases ts with
  | nil => exact (ht hn).elim
  | cons t' ts =>
    cases hn
    obtain ⟨u, hu, hs⟩ := h.perform
    cases hp.symm.trans hu
    exact ⟨ts, rfl, hs⟩

theorem follow (h : w.Holds (Event.tokens es ++ ts)) : ∃ v, w.follow es = some v ∧ v.Holds ts := by
  induction es generalizing w with
  | nil => exact ⟨w, rfl, h⟩
  | cons e es ih =>
    cases e with
    | enter rule | leave rule =>
      obtain ⟨v, hv, hs⟩ := ih (h.note _)
      exact ⟨v, hv, hs⟩
    | consumed t =>
      obtain ⟨u, hu, hs⟩ := h.perform
      obtain ⟨v, hv, hs⟩ := ih hs
      exact ⟨v, follow_cons_of hu hv, hs⟩

theorem of_follow (h : w.Holds ts) (he : .eof ∉ Event.tokens es) (hf : w.follow es = some v) :
    ∃ ts', ts = Event.tokens es ++ ts' ∧ v.Holds ts' := by
  induction es generalizing w ts with
  | nil =>
    cases hf
    exact ⟨ts, rfl, h⟩
  | cons e es ih =>
    rw [follow_cons_iff] at hf
    obtain ⟨u, hu, hf⟩ := hf
    cases e with
    | enter rule | leave rule =>
      cases hu
      exact ih (h.note _) he hf
    | consumed t =>
      rw [Event.tokens_consumed, List.mem_cons, not_or] at he
      obtain ⟨ts, rfl, hs⟩ := h.of_perform (Ne.symm he.1) hu
      obtain ⟨ts, rfl, hv⟩ := ih hs he.2 hf
      exact ⟨ts, rfl, hv⟩

end Holds

theorem record_of_slide {u : Unit} (h : slide w = .ok u v) : v.record = w.record := by
  unfold slide at h
  split at h
  next =>
    cases h
    rfl
  next => cases h

theorem record_of_perform {e : Event} (h : w.perform e = some v) :
    v.record = w.record.map (e :: ·) := by
  cases e with
  | enter rule | leave rule =>
    cases h
    rfl
  | consumed t =>
    simp only [perform] at h
    split at h
    next =>
      split at h
      next u hu =>
        cases h
        rw [note, record_of_slide hu]
      next => cases h
    next => cases h

theorem record_of_follow (h : w.follow es = some v) :
    v.record = w.record.map (es.reverse ++ ·) := by
  induction es generalizing w with
  | nil =>
    cases h
    cases v.record <;> rfl
  | cons e es ih =>
    rw [follow_cons_iff] at h
    obtain ⟨u, hu, hv⟩ := h
    rw [ih hv, record_of_perform hu]
    cases w.record <;> simp

/-- A record holds what has happened since it was started. -/
theorem events_of_follow {recorded : Bool} (hr : w.record = none)
    (h : (if recorded then w.startRecord else w).follow es = some v) :
    v.events = if recorded then es else [] := by
  rw [events, record_of_follow h]
  cases recorded <;> simp [startRecord, hr]

theorem ofItems_holds (xs : List Lexeme) :
    ∃ w, ofItems (xs.map .ok).toArray = .ok w ∧ w.Holds (xs.map (·.token)) ∧ w.record = none := by
  cases xs with
  | nil => exact ⟨_, rfl, ⟨rfl, [], rfl, rfl⟩, rfl⟩
  | cons x xs => exact ⟨_, rfl, ⟨rfl, xs, by simp, rfl⟩, rfl⟩

end Window

end Jack
