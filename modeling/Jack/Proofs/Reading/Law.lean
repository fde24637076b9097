import Jack.Proofs.Reading.Steady

namespace Jack

open Event (tokens)
open Jack.Stream (handedOut)

namespace Window

variable {w v : Window} {x : Lexeme} {t : Token} {es : List Event} {items : Array Item} {k : Nat}

theorem perform_of_incoming (hx : w.incoming = .ok x) :
    w.perform (.consumed w.next.token) = some (w.past x) := by
  simp [perform, slide_of_ok hx, past]

theorem perform_eq_past (h : w.perform (.consumed t) = some v) :
    ∃ x, w.incoming = .ok x ∧ v = w.past x := by
  cases hi : w.incoming with
  | error e =>
    have hn := next_token_of_perform h
    simp [perform, slide_of_error hi, hn] at h
  | ok x =>
    rw [← next_token_of_perform h, perform_of_incoming hi] at h
    exact ⟨x, rfl, (Option.some.inj h).symm⟩

theorem At.past (h : w.At items k) (hx : w.incoming = .ok x) : (w.past x).At items (k + 1) :=
  (h.move hx).note _

theorem At.follow (h : w.At items k) (hf : w.follow es = some v) :
    v.At items (k + (tokens es).length) := by
  induction es generalizing w k with
  | nil =>
    cases hf
    exact h
  | cons e es ih =>
    obtain ⟨u, hu, hv⟩ := follow_cons_iff.mp hf
    cases e with
    | enter rule | leave rule =>
      cases hu
      exact ih (h.note _) hv
    | consumed t =>
      obtain ⟨x, hx, rfl⟩ := perform_eq_past hu
      rw [Event.tokens_consumed, List.length_cons, ← Nat.add_assoc, Nat.add_right_comm]
      exact ih (h.past hx) hv

/-- What is consumed is what the stream has handed out, one item after the other. -/
theorem At.consumed (h : w.At items k) (hf : w.follow es = some v) {i : Nat} {t : Token}
    (hi : (tokens es)[i]? = some t) : ∃ x, handedOut items (k + i) = .ok x ∧ x.token = t := by
  induction es generalizing w k i with
  | nil => cases hi
  | cons e es ih =>
    obtain ⟨u, hu, hv⟩ := follow_cons_iff.mp hf
    cases e with
    | enter rule | leave rule =>
      cases hu
      exact ih (h.note _) hv hi
    | consumed t' =>
      obtain ⟨x, hx, rfl⟩ := perform_eq_past hu
      rw [Event.tokens_consumed] at hi
      cases i with
      | zero =>
        cases hi
        exact ⟨w.next, h.handedOut_next, next_token_of_perform hu⟩
      | succ i =>
        rw [← Nat.add_assoc, Nat.add_right_comm]
        exact ih (h.past hx) hv hi

end Window

namespace Parse

open Reading

def asked {α : Type} : Except Stop (α × Window) → Nat
  | .ok q => q.2.asked
  | .error s => s.window.asked

/-- The ways to stop at a window. -/
inductive Halt (v : Window) : Stop → Prop where
  | stream {e : Error} (h : v.incoming = .error e) : Halt v ⟨e, { v with asked := v.asked + 1 }⟩
  | unexpected {expected : List TokenKind} (h : v.next.token.kind ∉ expected) :
      Halt v ⟨v.unexpectedNext expected, v⟩
  | rejected {fault : Fault} (h : fault.Blames v.last.token) : Halt v ⟨⟨v.last.location, fault⟩, v⟩

/-- A program that starts from `w` comes to this end, or stops at a window on the way. -/
inductive Arrives {α : Type} (w : Window) : Except Stop (α × Window) → Prop where
  | ok {es : List Event} {a : α} {v : Window} (h : w.follow es = some v) : Arrives w (.ok (a, v))
  | error {es : List Event} {v : Window} {s : Stop} (h : w.follow es = some v)
      (heof : .eof ∉ tokens es) (hs : Halt v s) : Arrives w (.error s)

variable {α β : Type} {r : Nat} {c : Place} {m : Reading α} {w : Window}

theorem Arrives.cons {u : Window} {e : Event} {q : Except Stop (α × Window)} (hu : w.perform e = some u)
    (he : .eof ∉ tokens [e]) (h : Arrives u q) : Arrives w q := by
  cases h with
  | ok h => exact .ok (Window.follow_cons_of hu h)
  | error h heof hs =>
    refine .error (Window.follow_cons_of hu h) ?_ hs
    rw [← List.singleton_append, Event.tokens_append, List.mem_append, not_or]
    exact ⟨he, heof⟩

section Take

variable {expected : List TokenKind} {read : Token → Option β} {f : β → Reading α}

/-- The token ahead is not taken, or the one behind it is an error, or the program goes on between the
two. -/
theorem take_bind_cases (expected : List TokenKind) (read : Token → Option β) (f : β → Reading α)
    (w : Window) :
    (read w.next.token = none ∧
      (take expected read >>= f) w = .error ⟨w.unexpectedNext expected, w⟩) ∨
    (∃ b e, read w.next.token = some b ∧ w.incoming = .error e ∧
      (take expected read >>= f) w = .error ⟨e, { w with asked := w.asked + 1 }⟩) ∨
    ∃ b x, read w.next.token = some b ∧ w.incoming = .ok x ∧
      (take expected read >>= f) w = f b (w.past x) := by
  cases hr : read w.next.token with
  | none => exact .inl ⟨rfl, take_bind_of_none hr⟩
  | some b =>
    cases hi : w.incoming with
    | error e => exact .inr (.inl ⟨b, e, rfl, rfl, take_bind_of_error hr hi⟩)
    | ok x => exact .inr (.inr ⟨b, x, rfl, rfl, take_bind_of_ok hr hi⟩)

theorem asked_le_take
    (h : ∀ b x, read w.next.token = some b → w.incoming = .ok x → w.asked + 1 ≤ asked (f b (w.past x))) :
    w.asked ≤ asked ((take expected read >>= f) w) ∧
      ((read w.next.token).isSome → w.asked < asked ((take expected read >>= f) w)) := by
  obtain ⟨hr, he⟩ | ⟨b, e, hr, hi, he⟩ | ⟨b, x, hr, hi, he⟩ := take_bind_cases expected read f w
  · rw [he, hr]
    exact ⟨Nat.le_refl _, fun hs => Bool.noConfusion hs⟩
  · rw [he]
    exact ⟨Nat.le_succ _, fun _ => Nat.lt_succ_self _⟩
  · rw [he]
    exact ⟨Nat.le_of_succ_le (h b x hr hi), fun _ => h b x hr hi⟩

theorem arrives_take (hc : c.Takes expected read) (hw : c.Fits w)
    (heof : read .eof = none ∨ ∀ b v, ∃ a, f b v = .ok (a, v))
    (h : ∀ b x, read w.next.token = some b → w.incoming = .ok x → Arrives (w.past x) (f b (w.past x))) :
    Arrives w ((take expected read >>= f) w) := by
  obtain ⟨hr, he⟩ | ⟨b, e, hr, hi, he⟩ | ⟨b, x, hr, hi, he⟩ := take_bind_cases expected read f w
  · rw [he]
    refine .error (Window.follow_nil w) List.not_mem_nil (.unexpected fun hk => ?_)
    simpa [hr] using hc _ hw.next (.inr hk)
  · rw [he]
    exact .error (Window.follow_nil w) List.not_mem_nil (.stream hi)
  · rw [he]
    have hp := Window.perform_of_incoming hi
    obtain heof | hpure := heof
    · refine (h b x hr hi).cons hp ?_
      intro hn
      rw [Event.tokens_consumed, List.mem_cons] at hn
      obtain hn | hn := hn
      · simp [← hn, heof] at hr
      · cases hn
    · obtain ⟨a, ha⟩ := hpure b (w.past x)
      rw [ha]
      exact .ok (Window.follow_cons_of hp (Window.follow_nil _))

end Take

theorem Place.Fits.behind {read : Token → Option β} {b : β} {x : Lexeme}
    (hr : read w.next.token = some b) : (Place.behind read b).Fits (w.past x) :=
  ⟨hr, trivial⟩

theorem remaining_past_lt {read : Token → Option β} (heof : read .eof = none) {b : β} {x : Lexeme}
    (hr : read w.next.token = some b) (hx : w.incoming = .ok x) (hw : w.remaining < r + 1) :
    (w.past x).remaining < r := by
  have hn : w.next.token ≠ .eof := fun he => by simp [he, heof] at hr
  exact Nat.lt_of_lt_of_le (Window.remaining_past hx hn) (Nat.le_of_lt_succ hw)

theorem choose_cases (kinds : List TokenKind) (m l : Reading α) (w : Window) :
    (w.nextIsAmong kinds = true ∧ choose kinds m l w = m w) ∨
      (w.nextIsAmong kinds = false ∧ choose kinds m l w = l w) := by
  rw [choose]
  cases h : w.nextIsAmong kinds
  · exact .inr ⟨rfl, rfl⟩
  · exact .inl ⟨rfl, rfl⟩

namespace Steady

theorem asked_le (h : Steady r c m) (hr : w.remaining < r) : w.asked ≤ asked (m w) := by
  induction h generalizing w with
  | zero => exact absurd hr (Nat.not_lt_zero _)
  | give | refuse | fail => exact Nat.le_refl _
  | mark _ _ ih => exact ih (w := w.note _) hr
  | take _ heof _ ih =>
    exact (asked_le_take fun b x hb hx => ih b (remaining_past_lt heof hb hx hr)).1
  | takeEnd => exact (asked_le_take fun _ _ _ _ => Nat.le_refl _).1
  | @choose _ _ kinds m l _ _ ih ih' =>
    obtain ⟨-, he⟩ | ⟨-, he⟩ := choose_cases kinds m l w
    · exact he ▸ ih hr
    · exact he ▸ ih' hr

theorem asked_le_behind {read : Token → Option β} {f : β → Reading α}
    (h : ∀ b, Steady r (.behind read b) (f b)) (heof : read .eof = none) (hr : w.remaining < r + 1) (b : β)
    (x : Lexeme) (hb : read w.next.token = some b) (hx : w.incoming = .ok x) :
    w.asked + 1 ≤ asked (f b (w.past x)) :=
  (h b).asked_le (remaining_past_lt heof hb hx hr)

/-- A token that is going to be consumed is not all that is asked for. -/
theorem asked_lt (h : Steady r c m) (hr : w.remaining < r) (hd : c.due) (hw : c.Fits w) :
    w.asked < asked (m w) := by
  induction h generalizing w with
  | zero => exact absurd hr (Nat.not_lt_zero _)
  | give hc | refuse hc | fail hc => exact absurd hw.next (hc hd _)
  | mark _ _ ih => exact ih (w := w.note _) hr hd ⟨hw.last, hw.next⟩
  | take hc heof hf =>
    exact (asked_le_take (asked_le_behind hf heof hr)).2 (hc _ hw.next (.inl hd))
  | takeEnd hc => exact (asked_le_take fun _ _ _ _ => Nat.le_refl _).2 (hc _ hw.next (.inl hd))
  | @choose _ _ kinds m l _ _ ih ih' =>
    obtain ⟨hk, he⟩ | ⟨hk, he⟩ := choose_cases kinds m l w
    · exact he ▸ ih hr trivial (hw.among hk)
    · exact he ▸ ih' hr hd (hw.notAmong hk)

theorem arrives (h : Steady r c m) (hr : w.remaining < r) (hw : c.Fits w) : Arrives w (m w) := by
  induction h generalizing w with
  | zero => exact absurd hr (Nat.not_lt_zero _)
  | give => exact .ok (Window.follow_nil w)
  | @mark _ _ e m he _ ih =>
    have hp : w.perform e = some (w.note e) := by
      cases e with
      | enter | leave => rfl
      | consumed t => cases he
    exact (ih (w := w.note e) hr ⟨hw.last, hw.next⟩).cons hp (he ▸ List.not_mem_nil)
  | take hc heof _ ih =>
    exact arrives_take hc hw (.inl heof) fun b x hb hx =>
      ih b (remaining_past_lt heof hb hx hr) (.behind hb)
  | takeEnd hc a =>
    refine arrives_take hc hw (.inr fun _ _ => ⟨a, rfl⟩) fun _ x _ _ => ?_
    exact .ok (Window.follow_nil (w.past x))
  | @choose _ _ kinds m l _ _ ih ih' =>
    obtain ⟨hk, he⟩ | ⟨hk, he⟩ := choose_cases kinds m l w
    · exact he ▸ ih hr (hw.among hk)
    · exact he ▸ ih' hr (hw.notAmong hk)
  | refuse _ he => exact .error (Window.follow_nil w) List.not_mem_nil (.unexpected fun hk => he _ hk hw.next)
  | fail _ hf => exact .error (Window.follow_nil w) List.not_mem_nil (.rejected (hf _ hw.last))

end Steady

end Parse

end Jack
