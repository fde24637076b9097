import Jack.Proofs.Reading.Whole

/-!
The pace of a program: how many tokens are left at most, and which rules may have been entered since the last
one. Who enters no rule twice without a token in between does not go round in circles, and where fewer tokens
are left than there is fuel, the fuel does not run out.
-/

namespace Jack

namespace Event

/-- The rules that have been entered since the last token, by a record, the latest event of which is first. -/
def entered : List Event → List Rule
  | [] | .consumed _ :: _ => []
  | .enter r :: es => r :: entered es
  | .leave _ :: es => entered es

/-- No rule has been entered twice without a token in between. -/
def Spaced : List Event → Prop
  | [] => True
  | .enter r :: es => r ∉ entered es ∧ Spaced es
  | .leave _ :: es | .consumed _ :: es => Spaced es

variable {es fs gs : List Event} {r : Rule}

theorem entered_append (h : tokens es = []) : entered (es ++ fs) = entered es ++ entered fs := by
  induction es with
  | nil => rfl
  | cons e es ih =>
    cases e with
    | enter r => exact congrArg (r :: ·) (ih h)
    | leave r => exact ih h
    | consumed t => cases h

theorem Spaced.of_append (h : Spaced (es ++ fs)) : Spaced fs := by
  induction es with
  | nil => exact h
  | cons e es ih =>
    cases e with
    | enter r => exact ih h.2
    | leave r | consumed t => exact ih h

/-- Between two entries of a rule a token has been consumed. -/
theorem Spaced.tokens_ne_nil (h : Spaced (fs ++ .enter r :: (es ++ .enter r :: gs))) : tokens es ≠ [] := by
  intro he
  refine h.of_append.1 ?_
  rw [entered_append he]
  exact List.mem_append_right _ List.mem_cons_self

end Event

namespace Window

variable {w : Window} {x : Lexeme}

def trail (w : Window) : List Event := w.record.getD []

theorem trail_note (w : Window) (e : Event) :
    (w.note e).trail = [] ∧ w.trail = [] ∨ (w.note e).trail = e :: w.trail := by
  cases hw : w.record with
  | none => exact .inl ⟨by simp [trail, note, hw], by simp [trail, hw]⟩
  | some es => exact .inr (by simp [trail, note, hw])

theorem remaining_past_le (hx : w.incoming = .ok x) : (w.past x).remaining ≤ w.remaining := by
  by_cases hw : w.next.token = .eof
  · rw [remaining, remaining, if_pos hw]
    change w.items.size - (w.asked + 1) + (if x.token = .eof then 0 else 1) ≤ _
    by_cases hlt : w.asked < w.items.size
    · have hone : (if x.token = .eof then 0 else 1) ≤ 1 := by split <;> decide
      omega
    · have hx' : x.token = .eof := by
        rw [incoming, Array.getElem?_eq_none (Nat.not_lt.mp hlt)] at hx
        exact congrArg Lexeme.token (Except.ok.inj hx).symm
      rw [if_pos hx']
      omega
  · exact Nat.le_of_lt (remaining_past hx hw)

end Window

namespace Parse

open Event (entered Spaced)
open Reading (take exactly name mark refuse fail)

structure Pace where
  /-- So many tokens are left at most, and one. -/
  left : Nat
  entered : List Rule

namespace Pace

structure Holds (p : Pace) (w : Window) : Prop where
  left : w.remaining < p.left
  entered : Event.entered w.trail ⊆ p.entered
  spaced : Spaced w.trail

variable {α : Type} {p q : Pace} {w : Window} {e : Event} {x : Lexeme} {k : Nat} {rs : List Rule} {r : Rule}

theorem Holds.mono (h : p.Holds w) (hl : p.left ≤ q.left) (he : p.entered ⊆ q.entered) : q.Holds w :=
  ⟨Nat.lt_of_lt_of_le h.left hl, fun _ hr => he (h.entered hr), h.spaced⟩

theorem Holds.enter (h : Holds ⟨k, rs⟩ w) (hr : r ∉ rs) : Holds ⟨k, r :: rs⟩ (w.note (.enter r)) := by
  obtain ⟨hn, -⟩ | hn := w.trail_note (.enter r)
  · exact ⟨h.left, by simp [hn, Event.entered], by simp [hn, Spaced]⟩
  · refine ⟨h.left, ?_, ?_⟩
    · rw [hn]
      exact List.cons_subset_cons r h.entered
    · rw [hn]
      exact ⟨fun hw => hr (h.entered hw), h.spaced⟩

theorem Holds.leave (h : p.Holds w) : p.Holds (w.note (.leave r)) := by
  obtain ⟨hn, ht⟩ | hn := w.trail_note (.leave r)
  · exact ⟨h.left, hn ▸ ht ▸ h.entered, hn ▸ ht ▸ h.spaced⟩
  · exact ⟨h.left, hn ▸ h.entered, hn ▸ h.spaced⟩

theorem Holds.past (h : p.Holds w) (hk : (w.past x).remaining < k) : Holds ⟨k, []⟩ (w.past x) := by
  obtain ⟨hn, -⟩ | hn := (w.move x).trail_note (.consumed w.next.token)
  · exact ⟨hk, by simp [Window.past, hn, Event.entered], by simp [Window.past, hn, Spaced]⟩
  · refine ⟨hk, by simp [Window.past, hn, Event.entered], ?_⟩
    rw [Window.past, hn]
    exact h.spaced

/-- What holds behind a run that is not stopped by an error. In any case it keeps the pace. -/
def After (q : Pace) : Except Stop (α × Window) → Prop
  | .ok (_, v) => q.Holds v
  | .error s => Spaced s.window.trail

theorem After.mono {y : Except Stop (α × Window)} (h : p.After y) (hl : p.left ≤ q.left)
    (he : p.entered ⊆ q.entered) : q.After y := by
  cases y with
  | error s => exact h
  | ok y => exact Holds.mono h hl he

end Pace

theorem Reading.bind_apply {α β : Type} (m : Reading α) (g : α → Reading β) (w : Window) :
    (m >>= g) w = match m w with
      | .ok (a, v) => g a v
      | .error s => .error s := by
  change (m w >>= fun y => g y.1 y.2) = _
  cases m w <;> rfl

theorem Fueled.bind_apply {α β : Type} (x : Fueled α) (f : α → Fueled β) (w : Window) :
    (x >>= f) w = match x w with
      | .ok (.ok (a, v)) => f a v
      | .ok (.error s) => .ok (.error s)
      | .error reason => .error reason := by
  change (x w >>= fun y => f y.1 y.2 : ExceptT Stop (Except Abort) (β × Window)) = _
  simp only [bind, ExceptT.bind, ExceptT.mk, Except.bind]
  cases x w with
  | error reason => rfl
  | ok y => cases y <;> rfl

/-- If `x` comes to an end by its fuel, then to the one that `m` comes to. Where `p` holds it does, and behind
that `q` holds. -/
structure Runs {α : Type} (p q : Pace) (x : Fueled α) (m : Reading α) : Prop where
  sound {w : Window} {y : Except Stop (α × Window)} : x w = .ok y → m w = y
  ends {w : Window} : p.Holds w → ∃ y, x w = .ok y
  after {w : Window} : p.Holds w → q.After (m w)

namespace Runs

variable {α β σ : Type} {p q p' q' o : Pace} {x y : Fueled α} {m l : Reading α} {k n : Nat} {rs ss : List Rule}
  {rule : Rule} {kinds : List TokenKind}

theorem mono (h : Runs p q x m) (hl : p'.left ≤ p.left) (he : p'.entered ⊆ p.entered)
    (hl' : q.left ≤ q'.left) (he' : q.entered ⊆ q'.entered) : Runs p' q' x m :=
  ⟨h.sound, fun hw => h.ends (hw.mono hl he), fun hw => (h.after (hw.mono hl he)).mono hl' he'⟩

theorem weaken (h : Runs p ⟨k, []⟩ x m) : Runs p ⟨k, rs⟩ x m :=
  h.mono (Nat.le_refl _) (List.Subset.refl _) (Nat.le_refl k) (List.nil_subset rs)

theorem spent : Runs ⟨0, rs⟩ q (Fueled.giveUp .spent : Fueled α) m :=
  ⟨(nomatch ·), fun hw => absurd hw.left (Nat.not_lt_zero _), fun hw => absurd hw.left (Nat.not_lt_zero _)⟩

theorem of (h : ∀ w, p.Holds w → q.After (m w)) : Runs p q (Fueled.of m) m :=
  ⟨fun hx => Except.ok.inj hx, fun _ => ⟨_, rfl⟩, fun hw => h _ hw⟩

theorem give (a : α) : Runs p p (pure a) (pure a) :=
  ⟨fun hx => Except.ok.inj hx, fun _ => ⟨_, rfl⟩, id⟩

theorem bind {f : α → Fueled β} {g : α → Reading β} (h : Runs p q x m) (hf : ∀ a, Runs q o (f a) (g a)) :
    Runs p o (x >>= f) (m >>= g) where
  sound {w y} hy := by
    rw [Fueled.bind_apply] at hy
    rw [Reading.bind_apply]
    cases hx : x w with
    | error reason =>
      rw [hx] at hy
      cases hy
    | ok z =>
      rw [hx] at hy
      rw [h.sound hx]
      cases z with
      | error s => exact Except.ok.inj hy
      | ok z => exact (hf z.1).sound hy
  ends {w} hw := by
    obtain ⟨z, hz⟩ := h.ends hw
    have ha := h.after hw
    rw [h.sound hz] at ha
    rw [Fueled.bind_apply, hz]
    cases z with
    | error s => exact ⟨_, rfl⟩
    | ok z => exact (hf z.1).ends ha
  after {w} hw := by
    have ha := h.after hw
    rw [Reading.bind_apply]
    cases hm : m w with
    | error s =>
      rw [hm] at ha
      exact ha
    | ok z =>
      rw [hm] at ha
      exact (hf z.1).after ha

theorem choose (hx : Runs p q x m) (hy : Runs p q y l) :
    Runs p q (Fueled.choose kinds x y) (Reading.choose kinds m l) where
  sound {w z} hz := by
    rw [Fueled.choose] at hz
    rw [Reading.choose]
    split at hz
    next hk => exact (if_pos hk).trans (hx.sound hz)
    next hk => exact (if_neg hk).trans (hy.sound hz)
  ends {w} hw := by
    rw [Fueled.choose]
    split
    next => exact hx.ends hw
    next => exact hy.ends hw
  after {w} hw := by
    rw [Reading.choose]
    split
    next => exact hx.after hw
    next => exact hy.after hw

theorem refuse (expected : List TokenKind) :
    Runs p q (Fueled.of (Reading.refuse expected : Reading α)) (Reading.refuse expected) :=
  of fun _ hw => hw.spaced

theorem fail (fault : Fault) : Runs p q (Fueled.of (Reading.fail fault : Reading α)) (Reading.fail fault) :=
  of fun _ hw => hw.spaced

theorem enter (hr : rule ∉ rs) :
    Runs ⟨k, rs⟩ ⟨k, rule :: rs⟩ (Fueled.of (mark (.enter rule))) (mark (.enter rule)) :=
  of fun _ hw => hw.enter hr

theorem leave : Runs p p (Fueled.of (mark (.leave rule))) (mark (.leave rule)) :=
  of fun _ hw => hw.leave

theorem inRule (hr : rule ∉ rs) (h : Runs ⟨k, rule :: rs⟩ q x m) :
    Runs ⟨k, rs⟩ q (Fueled.inRule rule x) (Reading.inRule rule m) :=
  (enter hr).bind fun _ => h.bind fun a => leave.bind fun _ => give a

section Take

variable {expected : List TokenKind} {read : Token → Option α}

theorem take_of (h : ∀ w x a, p.Holds w → read w.next.token = some a → w.incoming = .ok x → q.Holds (w.past x)) :
    Runs p q (Fueled.of (take expected read)) (take expected read) := by
  refine of fun w hw => ?_
  rw [← bind_pure (take expected read)]
  obtain ⟨-, he⟩ | ⟨a, e, -, -, he⟩ | ⟨a, x, ha, hx, he⟩ := take_bind_cases expected read pure w
  · rw [he]
    exact hw.spaced
  · rw [he]
    exact hw.spaced
  · rw [he]
    exact h w x a hw ha hx

theorem take (heof : read .eof = none) :
    Runs ⟨k, rs⟩ ⟨k - 1, []⟩ (Fueled.of (Reading.take expected read)) (Reading.take expected read) := by
  refine take_of fun w x a hw ha hx => hw.past ?_
  have hlt := Window.remaining_past hx fun he => by
    rw [he, heof] at ha
    cases ha
  have hk : w.remaining < k := hw.left
  omega

theorem token :
    Runs ⟨k, rs⟩ ⟨k, []⟩ (Fueled.of (Reading.take expected read)) (Reading.take expected read) :=
  take_of fun _ _ _ hw _ hx => hw.past (Nat.lt_of_le_of_lt (Window.remaining_past_le hx) hw.left)

theorem exactly {t : Token} (ht : t ≠ .eof) :
    Runs ⟨k, rs⟩ ⟨k - 1, []⟩ (Fueled.of (Reading.exactly t)) (Reading.exactly t) :=
  take (if_neg ht.symm)

end Take

end Runs

/-- Where fewer than `n` tokens are left, the program consumes one at least. -/
def Consumes {α : Type} (n : Nat) (rs : List Rule) (x : Fueled α) (m : Reading α) : Prop :=
  ∀ k ≤ n, Runs ⟨k, rs⟩ ⟨k - 1, []⟩ x m

section Consumes

variable {α σ : Type} {n k : Nat} {rs : List Rule} {x : Fueled α} {m : Reading α} {starts : List TokenKind}

theorem Consumes.stays (h : Consumes n rs x m) (hk : k ≤ n) : Runs ⟨k, rs⟩ ⟨k, rs⟩ x m :=
  (h k hk).mono (Nat.le_refl k) (List.Subset.refl rs) (Nat.sub_le k 1) (List.nil_subset rs)

/-- The fuel of the turns of a repetition runs down with the tokens that are left. -/
theorem Runs.turns {ι : Type} {x : Nat → ι → Fueled α} {m : ι → Reading α}
    (hzero : ∀ i, x 0 i = Fueled.giveUp .spent)
    (hturn : ∀ fuel k i, k ≤ n → (∀ j, Runs ⟨k - 1, []⟩ ⟨k, rs⟩ (x fuel j) (m j)) →
      Runs ⟨k, rs⟩ ⟨k, rs⟩ (x (fuel + 1) i) (m i)) (hk : k ≤ n) (i : ι) :
    Runs ⟨k, rs⟩ ⟨k, rs⟩ (x n i) (m i) := by
  have turns : ∀ fuel k i, k ≤ fuel → k ≤ n → Runs ⟨k, rs⟩ ⟨k, rs⟩ (x fuel i) (m i) := by
    intro fuel
    induction fuel with
    | zero =>
      intro k i hf hk
      obtain rfl := Nat.le_zero.mp hf
      rw [hzero]
      exact .spent
    | succ fuel ih =>
      intro k i hf hk
      refine hturn fuel k i hk fun j => ?_
      exact (ih (k - 1) j (by omega) (by omega)).mono (Nat.le_refl _) (List.nil_subset rs) (Nat.sub_le k 1)
        (List.Subset.refl rs)
  exact turns n k i hk hk

theorem Runs.loop {y : σ → Fueled (α × σ)} {item : σ → (v : Window) → Attempt (Parsed v.remaining (α × σ))}
    (h : ∀ s, Consumes n rs (y s) (reading (item s))) (hk : k ≤ n) (xs : List α) (s : σ) :
    Runs ⟨k, rs⟩ ⟨k, rs⟩ (Fueled.loop starts y n xs s) (Reading.loop starts item xs s) := by
  refine Runs.turns (ι := List α × σ) (x := fun fuel i => Fueled.loop starts y fuel i.1 i.2)
    (m := fun i => Reading.loop starts item i.1 i.2) (fun i => rfl) (fun fuel k i hk ih => ?_) hk (xs, s)
  rw [Fueled.loop, loop_eq]
  exact .choose ((h i.2 k hk).bind fun p => ih (p.1 :: i.1, p.2)) (.give _)

/-- Items behind those of `xs` and one more that has been read before, and the number of them all, as far as 16
bits can tell it. -/
def numbered (starts : List TokenKind) (item : (v : Window) → Attempt (Parsed v.remaining α)) (xs : List α) :
    Reading (List α × Nat) := do
  let p ← Reading.loop starts (each item) xs ()
  return (p.1, (p.1.length + 1) % 65536)

theorem numbered_eq (starts : List TokenKind) (item : (v : Window) → Attempt (Parsed v.remaining α))
    (xs : List α) : numbered starts item xs = Reading.choose starts (do
      let a ← reading item
      numbered starts item (a :: xs)) (pure (xs.reverse, (xs.length + 1) % 65536)) := by
  rw [numbered, loop_eq, Reading.choose_bind, reading_each]
  simp only [numbered, bind_assoc, pure_bind, List.length_reverse]

theorem Runs.counting {item : (v : Window) → Attempt (Parsed v.remaining α)}
    (h : Consumes n rs x (reading item)) (hk : k ≤ n) (xs : List α) :
    Runs ⟨k, rs⟩ ⟨k, rs⟩ (Fueled.loop starts (Fueled.counting .wrapping x) n xs ((xs.length + 1) % 65536))
      (numbered starts item xs) := by
  refine Runs.turns
    (x := fun fuel xs => Fueled.loop starts (Fueled.counting .wrapping x) fuel xs ((xs.length + 1) % 65536))
    (m := numbered starts item) (fun i => rfl) (fun fuel k xs hk ih => ?_) hk xs
  rw [Fueled.loop, numbered_eq]
  simp only [Fueled.counting, Fueled.add, bind_assoc, pure_bind, Nat.mod_add_mod]
  exact .choose ((h k hk).bind fun a => ih (a :: xs)) (.give _)

theorem Runs.repeated {item : (v : Window) → Attempt (Parsed v.remaining α)}
    (h : Consumes n rs x (reading item)) (hk : k ≤ n) :
    Runs ⟨k, rs⟩ ⟨k, rs⟩ (Fueled.repeated starts x n) (Parse.repeated starts item) := by
  refine (Runs.loop (fun u j hj => ?_) hk [] ()).bind fun p => .give _
  rw [reading_each]
  exact (h j hj).bind fun a => .give _

end Consumes

end Parse

end Jack
