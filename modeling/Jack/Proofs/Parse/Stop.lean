import Jack.Proofs.Parse.Run

namespace Jack

namespace Parse

variable {α β σ : Type} {n k : Nat}

/-- The parser stops with the error. -/
def Stops (x : Attempt (Parsed n α)) (e : Error) : Prop :=
  ∃ v, x = .error ⟨e, v⟩

@[simp] theorem stops_error {s : Stop} {e : Error} :
    Stops (.error s : Attempt (Parsed n α)) e ↔ s.error = e := by
  constructor
  · rintro ⟨v, h⟩
    cases h
    rfl
  · rintro rfl
    exact ⟨s.window, rfl⟩

@[simp] theorem not_stops_ok {p : Parsed n α} {e : Error} : ¬ Stops (.ok p) e := by
  rintro ⟨_, h⟩
  cases h

@[simp] theorem not_stops_pure {p : Parsed n α} {e : Error} :
    ¬ Stops (pure p : Attempt (Parsed n α)) e :=
  not_stops_ok

@[simp] theorem stops_reject {fault : Fault} {w : Window} {e : Error} :
    Stops (reject fault w : Attempt (Parsed n α)) e ↔ ⟨w.last.location, fault⟩ = e :=
  stops_error

/-- Of two parsers in a row, the first stops, or the second does behind what the first has read. -/
theorem stops_bind {x : Attempt (Parsed n α)} {f : Parsed n α → Attempt (Parsed k β)} {e : Error} :
    Stops (x >>= f) e ↔
      Stops x e ∨ ∃ a u, ∃ h : Yields x a u, Stops (f ⟨a, u, h.bound⟩) e := by
  cases x with
  | error s =>
    constructor
    · intro h
      exact .inl (stops_error.mpr (stops_error.mp h))
    · rintro (h | ⟨a, u, h, -⟩)
      · exact stops_error.mpr (stops_error.mp h)
      · exact (not_yields_error h).elim
  | ok p =>
    constructor
    · intro h
      exact .inr ⟨p.value, p.window, ⟨p.bound, rfl⟩, h⟩
    · rintro (h | ⟨a, u, ⟨_, h⟩, hf⟩)
      · exact (not_stops_ok h).elim
      · cases h
        exact hf

theorem Stops.bind {x : Attempt (Parsed n α)} {e : Error} (h : Stops x e)
    (f : Parsed n α → Attempt (Parsed k β)) : Stops (x >>= f) e :=
  stops_bind.mpr (.inl h)

theorem Yields.stops_bind {x : Attempt (Parsed n α)} {a : α} {u : Window} (hx : Yields x a u)
    {f : Parsed n α → Attempt (Parsed k β)} {e : Error} (h : Stops (f ⟨a, u, hx.bound⟩) e) :
    Stops (x >>= f) e :=
  Parse.stops_bind.mpr (.inr ⟨a, u, hx, h⟩)

@[simp] theorem stops_within {rule : Rule} {w : Window} {e : Error}
    {body : (v : Window) → v.remaining = w.remaining → Attempt (Parsed n α)} :
    Stops (within rule w body) e ↔ Stops (body (w.enter rule) rfl) e := by
  unfold within
  rw [stops_bind]
  constructor
  · rintro (h | ⟨a, u, _, h⟩)
    · exact h
    · exact (not_stops_pure h).elim
  · exact .inl

def Breaks (starts : List TokenKind) (R : α → σ → Window → σ → Window → Prop)
    (S : σ → Window → Prop) : List α → σ → Window → Prop
  | [], s, w => w.nextIsAmong starts = true ∧ S s w
  | x :: xs, s, w => w.nextIsAmong starts = true ∧
    ∃ s₁ w₁, R x s w s₁ w₁ ∧ Breaks starts R S xs s₁ w₁

theorem stops_manyFrom {starts : List TokenKind}
    {item : σ → (v : Window) → Attempt (Parsed v.remaining (α × σ))} {ys : List α} {s : σ}
    {w : Window} {h : w.remaining < n} {e : Error} :
    Stops (manyFrom starts n (fun s v _ => item s v) ys s w h) e ↔
      ∃ xs, Breaks starts (fun x s w s' v => Yields (item s w) (x, s') v)
        (fun s w => Stops (item s w) e) xs s w := by
  induction hr : w.remaining using Nat.strongRecOn generalizing ys s w with
  | ind r ih =>
    subst hr
    unfold manyFrom
    cases hs : w.nextIsAmong starts with
    | false =>
      simp only [Bool.false_eq_true, if_false, not_stops_ok, false_iff, not_exists]
      rintro (_ | ⟨x, xs⟩) hb
      · exact Bool.noConfusion (hs.symm.trans hb.1)
      · exact Bool.noConfusion (hs.symm.trans hb.1)
    | true =>
      simp only [if_true, stops_bind]
      constructor
      · rintro (hx | ⟨⟨x, s₁⟩, w₁, hx, hm⟩)
        · exact ⟨[], hs, hx⟩
        · obtain ⟨xs, hxs⟩ := (ih _ hx.bound rfl).mp hm
          exact ⟨x :: xs, hs, s₁, w₁, hx, hxs⟩
      · rintro ⟨_ | ⟨x, xs⟩, hb⟩
        · exact .inl hb.2
        · obtain ⟨-, s₁, w₁, hx, hxs⟩ := hb
          exact .inr ⟨(x, s₁), w₁, hx, (ih _ hx.bound rfl).mpr ⟨xs, hxs⟩⟩

theorem stops_manyWith {starts : List TokenKind}
    {item : σ → (v : Window) → Attempt (Parsed v.remaining (α × σ))} {s : σ} {w : Window}
    {h : w.remaining < n} {e : Error} :
    Stops (manyWith starts n (fun s v _ => item s v) s w h) e ↔
      ∃ xs, Breaks starts (fun x s w s' v => Yields (item s w) (x, s') v)
        (fun s w => Stops (item s w) e) xs s w :=
  stops_manyFrom

theorem Breaks.imp {starts : List TokenKind} {R R' : α → σ → Window → σ → Window → Prop}
    {S S' : σ → Window → Prop} (hR : ∀ x s w s' v, R x s w s' v → R' x s w s' v)
    (hS : ∀ s w, S s w → S' s w) {xs : List α} {s : σ} {w : Window}
    (h : Breaks starts R S xs s w) : Breaks starts R' S' xs s w := by
  induction xs generalizing s w with
  | nil => exact ⟨h.1, hS _ _ h.2⟩
  | cons x xs ih =>
    obtain ⟨hs, s₁, w₁, hx, hxs⟩ := h
    exact ⟨hs, s₁, w₁, hR _ _ _ _ _ hx, ih hxs⟩

theorem stops_many {starts : List TokenKind} {item : (v : Window) → Attempt (Parsed v.remaining α)}
    {w : Window} {h : w.remaining < n} {e : Error} {xs : List α}
    (hb : Breaks starts (fun x (_ : Unit) w _ v => Yields (item w) x v)
      (fun _ w => Stops (item w) e) xs () w) :
    Stops (many starts n (fun v _ => item v) w h) e := by
  refine Stops.bind (stops_manyWith.mpr ⟨xs, hb.imp ?_ ?_⟩) _
  · exact fun x _ w _ v hx => yields_bind.mpr ⟨x, v, hx, yields_pure.mpr ⟨rfl, rfl⟩⟩
  · exact fun _ w hs => hs.bind _

/-- A place that is told by the events up to it, and what is wrong there. -/
structure Flaw where
  before : List Event
  fault : Fault

/-- Wherever the events can be followed up to a token that fits, the work that `S` tells of stops at the
flaw: at the lexeme that has been consumed last by then. -/
structure Flaw.Shows (f : Flaw) (es : List Event) (fits : Token → Prop) (S : Window → Error → Prop) :
    Prop where
  initial : f.before <+: es
  tokens : Event.tokens f.before ≠ []
  stops : ∀ w v, w.follow es = some v → fits v.next.token →
    ∃ u, w.follow f.before = some u ∧ S w ⟨u.last.location, f.fault⟩

def Flawed (es : List Event) (fits : Token → Prop) (S : Window → Error → Prop) : Prop :=
  ∃ f : Flaw, f.Shows es fits S

section Flaws

variable {es : List Event} {fits fits' : Token → Prop} {S T : Window → Error → Prop}

/-- A flaw in a part of the events shows in the whole if those in front of the part lead the whole to
it. -/
theorem Flaw.Shows.lift {f : Flaw} (h : f.Shows es fits S) (front behind : List Event)
    (hT : ∀ w u u' v, w.follow front = some u → u.follow es = some u' → u'.follow behind = some v →
      fits' v.next.token → fits u'.next.token ∧ ∀ e, S u e → T w e) :
    Flaw.Shows ⟨front ++ f.before, f.fault⟩ (front ++ (es ++ behind)) fits' T where
  initial := List.prefix_append_right_inj front |>.mpr (h.initial.trans (List.prefix_append _ _))
  tokens := by
    rw [Event.tokens_append]
    exact fun hn => h.tokens (List.append_eq_nil_iff.mp hn).2
  stops := by
    intro w v hw hv
    obtain ⟨u, hu, hw⟩ := Window.follow_append_iff.mp hw
    obtain ⟨u', hu', hb⟩ := Window.follow_append_iff.mp hw
    obtain ⟨hfits, he⟩ := hT w u u' v hu hu' hb hv
    obtain ⟨x, hx, hs⟩ := h.stops u u' hu' hfits
    exact ⟨x, Window.follow_append_iff.mpr ⟨u, hu, hx⟩, he _ hs⟩

theorem Flawed.lift {events : List Event} (h : Flawed es fits S) (front behind : List Event)
    (he : events = front ++ (es ++ behind))
    (hT : ∀ w u u' v, w.follow front = some u → u.follow es = some u' → u'.follow behind = some v →
      fits' v.next.token → fits u'.next.token ∧ ∀ e, S u e → T w e) :
    Flawed events fits' T := by
  obtain ⟨f, h⟩ := h
  exact ⟨_, he ▸ h.lift front behind hT⟩

theorem Flawed.here (fault : Fault) (front behind : List Event) (he : es = front ++ behind)
    (ht : Event.tokens front ≠ [])
    (hS : ∀ w u v, w.follow front = some u → u.follow behind = some v → fits v.next.token →
      S w ⟨u.last.location, fault⟩) :
    Flawed es fits S := by
  subst he
  refine ⟨⟨front, fault⟩, List.prefix_append _ _, ht, fun w v hw hv => ?_⟩
  obtain ⟨u, hu, hb⟩ := Window.follow_append_iff.mp hw
  exact ⟨u, hu, hS w u v hu hb hv⟩

end Flaws

end Parse

end Jack
