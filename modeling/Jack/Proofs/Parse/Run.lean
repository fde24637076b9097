import Jack.Parse.Basic
import Jack.Proofs.Grammar.Tree

namespace Jack

namespace Window

@[simp] theorem next_note (w : Window) (e : Event) : (w.note e).next = w.next := rfl

theorem nextIs_symbol {w : Window} {s : Symbol} :
    w.nextIs (.symbol s) = true ↔ w.next.token = .symbol s := by
  unfold nextIs
  cases w.next.token <;> simp [Token.kind]

theorem nextIs_keyword {w : Window} {k : Keyword} :
    w.nextIs (.keyword k) = true ↔ w.next.token = .keyword k := by
  unfold nextIs
  cases w.next.token <;> simp [Token.kind]

/-- The window behind an event: the token has been consumed, or the mark made. -/
def perform (w : Window) : Event → Option Window
  | .consumed t =>
    if w.next.token = t then
      match slide w with
      | .ok _ v => some (v.note (.consumed t))
      | .error _ _ => none
    else none
  | e => some (w.note e)

def follow (w : Window) : List Event → Option Window
  | [] => some w
  | e :: es => (w.perform e).bind (·.follow es)

@[simp] theorem follow_nil (w : Window) : w.follow [] = some w := rfl

@[simp] theorem follow_cons (w : Window) (e : Event) (es : List Event) :
    w.follow (e :: es) = (w.perform e).bind (·.follow es) := rfl

@[simp] theorem follow_append (w : Window) (es fs : List Event) :
    w.follow (es ++ fs) = (w.follow es).bind (·.follow fs) := by
  induction es generalizing w with
  | nil => rfl
  | cons e es ih =>
    cases h : w.perform e with
    | none => simp [h]
    | some v => simp [h, ih]

@[simp] theorem perform_enter (w : Window) (rule : Rule) : w.perform (.enter rule) = some (w.enter rule) :=
  rfl

@[simp] theorem perform_leave (w : Window) (rule : Rule) : w.perform (.leave rule) = some (w.leave rule) :=
  rfl

theorem follow_cons_of {w u v : Window} {e : Event} {es : List Event} (h : w.perform e = some u)
    (h' : u.follow es = some v) : w.follow (e :: es) = some v := by
  rw [follow_cons, h, Option.bind_some, h']

theorem follow_span_iff {w v : Window} {rule : Rule} {es : List Event} :
    w.follow (Event.span rule es) = some v ↔
      ∃ u, (w.enter rule).follow es = some u ∧ v = u.leave rule := by
  simp [Event.span, Option.bind_eq_some_iff, @eq_comm _ v]

theorem follow_append_iff {w v : Window} {es fs : List Event} :
    w.follow (es ++ fs) = some v ↔ ∃ u, w.follow es = some u ∧ u.follow fs = some v := by
  rw [follow_append, Option.bind_eq_some_iff]

theorem follow_cons_iff {w v : Window} {e : Event} {es : List Event} :
    w.follow (e :: es) = some v ↔ ∃ u, w.perform e = some u ∧ u.follow es = some v := by
  rw [follow_cons, Option.bind_eq_some_iff]

theorem follow_span {w v : Window} {rule : Rule} {es : List Event}
    (h : (w.enter rule).follow es = some v) : w.follow (Event.span rule es) = some (v.leave rule) := by
  simp [Event.span, h]

theorem last_token_of_slide {w v : Window} {u : Unit} (h : slide w = .ok u v) : v.last = w.next := by
  unfold slide at h
  split at h
  next =>
    cases h
    rfl
  next => cases h

theorem next_token_of_perform {w v : Window} {t : Token} (h : w.perform (.consumed t) = some v) :
    w.next.token = t := by
  simp only [perform] at h
  split at h
  next ht => exact ht
  next => cases h

theorem remaining_perform {w v : Window} {t : Token} (h : w.perform (.consumed t) = some v)
    (ht : t ≠ .eof) : v.remaining < w.remaining := by
  have hn := next_token_of_perform h
  simp only [perform, hn, if_true] at h
  split at h
  next u hu =>
    cases h
    rw [remaining_note]
    exact remaining_slide hu (hn ▸ ht)
  next => cases h

theorem next_token_of_follow {w v : Window} {es : List Event} (h : w.follow es = some v) :
    w.next.token = (Event.tokens es).headD v.next.token := by
  induction es generalizing w with
  | nil =>
    cases h
    rfl
  | cons e es ih =>
    obtain ⟨u, hu, hv⟩ := Option.bind_eq_some_iff.mp h
    cases e with
    | enter rule | leave rule =>
      cases hu
      have hn := ih hv
      rwa [next_note] at hn
    | consumed t => exact next_token_of_perform hu

theorem accept_eq_ok_iff {α : Type} {expected : List TokenKind} {read : Token → Option α}
    {w v : Window} {a : α} :
    accept expected read w = .ok a v ↔ ∃ t, read t = some a ∧ w.perform (.consumed t) = some v := by
  constructor
  · intro h
    unfold accept at h
    split at h
    next => cases h
    next b hb =>
      split at h
      next u x hx =>
        cases h
        refine ⟨w.next.token, hb, ?_⟩
        simp [perform, hx, last_token_of_slide hx]
      next => cases h
  · rintro ⟨t, ht, h⟩
    have hn := next_token_of_perform h
    simp only [perform, hn, if_true] at h
    split at h
    next u x hx =>
      cases h
      simp [accept, hn, ht, hx, last_token_of_slide hx]
    next => cases h

end Window

namespace Parse

variable {α β σ : Type} {n k : Nat}

/-- The parser comes to the result `a`, and behind what it has read is the window `v`. -/
def Yields (x : Attempt (Parsed n α)) (a : α) (v : Window) : Prop :=
  ∃ h, x = .ok ⟨a, v, h⟩

theorem Yields.bound {x : Attempt (Parsed n α)} {a : α} {v : Window} (h : Yields x a v) :
    v.remaining < n :=
  h.choose

@[simp] theorem yields_ok {p : Parsed n α} {a : α} {v : Window} :
    Yields (.ok p) a v ↔ p.value = a ∧ p.window = v := by
  constructor
  · rintro ⟨_, h⟩
    cases h
    exact ⟨rfl, rfl⟩
  · rintro ⟨rfl, rfl⟩
    exact ⟨p.bound, rfl⟩

@[simp] theorem yields_pure {p : Parsed n α} {a : α} {v : Window} :
    Yields (pure p) a v ↔ p.value = a ∧ p.window = v :=
  yields_ok

@[simp] theorem not_yields_error {e : Stop} {a : α} {v : Window} :
    ¬ Yields (.error e : Attempt (Parsed n α)) a v := by
  rintro ⟨_, h⟩
  cases h

@[simp] theorem not_yields_reject {fault : Fault} {a : α} {w v : Window} :
    ¬ Yields (reject fault w : Attempt (Parsed n α)) a v :=
  not_yields_error

@[simp] theorem not_yields_unexpected {expected : List TokenKind} {a : α} {w v : Window} :
    ¬ Yields (unexpected expected w : Attempt (Parsed n α)) a v :=
  not_yields_error

@[simp] theorem yields_bind {x : Attempt (Parsed n α)} {f : Parsed n α → Attempt (Parsed k β)} {b : β}
    {v : Window} : Yields (x >>= f) b v ↔ ∃ a u, ∃ h : Yields x a u, Yields (f ⟨a, u, h.bound⟩) b v := by
  constructor
  · rintro ⟨hv, h⟩
    cases x with
    | error e => cases h
    | ok p => exact ⟨p.value, p.window, ⟨p.bound, rfl⟩, hv, h⟩
  · rintro ⟨a, u, ⟨_, rfl⟩, h⟩
    exact h

@[simp] theorem yields_within {rule : Rule} {w v : Window} {a : α}
    {body : (v : Window) → v.remaining = w.remaining → Attempt (Parsed n α)} :
    Yields (within rule w body) a v ↔ ∃ u, Yields (body (w.enter rule) rfl) a u ∧ v = u.leave rule := by
  unfold within
  rw [yields_bind]
  constructor
  · rintro ⟨b, u, hb, hv, h⟩
    cases h
    exact ⟨u, hb, rfl⟩
  · rintro ⟨u, hb, rfl⟩
    exact ⟨a, u, hb, hb.bound, rfl⟩

theorem yields_accept {expected : List TokenKind} {read : Token → Option α} {w v : Window} {a : α}
    {h : read .eof = none} :
    Yields (accept expected read w h) a v ↔ ∃ t, read t = some a ∧ w.perform (.consumed t) = some v := by
  have he : w.accept expected read = .ok a v ↔ _ := Window.accept_eq_ok_iff
  rw [← he]
  unfold accept
  split
  next b u hu => simp [hu]
  next e u hu => simp [hu]

theorem yields_token {expected : List TokenKind} {t : Token} {w v : Window} {u : Unit}
    {h : (if Token.eof = t then some () else none) = none} :
    Yields (accept expected (fun s => if s = t then some () else none) w h) u v ↔
      w.perform (.consumed t) = some v := by
  simp [yields_accept]

@[simp] theorem yields_keyword {kw : Keyword} {w v : Window} {u : Unit} :
    Yields (keyword kw w) u v ↔ w.perform (.keyword kw) = some v :=
  yields_token

@[simp] theorem yields_symbol {s : Symbol} {w v : Window} {u : Unit} :
    Yields (symbol s w) u v ↔ w.perform (.symbol s) = some v :=
  yields_token

@[simp] theorem yields_identifier {w v : Window} {x : String} :
    Yields (identifier w) x v ↔ w.perform (.word x) = some v :=
  yields_accept.trans (by simp [Token.name?_eq_some_iff])

/-- What a repetition reads: the items `xs`, up to a token that starts no more of them. -/
def Many (starts : List TokenKind) (R : α → σ → Window → σ → Window → Prop) :
    List α → σ → Window → σ → Window → Prop
  | [], s, w, s', v => w.nextIsAmong starts = false ∧ s = s' ∧ w = v
  | x :: xs, s, w, s', v => w.nextIsAmong starts = true ∧
    ∃ s₁ w₁, R x s w s₁ w₁ ∧ Many starts R xs s₁ w₁ s' v

theorem Many.imp {starts : List TokenKind} {R R' : α → σ → Window → σ → Window → Prop} {xs : List α}
    {s s' : σ} {w v : Window} (hR : ∀ x s w s' v, R x s w s' v → R' x s w s' v)
    (h : Many starts R xs s w s' v) : Many starts R' xs s w s' v := by
  induction xs generalizing s w with
  | nil => exact h
  | cons x xs ih =>
    obtain ⟨hs, s₁, w₁, hx, hxs⟩ := h
    exact ⟨hs, s₁, w₁, hR _ _ _ _ _ hx, ih hxs⟩

theorem yields_manyFrom {starts : List TokenKind}
    {item : σ → (v : Window) → Attempt (Parsed v.remaining (α × σ))} {xs ys : List α} {s s' : σ}
    {w v : Window} {h : w.remaining < n} :
    Yields (manyFrom starts n (fun s v _ => item s v) xs s w h) (ys, s') v ↔
      ∃ zs, ys = xs.reverse ++ zs ∧
        Many starts (fun x s w s' v => Yields (item s w) (x, s') v) zs s w s' v := by
  induction hr : w.remaining using Nat.strongRecOn generalizing xs s w with
  | ind r ih =>
    subst hr
    unfold manyFrom
    cases hs : w.nextIsAmong starts with
    | false =>
      simp only [Bool.false_eq_true, if_false, yields_ok, Prod.mk.injEq]
      constructor
      · rintro ⟨⟨rfl, rfl⟩, rfl⟩
        exact ⟨[], by simp, hs, rfl, rfl⟩
      · rintro ⟨zs, rfl, hm⟩
        cases zs with
        | nil => exact ⟨⟨by simp, hm.2.1⟩, hm.2.2⟩
        | cons z zs => simp [Many, hs] at hm
    | true =>
      simp only [if_true, yields_bind]
      constructor
      · rintro ⟨⟨x, s₁⟩, w₁, hx, hm⟩
        obtain ⟨zs, rfl, hzs⟩ := (ih _ hx.bound rfl).mp hm
        exact ⟨x :: zs, by simp, hs, s₁, w₁, hx, hzs⟩
      · rintro ⟨zs, rfl, hm⟩
        cases zs with
        | nil => simp [Many, hs] at hm
        | cons x zs =>
          obtain ⟨-, s₁, w₁, hx, hzs⟩ := hm
          exact ⟨(x, s₁), w₁, hx, (ih _ hx.bound rfl).mpr ⟨zs, by simp, hzs⟩⟩

theorem yields_manyWith {starts : List TokenKind}
    {item : σ → (v : Window) → Attempt (Parsed v.remaining (α × σ))} {xs : List α} {s s' : σ}
    {w v : Window} {h : w.remaining < n} :
    Yields (manyWith starts n (fun s v _ => item s v) s w h) (xs, s') v ↔
      Many starts (fun x s w s' v => Yields (item s w) (x, s') v) xs s w s' v := by
  simp [manyWith, yields_manyFrom]

theorem yields_many {starts : List TokenKind}
    {item : (v : Window) → Attempt (Parsed v.remaining α)} {xs : List α} {w v : Window}
    {h : w.remaining < n} :
    Yields (many starts n (fun v _ => item v) w h) xs v ↔
      Many starts (fun x (_ : Unit) w _ v => Yields (item w) x v) xs () w () v := by
  have hi {x : α} {u : Unit} {w v : Window} : Yields (do
      let p ← item w
      return p.map (·, ()) : Attempt (Parsed w.remaining (α × Unit))) (x, u) v ↔ Yields (item w) x v := by
    rw [yields_bind]
    constructor
    · rintro ⟨a, w₁, ha, h⟩
      cases yields_pure.mp h with
      | intro hx hv =>
        cases hx
        cases hv
        exact ha
    · exact fun hx => ⟨x, v, hx, yields_pure.mpr ⟨rfl, rfl⟩⟩
  rw [many, yields_bind]
  constructor
  · rintro ⟨⟨ys, u⟩, w₁, hm, h⟩
    cases yields_pure.mp h with
    | intro hx hv =>
      cases hx
      cases hv
      exact (yields_manyWith.mp hm).imp fun _ _ _ _ _ => hi.mp
  · intro hm
    refine ⟨(xs, ()), v, yields_manyWith.mpr (hm.imp fun _ _ _ _ _ => hi.mpr), ?_⟩
    exact yields_pure.mpr ⟨rfl, rfl⟩

end Parse

end Jack
