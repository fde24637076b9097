import Jack.Parse.Reading
import Jack.Proofs.Window.Stream

/-!
The rules of the grammar as programs that are put together from a few: to consume a token, to look at the
one ahead, to make a mark in the record, to stop. How many tokens are left does not show in them, so that
what is true of the few and passes from parts to the whole is true of every rule.
-/

namespace Jack

/-- The window behind the token ahead, which has been consumed, with `x` ahead of it. -/
def Window.past (w : Window) (x : Lexeme) : Window := (w.move x).note (.consumed w.next.token)

theorem Window.remaining_lt (w : Window) : w.remaining < w.remaining + 1 := Nat.lt_succ_self _

theorem Window.remaining_past {w : Window} {x : Lexeme} (hx : w.incoming = .ok x)
    (hw : w.next.token ≠ .eof) : (w.past x).remaining < w.remaining := by
  rw [past, remaining_note]
  exact remaining_slide (slide_of_ok hx) hw

namespace Parse

variable {α β σ : Type} {n k : Nat}

namespace Reading

def loop (starts : List TokenKind)
    (item : σ → (v : Window) → Attempt (Parsed v.remaining (α × σ))) (xs : List α) (s : σ) :
    Reading (List α × σ) := fun w =>
  outcome (manyFrom starts (w.remaining + 1) (fun s v _ => item s v) xs s w w.remaining_lt)

theorem choose_bind (kinds : List TokenKind) (x y : Reading α) (f : α → Reading β) :
    choose kinds x y >>= f = choose kinds (x >>= f) (y >>= f) := by
  funext w
  simp only [choose, bind, StateT.bind]
  split <;> rfl

theorem refuse_bind (expected : List TokenKind) (f : α → Reading β) :
    refuse expected >>= f = refuse expected := rfl

theorem inRule_bind (rule : Rule) (x : Reading α) (f : α → Reading β) :
    inRule rule x >>= f = (do mark (.enter rule); let a ← x; mark (.leave rule); f a) := by
  simp only [inRule, bind_assoc, pure_bind]

section Take

variable {expected : List TokenKind} {read : Token → Option α} {f : α → Reading β} {w : Window} {a : α}

theorem take_bind_of_none (hr : read w.next.token = none) :
    (take expected read >>= f) w = .error ⟨w.unexpectedNext expected, w⟩ := by
  simp [take, Window.accept, hr, bind, StateT.bind, Except.bind]

theorem take_bind_of_error {e : Error} (hr : read w.next.token = some a) (he : w.incoming = .error e) :
    (take expected read >>= f) w = .error ⟨e, { w with asked := w.asked + 1 }⟩ := by
  simp [take, Window.accept, hr, Window.slide_of_error he, bind, StateT.bind, Except.bind]

theorem take_bind_of_ok {x : Lexeme} (hr : read w.next.token = some a) (hx : w.incoming = .ok x) :
    (take expected read >>= f) w = f a (w.past x) := by
  simp [take, Window.accept, hr, Window.slide_of_ok hx, Window.past, bind, StateT.bind, Except.bind]

end Take

end Reading

open Reading

section Parsers

theorem outcome_bind {x : Attempt (Parsed n α)} {f : Parsed n α → Attempt (Parsed k β)} {m : Reading α}
    {l : α → Reading β} {w : Window} (hx : outcome x = m w)
    (hf : ∀ p, outcome (f p) = l p.value p.window) : outcome (x >>= f) = (m >>= l) w := by
  have hm : (m >>= l) w = m w >>= fun q => l q.1 q.2 := rfl
  rw [hm, ← hx]
  cases x with
  | error s => rfl
  | ok p => exact hf p

theorem outcome_relay {x : Attempt (Parsed n α)} {f : Parsed n α → Attempt (Parsed k α)}
    (hf : ∀ p, outcome (f p) = .ok (p.value, p.window)) : outcome (x >>= f) = outcome x := by
  cases x with
  | error s => rfl
  | ok p => exact hf p

theorem outcome_within {rule : Rule} {w : Window} {m : Reading α}
    {body : (v : Window) → v.remaining = w.remaining → Attempt (Parsed n α)}
    (h : ∀ v hv, outcome (body v hv) = m v) : outcome (within rule w body) = inRule rule m w := by
  have hb := h (w.enter rule) rfl
  have hm : inRule rule m w =
      (m (w.enter rule) >>= fun q => .ok (q.1, Window.leave q.2 rule) : Except Stop _) := rfl
  rw [hm, ← hb, within]
  cases body (w.enter rule) rfl <;> rfl

theorem outcome_choose {w : Window} {kinds : List TokenKind} {x y : Attempt (Parsed n α)}
    {m l : Reading α} (hx : outcome x = m w) (hy : outcome y = l w) :
    outcome (if w.nextIsAmong kinds then x else y) = choose kinds m l w := by
  rw [choose, apply_ite outcome, hx, hy]

theorem outcome_ite {w : Window} {kind : TokenKind} {x y : Attempt (Parsed n α)} {m l : Reading α}
    (hx : outcome x = m w) (hy : outcome y = l w) :
    outcome (if w.nextIs kind then x else y) = choose [kind] m l w := by
  have hk : w.nextIs kind = w.nextIsAmong [kind] := by simp [Window.nextIsAmong, Window.nextIs]
  rw [hk]
  exact outcome_choose hx hy

theorem outcome_accept (expected : List TokenKind) (read : Token → Option α) (w : Window)
    (h : read .eof = none) : outcome (accept expected read w h) = take expected read w := by
  unfold accept take
  split <;> simp [outcome, Except.map, *]

theorem reading_symbol (s : Symbol) : reading (symbol s) = exactly (.symbol s) :=
  funext fun w => outcome_accept _ _ w _

theorem reading_keyword (kw : Keyword) : reading (keyword kw) = exactly (.keyword kw) :=
  funext fun w => outcome_accept _ _ w _

theorem reading_identifier : reading identifier = name :=
  funext fun w => outcome_accept _ _ w _

/-- How many tokens may be left does not matter to what a repetition reads. -/
theorem outcome_manyFrom_congr {starts : List TokenKind}
    {item : σ → (v : Window) → Attempt (Parsed v.remaining (α × σ))} {xs : List α} {s : σ} {w : Window}
    (h : w.remaining < n) (h' : w.remaining < k) :
    outcome (manyFrom starts n (fun s v _ => item s v) xs s w h) =
      outcome (manyFrom starts k (fun s v _ => item s v) xs s w h') := by
  induction hr : w.remaining using Nat.strongRecOn generalizing xs s w with
  | ind r ih =>
    subst hr
    rw [manyFrom, manyFrom]
    split
    next =>
      cases item s w with
      | error e => rfl
      | ok p => exact ih _ p.bound _ _ rfl
    next => rfl

theorem outcome_manyFrom {starts : List TokenKind}
    {item : σ → (v : Window) → Attempt (Parsed v.remaining (α × σ))} {xs : List α} {s : σ} {w : Window}
    (h : w.remaining < n) :
    outcome (manyFrom starts n (fun s v _ => item s v) xs s w h) = loop starts item xs s w :=
  outcome_manyFrom_congr h _

theorem loop_eq (starts : List TokenKind)
    (item : σ → (v : Window) → Attempt (Parsed v.remaining (α × σ))) (xs : List α) (s : σ) :
    loop starts item xs s = choose starts (do
      let p ← reading (item s)
      loop starts item (p.1 :: xs) p.2) (pure (xs.reverse, s)) := by
  funext w
  rw [loop, manyFrom, choose]
  split
  next => exact outcome_bind rfl fun p => outcome_manyFrom _
  next => rfl

def each (item : (v : Window) → Attempt (Parsed v.remaining α)) (_ : Unit) (v : Window) :
    Attempt (Parsed v.remaining (α × Unit)) := do
  let p ← item v
  return p.map (·, ())

theorem reading_each (item : (v : Window) → Attempt (Parsed v.remaining α)) (u : Unit) :
    reading (each item u) = (do let a ← reading item; return (a, ())) :=
  funext fun _ => outcome_bind rfl fun _ => rfl

def repeated (starts : List TokenKind) (item : (v : Window) → Attempt (Parsed v.remaining α)) :
    Reading (List α) := do
  let p ← loop starts (each item) [] ()
  return p.1

theorem outcome_many {starts : List TokenKind} {item : (v : Window) → Attempt (Parsed v.remaining α)}
    {w : Window} (h : w.remaining < n) :
    outcome (many starts n (fun v _ => item v) w h) = repeated starts item w := by
  have hm : outcome (manyFrom starts n (fun s v _ => each item s v) [] () w h) =
      loop starts (each item) [] () w := outcome_manyFrom h
  exact outcome_bind hm fun _ => rfl

end Parsers

end Parse

end Jack
