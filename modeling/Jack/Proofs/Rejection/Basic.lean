import Jack.Proofs.Parse.Run

/-!
Where a parser finds fault with the token that it has consumed last. What is true of the events that lead
there passes from the parts of a parser to the whole.
-/

namespace Jack

namespace Parse

variable {α β σ : Type} {n k : Nat} {w : Window}

/-- The stop is due neither to the token ahead nor to an error in the stream. -/
structure Stop.Rejects (s : Stop) : Prop where
  fault : ∀ expected found, s.error.fault ≠ .unexpected expected found
  stream : ∀ e, s.window.items[s.window.asked - 1]? ≠ some (.error e)

/-- Where the work that begins at `w`, behind the events `front`, stops by a token that has been consumed, the
events up to that token are such that `P` is true. -/
def Rejects (P : List Event → Stop → Prop) (front : List Event) (x : Attempt (Parsed n α)) (w : Window) :
    Prop :=
  ∀ s, x = .error s → s.Rejects → ∃ es, w.follow es = some s.window ∧ P (front ++ es) s

variable {P P' : List Event → Stop → Prop} {front : List Event}

theorem Rejects.part {x : Attempt (Parsed n α)} (h : Rejects P' [] x w)
    (hP : ∀ es s, P' es s → P (front ++ es) s) : Rejects P front x w := by
  intro s hs hr
  obtain ⟨es, hw, hes⟩ := h s hs hr
  exact ⟨es, hw, hP es s hes⟩

theorem rejects_ok {p : Parsed n α} : Rejects P front (.ok p) w := by
  rintro s ⟨⟩

theorem rejects_pure {p : Parsed n α} : Rejects P front (pure p) w := rejects_ok

theorem rejects_unexpected {expected : List TokenKind} :
    Rejects P front (unexpected expected w : Attempt (Parsed n α)) w := by
  rintro s ⟨⟩ hr
  exact (hr.fault _ _ rfl).elim

theorem rejects_reject {fault : Fault} (h : P front ⟨⟨w.last.location, fault⟩, w⟩) :
    Rejects P front (reject fault w : Attempt (Parsed n α)) w := by
  rintro s ⟨⟩ -
  exact ⟨[], rfl, by rwa [List.append_nil]⟩

theorem accept_eq_error {expected : List TokenKind} {read : Token → Option α} {e : Error} {v : Window}
    (h : Window.accept expected read w = .error e v) : ¬ Stop.Rejects ⟨e, v⟩ := by
  intro hr
  unfold Window.accept at h
  split at h
  next =>
    cases h
    exact hr.fault _ _ rfl
  next =>
    split at h
    next => cases h
    next e' v' hs =>
      cases h
      unfold Window.slide at hs
      split at hs
      next => cases hs
      next e hi =>
        cases hs
        refine hr.stream e ?_
        change w.items[w.asked]? = some (.error e)
        unfold Window.incoming at hi
        cases hw : w.items[w.asked]? with
        | none => simp [hw] at hi
        | some i => simpa [hw] using hi

theorem rejects_accept {expected : List TokenKind} {read : Token → Option α} {h : read .eof = none} :
    Rejects P front (accept expected read w h) w := by
  intro s hs hr
  unfold accept at hs
  split at hs
  next => cases hs
  next e v hv =>
    cases hs
    exact (accept_eq_error hv hr).elim

theorem Rejects.bind {x : Attempt (Parsed n α)} {f : Parsed n α → Attempt (Parsed k β)}
    (hx : Rejects P front x w)
    (hf : ∀ a u, ∀ h : Yields x a u, ∃ es, w.follow es = some u ∧
      Rejects P (front ++ es) (f ⟨a, u, h.bound⟩) u) :
    Rejects P front (x >>= f) w := by
  intro s hs hr
  cases x with
  | error s' =>
    cases hs
    exact hx s rfl hr
  | ok p =>
    obtain ⟨es, hw, h⟩ := hf p.value p.window ⟨p.bound, rfl⟩
    obtain ⟨fs, hu, hP⟩ := h s hs hr
    exact ⟨es ++ fs, Window.follow_append_iff.mpr ⟨_, hw, hu⟩, by rwa [← List.append_assoc]⟩

theorem Rejects.symbol_bind {c : Symbol} {f : Parsed w.remaining Unit → Attempt (Parsed k β)}
    (hf : ∀ u, ∀ h : Yields (symbol c w) () u, Rejects P (front ++ [.symbol c]) (f ⟨(), u, h.bound⟩) u) :
    Rejects P front (symbol c w >>= f) w := by
  refine Rejects.bind rejects_accept fun a u h => ?_
  exact ⟨[.symbol c], Window.follow_cons_of (yields_symbol.mp h) rfl, hf u h⟩

theorem Rejects.keyword_bind {kw : Keyword} {f : Parsed w.remaining Unit → Attempt (Parsed k β)}
    (hf : ∀ u, ∀ h : Yields (keyword kw w) () u, Rejects P (front ++ [.keyword kw]) (f ⟨(), u, h.bound⟩) u) :
    Rejects P front (keyword kw w >>= f) w := by
  refine Rejects.bind rejects_accept fun a u h => ?_
  exact ⟨[.keyword kw], Window.follow_cons_of (yields_keyword.mp h) rfl, hf u h⟩

theorem Rejects.identifier_bind {f : Parsed w.remaining String → Attempt (Parsed k β)}
    (hf : ∀ x u, ∀ h : Yields (identifier w) x u, Rejects P (front ++ [.word x]) (f ⟨x, u, h.bound⟩) u) :
    Rejects P front (identifier w >>= f) w := by
  refine Rejects.bind rejects_accept fun x u h => ?_
  exact ⟨[.word x], Window.follow_cons_of (yields_identifier.mp h) rfl, hf x u h⟩

theorem Rejects.last {x : Attempt (Parsed n α)} {f : Parsed n α → Attempt (Parsed k β)}
    (hx : Rejects P front x w)
    (hf : ∀ a u, ∀ h : Yields x a u, Rejects (fun _ _ => False) [] (f ⟨a, u, h.bound⟩) u) :
    Rejects P front (x >>= f) w := by
  intro s hs hr
  cases x with
  | error s' =>
    cases hs
    exact hx s rfl hr
  | ok p =>
    obtain ⟨_, _, h⟩ := hf p.value p.window ⟨p.bound, rfl⟩ s hs hr
    exact h.elim

theorem Rejects.within {rule : Rule} {body : (v : Window) → v.remaining = w.remaining → Attempt (Parsed n α)}
    (h : Rejects P (front ++ [.enter rule]) (body (w.enter rule) rfl) (w.enter rule)) :
    Rejects P front (within rule w body) w := by
  intro s hs hr
  have hb : body (w.enter rule) rfl = .error s := by
    unfold Parse.within at hs
    cases hb : body (w.enter rule) rfl with
    | error s' =>
      rw [hb] at hs
      cases hs
      rfl
    | ok p =>
      rw [hb] at hs
      cases hs
  obtain ⟨es, hw, hP⟩ := h s hb hr
  refine ⟨.enter rule :: es, Window.follow_cons_of rfl hw, ?_⟩
  rwa [List.append_assoc] at hP

section Repetitions

variable {starts : List TokenKind}

theorem Rejects.manyFrom {item : σ → (v : Window) → Attempt (Parsed v.remaining (α × σ))}
    {Q : List Event → σ → Prop}
    (hstep : ∀ es s u x s' v, Q es s → u.remaining < n → Yields (item s u) (x, s') v →
      ∃ fs, u.follow fs = some v ∧ Q (es ++ fs) s')
    (hitem : ∀ es s u, Q es s → u.remaining < n → Rejects P es (item s u) u)
    {xs : List α} {s : σ} (hQ : Q front s) (h : w.remaining < n) :
    Rejects P front (manyFrom starts n (fun s v _ => item s v) xs s w h) w := by
  induction hr : w.remaining using Nat.strongRecOn generalizing front xs s w with
  | ind r ih =>
    subst hr
    rw [Parse.manyFrom]
    split
    next =>
      refine (hitem front s w hQ h).bind fun p v hy => ?_
      obtain ⟨fs, hv, hQ'⟩ := hstep front s w p.1 p.2 v hQ h hy
      exact ⟨fs, hv, ih v.remaining hy.bound hQ' (Nat.lt_trans hy.bound h) rfl⟩
    next => exact rejects_ok

theorem Rejects.many {item : (v : Window) → Attempt (Parsed v.remaining α)} {Q : List Event → Prop}
    (hstep : ∀ es u x v, Q es → u.remaining < n → Yields (item u) x v →
      ∃ fs, u.follow fs = some v ∧ Q (es ++ fs))
    (hitem : ∀ es u, Q es → u.remaining < n → Rejects P es (item u) u)
    (hQ : Q front) (h : w.remaining < n) :
    Rejects P front (many starts n (fun v _ => item v) w h) w := by
  have hm : Rejects P front (manyWith starts n (fun (_ : Unit) v _ => do
      let p ← item v
      return p.map (·, ())) () w h) w := by
    refine Rejects.manyFrom (Q := fun es _ => Q es) (fun es _ u x _ v hQ hu hy => ?_)
      (fun es _ u hQ hu => ?_) hQ h
    · obtain ⟨a, v', ha, hp⟩ := yields_bind.mp hy
      obtain ⟨hx, rfl⟩ := yields_pure.mp hp
      cases hx
      exact hstep es u _ _ hQ hu ha
    · exact (hitem es u hQ hu).last fun _ _ _ => rejects_pure
  exact hm.last fun _ _ _ => rejects_pure

end Repetitions

end Parse

end Jack
