import Jack.Proofs.Reading.Law

namespace Jack

open Jack.Stream (handedOut)

section Like

variable (same : Location → Location → Prop)

/-- The lexemes differ in their places at most, and these are taken for the same. -/
structure Lexeme.Like (x y : Lexeme) : Prop where
  token : x.token = y.token
  location : same x.location y.location

structure Error.Like (e e' : Error) : Prop where
  fault : e.fault = e'.fault
  location : same e.location e'.location

inductive LikeItems : Item → Item → Prop where
  | ok {x y : Lexeme} (h : x.Like same y) : LikeItems (.ok x) (.ok y)
  | error {e e' : Error} (h : e.Like same e') : LikeItems (.error e) (.error e')

/-- Two streams of which the first `n` items are the same. -/
structure Fork (left right : Array Item) (n : Nat) : Prop where
  origin : same .origin .origin
  items : ∀ i < n, LikeItems same (handedOut left i) (handedOut right i)

variable {same} {left right : Array Item} {n k : Nat} {w v : Window}

theorem LikeItems.of_ok {x y : Lexeme} (h : LikeItems same (.ok x) (.ok y)) : x.Like same y := by
  cases h with
  | ok h => exact h

theorem Error.Like.eq {e e' : Error} (h : e.Like Eq e') : e = e' := by
  obtain ⟨l, f⟩ := e
  obtain ⟨l', f'⟩ := e'
  obtain ⟨rfl, rfl⟩ := h
  rfl

theorem LikeItems.refl (hs : ∀ l, same l l) (i : Item) : LikeItems same i i := by
  cases i with
  | ok x => exact .ok ⟨rfl, hs _⟩
  | error e => exact .error ⟨rfl, hs _⟩

theorem Fork.of_eq (hs : ∀ l, same l l) (h : ∀ i < n, handedOut right i = handedOut left i) :
    Fork same left right n :=
  ⟨hs _, fun i hi => h i hi ▸ LikeItems.refl hs _⟩

theorem Fork.next (hf : Fork same left right n) (hw : w.At left k) (hv : v.At right k) (hk : k < n) :
    w.next.Like same v.next := by
  have hi := hf.items k hk
  rw [hw.handedOut_next, hv.handedOut_next] at hi
  exact hi.of_ok

theorem Fork.last (hf : Fork same left right n) (hw : w.At left k) (hv : v.At right k) (hk : k ≤ n) :
    w.last.Like same v.last := by
  cases k with
  | zero =>
    rw [hw.shows.last_eq, hv.shows.last_eq]
    exact ⟨rfl, hf.origin⟩
  | succ k =>
    have hi := hf.items k hk
    rw [hw.handedOut_last, hv.handedOut_last] at hi
    exact hi.of_ok

theorem Fork.incoming (hf : Fork same left right n) (hw : w.At left k) (hv : v.At right k)
    (hk : k + 1 < n) : LikeItems same w.incoming v.incoming := by
  rw [hw.incoming_eq, hv.incoming_eq]
  exact hf.items _ hk

end Like

namespace Parse

open Reading

variable {same : Location → Location → Prop} {left right : Array Item} {n k : Nat} {w v : Window}
  {α β : Type} {r : Nat} {c : Place} {m : Reading α}

/-- Two ends of a program: the same result behind the same events, or the same error. -/
inductive Similar (same : Location → Location → Prop) (w v : Window) :
    Except Stop (α × Window) → Except Stop (α × Window) → Prop where
  | ok {a : α} {es : List Event} {w' v' : Window} (hw : w.follow es = some w') (hv : v.follow es = some v') :
      Similar same w v (.ok (a, w')) (.ok (a, v'))
  | error {s s' : Stop} (h : s.error.Like same s'.error) (ha : s.window.asked = s'.window.asked) :
      Similar same w v (.error s) (.error s')

theorem Similar.cons {e : Event} {w' v' : Window} {q p : Except Stop (α × Window)}
    (hw : w.perform e = some w') (hv : v.perform e = some v') (h : Similar same w' v' q p) :
    Similar same w v q p := by
  cases h with
  | ok hw' hv' => exact .ok (Window.follow_cons_of hw hw') (Window.follow_cons_of hv hv')
  | error h ha => exact .error h ha

theorem similar_unexpected (hf : Fork same left right n) (hw : w.At left k) (hv : v.At right k)
    (hk : k < n) (expected : List TokenKind) :
    Similar same w v (.error ⟨w.unexpectedNext expected, w⟩ : Except Stop (α × Window))
      (.error ⟨v.unexpectedNext expected, v⟩) := by
  have hn := hf.next hw hv hk
  refine .error ⟨?_, hn.location⟩ (hw.asked_eq.trans hv.asked_eq.symm)
  rw [Window.unexpectedNext, Window.unexpectedNext, hn.token]

theorem similar_take {expected : List TokenKind} {read : Token → Option β} {f : β → Reading α}
    (hf : Fork same left right n) (hw : w.At left k) (hv : v.At right k)
    (hn : asked ((take expected read >>= f) w) ≤ n) (hk : k < n)
    (hle : ∀ b x, read w.next.token = some b → w.incoming = .ok x → w.asked + 1 ≤ asked (f b (w.past x)))
    (h : ∀ b x y, read w.next.token = some b → read v.next.token = some b →
      w.incoming = .ok x → v.incoming = .ok y → asked (f b (w.past x)) ≤ n →
      Similar same (w.past x) (v.past y) (f b (w.past x)) (f b (v.past y))) :
    Similar same w v ((take expected read >>= f) w) ((take expected read >>= f) v) := by
  have ht : w.next.token = v.next.token := (hf.next hw hv hk).token
  obtain ⟨hr, he⟩ | ⟨b, e, hr, hi, he⟩ | ⟨b, x, hr, hi, he⟩ := take_bind_cases expected read f w
  · rw [he, take_bind_of_none (ht ▸ hr)]
    exact similar_unexpected hf hw hv hk expected
  · rw [he] at hn ⊢
    have hk' : k + 1 < n := by
      have ha : w.asked + 1 ≤ n := hn
      rwa [hw.asked_eq] at ha
    have hl := hf.incoming hw hv hk'
    rw [hi] at hl
    cases hi' : v.incoming with
    | ok y =>
      rw [hi'] at hl
      cases hl
    | error e' =>
      rw [take_bind_of_error (ht ▸ hr) hi']
      rw [hi'] at hl
      cases hl with
      | error hl => exact .error hl (by simp only [hw.asked_eq, hv.asked_eq])
  · rw [he] at hn ⊢
    have hk' : k + 1 < n := by
      have ha := Nat.le_trans (hle b x hr hi) hn
      rwa [hw.asked_eq] at ha
    have hl := hf.incoming hw hv hk'
    rw [hi] at hl
    cases hi' : v.incoming with
    | error e' =>
      rw [hi'] at hl
      cases hl
    | ok y =>
      rw [take_bind_of_ok (ht ▸ hr) hi']
      refine .cons (Window.perform_of_incoming hi) ?_ (h b x y hr (ht ▸ hr) hi hi' hn)
      rw [ht]
      exact Window.perform_of_incoming hi'

theorem Steady.similar (h : Steady r c m) (hf : Fork same left right n) (hw : w.At left k)
    (hv : v.At right k) (hrw : w.remaining < r) (hrv : v.remaining < r) (hn : asked (m w) ≤ n) :
    Similar same w v (m w) (m v) := by
  have hk : k < n := by
    have ha := h.asked_le hrw
    rw [hw.asked_eq] at ha
    exact Nat.lt_of_succ_le (Nat.le_trans ha hn)
  induction h generalizing w v k with
  | zero => exact absurd hrw (Nat.not_lt_zero _)
  | give => exact .ok (Window.follow_nil w) (Window.follow_nil v)
  | @mark _ _ e m he _ ih =>
    have hp (w : Window) : w.perform e = some (w.note e) := by
      cases e with
      | enter | leave => rfl
      | consumed t => cases he
    exact .cons (hp w) (hp v) (ih (hw.note e) (hv.note e) hrw hrv hn hk)
  | take hc heof hm ih =>
    have hle := asked_le_behind hm heof hrw
    refine similar_take hf hw hv hn hk hle fun b x y hb hb' hx hy hn' => ?_
    have ha := Nat.le_trans (hle b x hb hx) hn'
    rw [hw.asked_eq] at ha
    exact ih b (hw.past hx) (hv.past hy) (remaining_past_lt heof hb hx hrw)
      (remaining_past_lt heof hb' hy hrv) hn' ha
  | takeEnd hc a =>
    exact similar_take hf hw hv hn hk (fun _ _ _ _ => Nat.le_refl _)
      fun b x y _ _ _ _ _ => .ok (Window.follow_nil (w.past x)) (Window.follow_nil (v.past y))
  | @choose _ _ kinds m l _ _ ih ih' =>
    have hs : v.nextIsAmong kinds = w.nextIsAmong kinds := by
      rw [Window.nextIsAmong, Window.nextIsAmong, (hf.next hw hv hk).token]
    simp only [Reading.choose, hs] at hn ⊢
    split
    next hc =>
      rw [if_pos hc] at hn
      exact ih hw hv hrw hrv hn hk
    next hc =>
      rw [if_neg hc] at hn
      exact ih' hw hv hrw hrv hn hk
  | refuse => exact similar_unexpected hf hw hv hk _
  | fail =>
    have hl := hf.last hw hv (Nat.le_of_lt hk)
    exact .error ⟨rfl, hl.location⟩ (hw.asked_eq.trans hv.asked_eq.symm)

/-- The end of a program that finds fault with the item that has the number `n`. -/
def Refuses (n : Nat) (expected : List TokenKind) (q : Except Stop (α × Window)) : Prop :=
  ∃ s found, q = .error s ∧ s.error.fault = .unexpected expected found ∧ s.window.asked = n + 1

theorem Refuses.asked_eq {expected : List TokenKind} {q : Except Stop (α × Window)}
    (h : Refuses n expected q) : asked q = n + 1 := by
  obtain ⟨s, found, rfl, -, ha⟩ := h
  exact ha

/-- Behind the same items each stream has one of its own, and neither is an error. -/
structure Parting (left right : Array Item) (n : Nat) (x y : Lexeme) : Prop where
  fork : Fork (fun _ _ => True) left right n
  left : handedOut left n = .ok x
  right : handedOut right n = .ok y

variable {x y : Lexeme} {expected : List TokenKind}

/-- Up to the parting, if one stream goes on without an error, so does the other. -/
theorem Parting.incoming (hp : Parting left right n x y) (hw : w.At left k) (hv : v.At right k)
    (hk : k < n) {x' : Lexeme} (hx : w.incoming = .ok x') : ∃ y', v.incoming = .ok y' := by
  obtain hk | hk := Nat.lt_or_eq_of_le (Nat.succ_le_of_lt hk)
  · have hl := hp.fork.incoming hw hv hk
    rw [hx] at hl
    cases hi : v.incoming with
    | ok y' => exact ⟨y', rfl⟩
    | error e =>
      rw [hi] at hl
      cases hl
  · rw [hv.incoming_eq]
    exact ⟨y, (congrArg (handedOut right) hk).trans hp.right⟩

theorem take_goes_on {kinds : List TokenKind} {read : Token → Option β} {f : β → Reading α}
    (hc : c.Takes kinds read) (hcv : c.Fits v) (hp : Parting left right n x y) (hw : w.At left k)
    (hv : v.At right k) (hk : k ≤ n) (hy : y.token.kind ∈ expected)
    (hlew : ∀ b x, read w.next.token = some b → w.incoming = .ok x → w.asked + 1 ≤ asked (f b (w.past x)))
    (hlev : ∀ b y, read v.next.token = some b → v.incoming = .ok y → v.asked + 1 ≤ asked (f b (v.past y)))
    (h : ∀ b x y, read w.next.token = some b → read v.next.token = some b →
      w.incoming = .ok x → v.incoming = .ok y → Refuses n expected (f b (w.past x)) →
      n + 1 < asked (f b (v.past y)))
    (hr : Refuses n expected ((take kinds read >>= f) w)) :
    n + 1 < asked ((take kinds read >>= f) v) := by
  have hkw := hw.asked_eq
  obtain ⟨hb, he⟩ | ⟨b, e, hb, hi, he⟩ | ⟨b, x', hb, hi, he⟩ := take_bind_cases kinds read f w
  · -- the program stops in front of the parting
    obtain ⟨s, found, hs, hfault, ha⟩ := hr
    cases he.symm.trans hs
    have hkn : k = n := Nat.succ.inj (hkw.symm.trans ha)
    subst hkn
    cases hfault
    have hn : v.next = y := Except.ok.inj (hv.handedOut_next.symm.trans hp.right)
    have ht : (read v.next.token).isSome := hc _ hcv.next (.inr (hn ▸ hy))
    exact hv.asked_eq ▸ (asked_le_take hlev).2 ht
  · have ha := hr.asked_eq
    rw [he] at ha
    have hkn : k + 1 = n := by
      have ha' : w.asked + 1 = n + 1 := ha
      omega
    rw [hw.incoming_eq, hkn, hp.left] at hi
    cases hi
  · rw [he] at hr
    have hkn : k < n := by
      have ha := hlew b x' hb hi
      rw [hr.asked_eq] at ha
      omega
    have ht := (hp.fork.next hw hv hkn).token
    obtain ⟨y', hi'⟩ := hp.incoming hw hv hkn hi
    rw [take_bind_of_ok (ht ▸ hb) hi']
    exact h b x' y' hb (ht ▸ hb) hi hi' hr

/-- Where the program has found fault with an item, it goes on behind one of a kind that it has expected
there. -/
theorem Steady.goes_on (h : Steady r c m) (hp : Parting left right n x y) (hw : w.At left k)
    (hv : v.At right k) (hrw : w.remaining < r) (hrv : v.remaining < r) (hcw : c.Fits w) (hcv : c.Fits v)
    (hy : y.token.kind ∈ expected) (hr : Refuses n expected (m w)) : n + 1 < asked (m v) := by
  have hk : k ≤ n := by
    have ha := h.asked_le hrw
    rw [hw.asked_eq, hr.asked_eq] at ha
    exact Nat.le_of_succ_le_succ ha
  induction h generalizing w v k with
  | zero => exact absurd hrw (Nat.not_lt_zero _)
  | give =>
    obtain ⟨s, found, hs, -⟩ := hr
    cases hs
  | mark _ _ ih =>
    exact ih (hw.note _) (hv.note _) hrw hrv ⟨hcw.last, hcw.next⟩ ⟨hcv.last, hcv.next⟩ hr hk
  | take hc heof hm ih =>
    have hle := asked_le_behind hm heof hrw
    refine take_goes_on hc hcv hp hw hv hk hy hle (asked_le_behind hm heof hrv)
      (fun b x y hb hb' hx hy' hr' => ?_) hr
    have ha := hle b x hb hx
    rw [hw.asked_eq, hr'.asked_eq] at ha
    exact ih b (hw.past hx) (hv.past hy') (remaining_past_lt heof hb hx hrw)
      (remaining_past_lt heof hb' hy' hrv) (.behind hb) (.behind hb') hr' (Nat.le_of_succ_le_succ ha)
  | takeEnd hc a =>
    refine take_goes_on hc hcv hp hw hv hk hy (fun _ _ _ _ => Nat.le_refl _)
      (fun _ _ _ _ => Nat.le_refl _) (fun b x y _ _ _ _ hr' => ?_) hr
    obtain ⟨s, found, hs, -⟩ := hr'
    cases hs
  | @choose _ _ kinds m l hm hl ih ih' =>
    have hkn (hne : w.nextIsAmong kinds ≠ v.nextIsAmong kinds) : k = n := by
      refine (Nat.lt_or_eq_of_le hk).resolve_left fun hlt => hne ?_
      rw [Window.nextIsAmong, Window.nextIsAmong, (hp.fork.next hw hv hlt).token]
    obtain ⟨hkw, he⟩ | ⟨hkw, he⟩ := choose_cases kinds m l w
    · rw [he] at hr
      obtain ⟨hkv, he'⟩ | ⟨hkv, -⟩ := choose_cases kinds m l v
      · exact he' ▸ ih hw hv hrw hrv (hcw.among hkw) (hcv.among hkv) hr hk
      · -- the item would have been consumed
        have ha := hm.asked_lt hrw trivial (hcw.among hkw)
        rw [hr.asked_eq, hw.asked_eq, hkn (by simp [hkw, hkv])] at ha
        exact absurd ha (Nat.lt_irrefl _)
    · rw [he] at hr
      obtain ⟨hkv, he'⟩ | ⟨hkv, he'⟩ := choose_cases kinds m l v
      · have ha := hm.asked_lt hrv trivial (hcv.among hkv)
        rwa [hv.asked_eq, hkn (by simp [hkw, hkv]), ← he'] at ha
      · exact he' ▸ ih' hw hv hrw hrv (hcw.notAmong hkw) (hcv.notAmong hkv) hr hk
  | refuse _ he =>
    obtain ⟨s, found, hs, hfault, ha⟩ := hr
    cases hs
    cases hfault
    have hkn : k = n := Nat.succ.inj (hw.asked_eq.symm.trans ha)
    subst hkn
    have hn : v.next = y := Except.ok.inj (hv.handedOut_next.symm.trans hp.right)
    exact absurd (hn ▸ hcv.next) (he _ hy)
  | fail _ hb =>
    obtain ⟨s, found, hs, hfault, -⟩ := hr
    cases hs
    cases hfault
    exact (hb _ hcw.last).elim

end Parse

end Jack
