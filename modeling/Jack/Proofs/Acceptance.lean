import Jack.Proofs.Grammar.Code
import Jack.Proofs.Reading.Whole
import Jack.Proofs.Trace

namespace Jack

open Jack.Stream (handedOut)
open Event (tokens)

/-- The stream hands out lexemes of these tokens, and no error behind them. -/
structure Stream.Tells (items : Array Item) (ts : List Token) : Prop where
  token {i : Nat} {t : Token} : ts[i]? = some t → ∃ x, handedOut items i = .ok x ∧ x.token = t
  behind : ∃ x, handedOut items ts.length = .ok x

open Jack.Stream (Tells)

variable {items : Array Item} {w : Window} {k : Nat}

theorem Window.At.exists_follow (h : w.At items k) (es : List Event)
    (ht : ∀ {i t}, (tokens es)[i]? = some t → ∃ x, handedOut items (k + i) = .ok x ∧ x.token = t)
    (hb : ∃ x, handedOut items (k + (tokens es).length) = .ok x) : ∃ v, w.follow es = some v := by
  induction es generalizing w k with
  | nil => exact ⟨w, rfl⟩
  | cons e es ih =>
    cases e with
    | enter rule | leave rule => exact ih (h.note _) ht hb
    | consumed t =>
      have hn : w.next.token = t := by
        obtain ⟨x, hx, rfl⟩ := ht (i := 0) rfl
        rw [Nat.add_zero, h.handedOut_next] at hx
        rw [Except.ok.inj hx]
      -- The item behind the token is another of the tokens or the one behind all of them.
      obtain ⟨x, hx⟩ : ∃ x, w.incoming = .ok x := by
        rw [h.incoming_eq]
        cases hes : tokens es with
        | nil => simpa [hes] using hb
        | cons t' ts =>
          obtain ⟨x, hx, -⟩ := ht (i := 1) (t := t') (by simp [hes])
          exact ⟨x, hx⟩
      obtain ⟨v, hv⟩ := ih (h.past hx)
        (fun {i t} hi => by
          rw [Nat.add_assoc, Nat.add_comm 1]
          exact ht (i := i + 1) hi)
        (by
          rw [Nat.add_assoc, Nat.add_comm 1]
          exact hb)
      exact ⟨v, follow_cons_of (hn ▸ perform_of_incoming hx) hv⟩

theorem parse_of_tells {c : Grammar.Class} {r : Class} (hc : Tells items (c.tokens ++ [.eof]))
    (hr : c.resolve = some r) (recorded : Bool) :
    ∃ w v, Window.ofItems items = .ok w ∧
      (if recorded then w.startRecord else w).follow (c.derivation ++ [.consumed .eof]) = some v ∧
      parse (if recorded then w.startRecord else w) = .ok (r, v) := by
  obtain ⟨w, hw⟩ : ∃ w, Window.ofItems items = .ok w := by
    obtain ⟨t, ht⟩ : ∃ t, (c.tokens ++ [Token.eof])[0]? = some t := ⟨_, List.getElem?_eq_getElem (by simp)⟩
    obtain ⟨x, hx, -⟩ := hc.token ht
    exact ⟨_, Window.ofItems_eq_ok_iff.mpr ⟨x, hx, rfl⟩⟩
  have hts : tokens (c.derivation ++ [.consumed .eof]) = c.tokens ++ [.eof] := Event.tokens_append _ _
  obtain ⟨v, hv⟩ := (at_start hw recorded).exists_follow (c.derivation ++ [.consumed .eof])
    (fun hi => by simpa using hc.token (by rwa [hts] at hi)) (by simpa [hts] using hc.behind)
  obtain ⟨u, hu, hl⟩ := Window.follow_append_iff.mp hv
  exact ⟨w, v, hw, hv, parse_eq_ok_iff.mpr
    ⟨u, Grammar.yields_classDec.mpr ⟨c, hu, hr⟩, by simpa [Option.bind_eq_some_iff] using hl⟩⟩

/-- Whether a stream is compiled, and to what, is told by the tokens up to the end of the file, if no
error is handed out with them. -/
theorem compileItems_eq_ok_iff_tells {recorded : Bool} {p : Compiled} :
    compileItems recorded items = .ok p ↔
      ∃ c : Grammar.Class, Tells items (c.tokens ++ [.eof]) ∧ ∃ r, c.resolve = some r ∧
        p = ⟨r.name, r.code, if recorded then c.derivation ++ [.consumed .eof] else []⟩ := by
  constructor
  · intro h
    cases hw : Window.ofItems items with
    | error e =>
      rw [compileItems_of_error hw] at h
      cases h
    | ok w =>
      rw [compileItems_of_ok hw] at h
      cases hp : parse (if recorded then w.startRecord else w) with
      | error s =>
        rw [hp] at h
        cases h
      | ok q =>
        obtain ⟨r, v⟩ := q
        obtain ⟨u, hu, hv⟩ := parse_eq_ok_iff.mp hp
        obtain ⟨c, hf, hr⟩ := Grammar.yields_classDec.mp hu
        have he : (if recorded then w.startRecord else w).follow (c.derivation ++ [.consumed .eof]) =
            some v := by
          simp [hf, hv]
        have hat := at_start hw recorded
        have hlast := (hat.follow he).handedOut_next
        refine ⟨c, ⟨fun hi => ?_, v.next, ?_⟩, r, hr, ?_⟩
        · simpa using hat.consumed he (by simpa [Grammar.Class.tokens] using hi)
        · simpa [Grammar.Class.tokens] using hlast
        · rw [hp, compiledOf, Window.events_of_follow (record_ofItems hw) he] at h
          exact (Except.ok.inj h).symm
  · rintro ⟨c, hc, r, hr, rfl⟩
    obtain ⟨w, v, hw, hv, hp⟩ := parse_of_tells hc hr recorded
    rw [compileItems_of_ok hw, hp, compiledOf, Window.events_of_follow (record_ofItems hw) hv]

theorem Stream.tells_of_lexemes (xs : List Lexeme) :
    Tells (xs.map .ok).toArray (xs.map (·.token) ++ [.eof]) := by
  have hok (i : Nat) : handedOut (xs.map .ok).toArray i =
      .ok (xs[i]?.getD ⟨.eof, endPlace (xs.map .ok).toArray⟩) := by
    cases h : xs[i]? <;> simp [handedOut, h]
  refine ⟨fun {i t} hi => ⟨_, hok i, ?_⟩, _, hok _⟩
  rw [List.getElem?_append, List.getElem?_map, List.length_map] at hi
  split at hi
  next h =>
    rw [List.getElem?_eq_getElem h] at hi ⊢
    exact Option.some.inj hi
  next h =>
    rw [List.getElem?_eq_none (Nat.not_lt.mp h)]
    exact (List.mem_singleton.mp (List.mem_of_getElem? hi)).symm

theorem Grammar.Class.tells_lexemes (c : Class) : Tells (c.lexemes.map .ok).toArray (c.tokens ++ [.eof]) := by
  have h := Stream.tells_of_lexemes c.lexemes
  rwa [c.map_token_lexemes] at h

/-- Two lists that agree up to a mark, which stands in neither of them, are equal. -/
theorem eq_of_agree_up_to {α : Type} {mark : α} {as bs : List α} (ha : mark ∉ as) (hb : mark ∉ bs)
    (h : ∀ {i : Nat} {a b : α}, (as ++ [mark])[i]? = some a → (bs ++ [mark])[i]? = some b → a = b) : as = bs := by
  induction as generalizing bs with
  | nil =>
    cases bs with
    | nil => rfl
    | cons b bs => exact (hb (h (i := 0) rfl rfl ▸ List.mem_cons_self)).elim
  | cons a as ih =>
    cases bs with
    | nil => exact (ha (h (i := 0) rfl rfl ▸ List.mem_cons_self)).elim
    | cons b bs =>
      rw [List.mem_cons, not_or] at ha hb
      rw [h (i := 0) rfl rfl, ih ha.2 hb.2 fun {i _ _} hi hj => h (i := i + 1) hi hj]

theorem Stream.Tells.tokens_eq {c c' : Grammar.Class} (h : Tells items (c.tokens ++ [.eof]))
    (h' : Tells items (c'.tokens ++ [.eof])) : c.tokens = c'.tokens := by
  refine eq_of_agree_up_to c.eof_not_mem c'.eof_not_mem fun hi hj => ?_
  obtain ⟨x, hx, rfl⟩ := h.token hi
  obtain ⟨y, hy, rfl⟩ := h'.token hj
  rw [Except.ok.inj (hx.symm.trans hy)]

/-- All streams of these tokens are compiled, and to these commands. -/
def CompilesTo (recorded : Bool) (ts : List Token) (commands : List VM.Command) : Prop :=
  ∀ items, Tells items (ts ++ [.eof]) → ∃ p, compileItems recorded items = .ok p ∧ p.commands = commands

theorem compilesTo_of_code {c : Grammar.Class} {q : List VM.Command} (hq : c.code? = some q)
    (recorded : Bool) : CompilesTo recorded c.tokens q := by
  intro items hc
  obtain ⟨r, hr, rfl⟩ := Option.map_eq_some_iff.mp hq
  exact ⟨_, compileItems_eq_ok_iff_tells.mpr ⟨c, hc, r, hr, rfl⟩, rfl⟩

/-- A class that a stream tells has been compiled with the stream. -/
theorem code?_of_compileItems {recorded : Bool} {p : Compiled} {c : Grammar.Class}
    (h : compileItems recorded items = .ok p) (hc : Tells items (c.tokens ++ [.eof])) :
    c.code? = some p.commands := by
  obtain ⟨c', hc', r', hr', -⟩ := compileItems_eq_ok_iff_tells.mp h
  have hl : c.lexemes.map (·.token) = c'.tokens := c.map_token_lexemes.trans (hc.tokens_eq hc')
  obtain ⟨r, hr⟩ : ∃ r, c.resolve = some r := by
    have hok : ∃ p, compileItems false (c.lexemes.map .ok).toArray = .ok p :=
      ⟨_, (compileItems_eq_ok_iff c.token_ne_eof).mpr ⟨c', hl.symm, r', hr', rfl⟩⟩
    exact isSome_resolve_of_compileItems hok.choose_spec c.map_token_lexemes
  have hq : c.code? = some r.code := Option.map_eq_some_iff.mpr ⟨r, hr, rfl⟩
  obtain ⟨p', hp, hcode⟩ := compilesTo_of_code hq recorded items hc
  cases h.symm.trans hp
  rw [hcode, hq]

end Jack
