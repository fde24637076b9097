import Jack.Proofs.Grammar.Static
import Jack.Proofs.Parse.Stream

namespace Jack

open Window (Holds)

theorem bind_eq_ok_iff {ε α β : Type} {x : Except ε α} {f : α → Except ε β} {b : β} :
    (x >>= f) = .ok b ↔ ∃ a, x = .ok a ∧ f a = .ok b := by
  cases x with
  | error e =>
    constructor
    · intro h
      cases h
    · rintro ⟨a, h, -⟩
      cases h
  | ok a =>
    constructor
    · exact fun h => ⟨a, rfl, h⟩
    · rintro ⟨_, h, hb⟩
      cases h
      exact hb

theorem parse_eq_ok_iff {w v : Window} {r : Class} :
    parse w = .ok (r, v) ↔
      ∃ u, Parse.Yields (Parse.classDec w) r u ∧ u.perform (.consumed .eof) = some v := by
  have he (u : Window) (t : Token) : u.consume [.eof] = .ok t v ↔
      t = .eof ∧ u.perform (.consumed .eof) = some v := by
    have ht (t' : Token) : (if [TokenKind.eof].contains t'.kind then some t' else none) = some t ↔
        t' = t ∧ t = .eof := by
      cases t' <;> simp [Token.kind] <;> rintro rfl <;> simp
    rw [Window.consume, Window.accept_eq_ok_iff]
    simp only [ht]
    constructor
    · rintro ⟨_, ⟨rfl, rfl⟩, h⟩
      exact ⟨rfl, h⟩
    · rintro ⟨rfl, h⟩
      exact ⟨_, ⟨rfl, rfl⟩, h⟩
  rw [parse, bind_eq_ok_iff]
  constructor
  · rintro ⟨q, hq, h⟩
    split at h
    next t u hu =>
      cases h
      exact ⟨q.window, ⟨q.bound, hq⟩, ((he _ _).mp hu).2⟩
    next => cases h
  · rintro ⟨u, ⟨hb, hu⟩, hv⟩
    refine ⟨_, hu, ?_⟩
    rw [(he u .eof).mpr ⟨rfl, hv⟩]
    rfl

/-- Of a stream without errors in which the end of the file does not stand, a class is compiled just
if the grammar derives its tokens and the names in it can be resolved. The commands are those of the
tree with its names resolved, and the record is that of the derivation. -/
theorem compileItems_eq_ok_iff {xs : List Lexeme} (hxs : ∀ x ∈ xs, x.token ≠ .eof) {recorded : Bool}
    {p : Compiled} :
    compileItems recorded (xs.map .ok).toArray = .ok p ↔
      ∃ c : Grammar.Class, c.tokens = xs.map (·.token) ∧ ∃ r, c.resolve = some r ∧
        p = ⟨r.name, r.code, if recorded then c.derivation ++ [.consumed .eof] else []⟩ := by
  obtain ⟨w, hw, hh, hr⟩ := Window.ofItems_holds xs
  have hts : .eof ∉ xs.map (·.token) := by
    simpa using fun x hx h => hxs x hx h
  have hh' := hh.recording recorded
  rw [compileItems, bind_eq_ok_iff]
  constructor
  · rintro ⟨_, hw', h⟩
    cases hw.symm.trans hw'
    split at h
    next r v hp =>
      cases h
      obtain ⟨u, hu, hv⟩ := parse_eq_ok_iff.mp hp
      obtain ⟨c, hf, hres⟩ := Grammar.yields_classDec.mp hu
      obtain ⟨ts, hts', hu'⟩ := hh'.of_follow c.eof_not_mem hf
      have hnil : ts = [] := by
        have hn := hu'.next
        rw [Window.next_token_of_perform hv] at hn
        cases ts with
        | nil => rfl
        | cons t ts =>
          rw [hts', show t = .eof from hn.symm] at hts
          exact (hts (by simp)).elim
      refine ⟨c, by rw [hts', hnil, List.append_nil]; rfl, r, hres, ?_⟩
      have he : (if recorded then w.startRecord else w).follow (c.derivation ++ [.consumed .eof]) =
          some v := by
        simp [hf, hv]
      rw [Window.events_of_follow hr he]
    next => cases h
  · rintro ⟨c, hc, r, hres, rfl⟩
    rw [← hc, ← List.append_nil c.tokens] at hh'
    obtain ⟨u, hf, hu⟩ := hh'.follow
    obtain ⟨v, hv⟩ := hu.perform_eof
    have hp := parse_eq_ok_iff.mpr ⟨u, Grammar.yields_classDec.mpr ⟨c, hf, hres⟩, hv⟩
    have he : (if recorded then w.startRecord else w).follow (c.derivation ++ [.consumed .eof]) =
        some v := by
      simp [hf, hv]
    refine ⟨w, hw, ?_⟩
    rw [hp, ← Window.events_of_follow hr he]
    rfl

namespace Grammar

/-- The tokens of a class, each at the same place. -/
def Class.lexemes (c : Class) : List Lexeme :=
  c.tokens.map (⟨·, .origin⟩)

theorem Class.map_token_lexemes (c : Class) : c.lexemes.map (·.token) = c.tokens := by
  simp [Class.lexemes, Function.comp_def]

theorem Class.token_ne_eof_of {c : Class} {xs : List Lexeme} (h : xs.map (·.token) = c.tokens) :
    ∀ x ∈ xs, x.token ≠ .eof := by
  intro x hx he
  refine c.eof_not_mem ?_
  rw [← he, ← h]
  exact List.mem_map_of_mem hx

theorem Class.token_ne_eof (c : Class) : ∀ x ∈ c.lexemes, x.token ≠ .eof :=
  Class.token_ne_eof_of c.map_token_lexemes

/-- `class Tally { field int n; method int next() { let n = n + 1; return n; } }` -/
def tally : Class where
  name := "Tally"
  declarations := [(.field, ⟨.int, "n", []⟩)]
  subroutines := [⟨.method, .value .int, "next", [], [],
    [.assign "n" (.chain (.name "n") [(.add, .integer 1)]),
      .return (some (.chain (.name "n") []))]⟩]

theorem tally_static : tally.Static where
  distinct := by decide
  room kind := by cases kind <;> decide
  subroutines := by
    intro s hs
    rw [tally, List.mem_singleton] at hs
    subst hs
    refine ⟨by decide, fun kind => by cases kind <;> decide, ?_⟩
    simp [Statement.leavesAll, Statement.leaves, Expression.leaves, Expression.leavesRest,
      Term.leaves, Leaf.Valid, maxConstant, tally, Class.entries, Variables.entries, Variables.names]

end Grammar

theorem Grammar.Class.Static.compiles {c : Grammar.Class} (h : c.Static) :
    ∃ r, c.resolve = some r ∧
      ∃ p, compileItems false (c.lexemes.map .ok).toArray = .ok p ∧ p.commands = r.code := by
  obtain ⟨r, hr⟩ := Option.isSome_iff_exists.mp (c.isSome_resolve.mpr h)
  exact ⟨r, hr, _, (compileItems_eq_ok_iff c.token_ne_eof).mpr
    ⟨c, c.map_token_lexemes.symm, r, hr, rfl⟩, rfl⟩

theorem Grammar.Class.resolve_unique {c c' : Grammar.Class} {r r' : Jack.Class}
    (hc : c.tokens = c'.tokens) (hr : c.resolve = some r) (hr' : c'.resolve = some r') : r = r' := by
  obtain ⟨w, -, hw, -⟩ := Window.ofItems_holds c.lexemes
  rw [c.map_token_lexemes, ← List.append_nil c.tokens] at hw
  obtain ⟨v, hv, hn⟩ := hw.follow
  rw [hc] at hw
  obtain ⟨v', hv', hn'⟩ := hw.follow
  obtain ⟨_, hy⟩ := Grammar.yields_classDec.mpr ⟨c, hv, hr⟩
  obtain ⟨_, hy'⟩ := Grammar.yields_classDec.mpr ⟨c', hv', hr'⟩
  cases hy.symm.trans hy'
  rfl

/-- A stream without errors, in which the end of the file does not stand, is compiled just if its
tokens are those of a class of the grammar that meets the static conditions. -/
theorem compiles_iff_derives {xs : List Lexeme} (hxs : ∀ x ∈ xs, x.token ≠ .eof) (recorded : Bool) :
    (∃ p, compileItems recorded (xs.map .ok).toArray = .ok p) ↔
      ∃ c : Grammar.Class, c.tokens = xs.map (·.token) ∧ c.Static := by
  simp only [compileItems_eq_ok_iff hxs, ← Grammar.Class.isSome_resolve, Option.isSome_iff_exists]
  constructor
  · rintro ⟨p, c, hc, r, hr, -⟩
    exact ⟨c, hc, r, hr⟩
  · rintro ⟨c, hc, r, hr⟩
    exact ⟨_, c, hc, r, hr, rfl⟩

theorem compiles_tally :
    (∀ x ∈ Grammar.tally.lexemes, x.token ≠ .eof) ∧
      ∃ p, compileItems false (Grammar.tally.lexemes.map .ok).toArray = .ok p :=
  ⟨Grammar.tally.token_ne_eof, (compiles_iff_derives Grammar.tally.token_ne_eof false).mpr
    ⟨Grammar.tally, Grammar.tally.map_token_lexemes.symm, Grammar.tally_static⟩⟩

end Jack
