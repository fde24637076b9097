import Jack.Proofs.Grammar.Derivation
import Jack.Proofs.Independence

namespace Jack

namespace Grammar

/-- A class in which not all names can be resolved has a first place where this shows. -/
theorem Class.flawed {c : Class} (h : c.resolve = none) :
    Parse.Flawed c.derivation anything fun w => Parse.Stops (Parse.classDec w) := by
  cases hd : Scopes.empty.enterAll c.entries with
  | none =>
    obtain ⟨f, -, hf⟩ := Class.shows_of_declarations hd
    exact ⟨f, hf c.subroutines⟩
  | some scopes =>
    have : Nonempty Jack.Subroutine := ⟨⟨.function, .void, "", [], [], []⟩⟩
    obtain ⟨r, hr | ⟨before, s, behind, hs, hr, hn⟩⟩ :=
      exists_first_eq_none (·.resolve c.name scopes) c.subroutines
    · cases (Class.resolve_eq_some_iff.mpr ⟨scopes, hd, _, mapM_eq_pure hr, rfl⟩).symm.trans h
    · obtain ⟨f, hf⟩ := s.flawed hn
      have hc := Class.shows_of_subroutine hd hf (mapM_eq_pure hr) behind
      rw [← hs] at hc
      exact ⟨_, hc⟩

theorem exists_class_iff {es : List Event} : (∃ c : Class, c.derivation = es) ↔
    ∃ t : Tree, t.Derives ∧ t.part = .rule .class ∧ t.events = es :=
  solves_derivations.mem_iff (r := .class)

/-- The tree shows how the grammar derives a class that is written in these tokens. -/
structure Tree.Parses (t : Tree) (ts : List Token) : Prop where
  derives : t.Derives
  part : t.part = .rule .class
  tokens : t.tokens = ts

end Grammar

open Grammar (Tree)

theorem isSome_resolve_of_compileItems {xs : List Lexeme} {recorded : Bool} {p : Compiled}
    (h : compileItems recorded (xs.map .ok).toArray = .ok p) {c : Grammar.Class}
    (hc : xs.map (·.token) = c.tokens) : ∃ r, c.resolve = some r := by
  cases hr : c.resolve with
  | some r => exact ⟨r, rfl⟩
  | none =>
    obtain ⟨f, hf⟩ := Grammar.Class.flawed hr
    obtain ⟨ys, y, zs, rfl, hy⟩ := f.exists_place hf.initial hf.tokens hc
    cases h.symm.trans (compileItems_eq_error hf hc hy recorded)

/-- The events recorded are those of the one tree that the tokens have. -/
theorem events_of_parse_tree {xs : List Lexeme} (hxs : ∀ x ∈ xs, x.token ≠ .eof) {p : Compiled}
    (h : compileItems true (xs.map .ok).toArray = .ok p) :
    ∃ t : Tree, t.Parses (xs.map (·.token)) ∧ (∀ u : Tree, u.Parses (xs.map (·.token)) → u = t) ∧
      p.events = t.events ++ [.consumed .eof] := by
  obtain ⟨c, hc, r, hr, rfl⟩ := (compileItems_eq_ok_iff hxs).mp h
  obtain ⟨t, hd, hp, he⟩ := Grammar.exists_class_iff.mp ⟨c, rfl⟩
  refine ⟨t, ⟨hd, hp, by rw [← t.tokens_events, he, ← hc]; rfl⟩, fun u hu => ?_, by rw [he]; rfl⟩
  obtain ⟨c', hc'⟩ := Grammar.exists_class_iff.mpr ⟨u, hu.derives, hu.part, rfl⟩
  have ht : c'.tokens = xs.map (·.token) := by
    rw [Grammar.Class.tokens, hc', u.tokens_events, hu.tokens]
  obtain ⟨r', hr'⟩ := isSome_resolve_of_compileItems h ht.symm
  have h' : compileItems true (xs.map .ok).toArray =
      .ok ⟨r'.name, r'.code, c'.derivation ++ [.consumed .eof]⟩ :=
    (compileItems_eq_ok_iff hxs).mpr ⟨c', ht, r', hr', rfl⟩
  have hev := congrArg Compiled.events (Except.ok.inj (h'.symm.trans h))
  refine Tree.eq_of_events ?_
  rw [← hc', he]
  exact List.append_cancel_right hev

theorem events_of_tally :
    (∀ x ∈ Grammar.tally.lexemes, x.token ≠ .eof) ∧
      ∃ p, compileItems true (Grammar.tally.lexemes.map .ok).toArray = .ok p ∧
        ∃ t : Tree, t.Parses (Grammar.tally.lexemes.map (·.token)) ∧
          (∀ u : Tree, u.Parses (Grammar.tally.lexemes.map (·.token)) → u = t) ∧
          p.events = t.events ++ [.consumed .eof] := by
  have hxs := Grammar.tally.token_ne_eof
  obtain ⟨r, hr⟩ := Option.isSome_iff_exists.mp (Grammar.tally.isSome_resolve.mpr Grammar.tally_static)
  have hp : compileItems true (Grammar.tally.lexemes.map .ok).toArray =
      .ok ⟨r.name, r.code, Grammar.tally.derivation ++ [.consumed .eof]⟩ :=
    (compileItems_eq_ok_iff hxs).mpr ⟨Grammar.tally, Grammar.tally.map_token_lexemes.symm, r, hr, rfl⟩
  exact ⟨hxs, _, hp, events_of_parse_tree hxs hp⟩

end Jack
