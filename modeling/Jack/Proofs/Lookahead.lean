import Jack.Proofs.Lexeme.Scan
import Jack.Proofs.Reading.Whole

namespace Jack

open Jack.Stream (handedOut)

variable {items : Array Item} {e : Error}

/-- The error finds fault with the item pulled last, which has not been consumed, or with the one before
it, the token of which has been consumed last. -/
def Error.Concerns (e : Error) (items : Array Item) : Prop :=
  match e.fault with
  | .unexpected _ found => handedOut items (pulled items - 1) = .ok ⟨found, e.location⟩
  | .unresolved _ | .redeclared _ | .outOfRange _ =>
    ∃ x, handedOut items (pulled items - 2) = .ok x ∧ (consumed items).getLast? = some x.token ∧
      e.location = x.location ∧ e.fault.Blames x.token
  | .lexical _ => False

theorem HaltsAt.last {v : Window} {s : Parse.Stop} (h : HaltsAt items e v s) (hv : v.last.token ≠ .eof) :
    ∃ k, (consumed items).length = k + 1 ∧ handedOut items k = .ok v.last ∧
      (consumed items).getLast? = some v.last.token := by
  have hat := h.place
  cases hk : (consumed items).length with
  | zero =>
    rw [hk] at hat
    exact absurd (congrArg Lexeme.token hat.shows.last_eq) hv
  | succ k =>
    rw [hk] at hat
    have ht : (consumed items)[k]? = some (consumed items)[k] := List.getElem?_eq_getElem (by omega)
    obtain ⟨x, hx, hxt⟩ := h.handed k _ ht
    cases hat.handedOut_last.symm.trans hx
    refine ⟨k, rfl, hx, ?_⟩
    rw [List.getLast?_eq_getElem?, hk, hxt]
    exact ht

theorem HaltsAt.concerns {v : Window} {s : Parse.Stop} (h : HaltsAt items e v s) :
    items[pulled items - 1]? = some (.error e) ∨
      pulled items = (consumed items).length + 1 ∧ e.Concerns items := by
  have hlast := h.last
  obtain ⟨hat, halt, rfl, hp, -, -⟩ := h
  have ha := hat.asked_eq
  cases halt with
  | stream hi => exact .inl (getElem?_pulled hat hi hp)
  | unexpected =>
    refine .inr ⟨hp.trans ha, ?_⟩
    rw [Error.Concerns, hp.trans ha]
    exact hat.handedOut_next
  | @rejected fault hf =>
    refine .inr ⟨hp.trans ha, ?_⟩
    obtain ⟨k, hk, hx, ht⟩ := hlast fun he => fault.not_blames_eof (he ▸ hf)
    have hx : handedOut items (pulled items - 2) = .ok v.last := by
      rw [hp.trans ha, hk]
      exact hx
    cases fault with
    | lexical | unexpected => exact hf.elim
    | unresolved | redeclared | outOfRange => exact ⟨v.last, hx, ht, rfl, hf⟩

theorem compileItems_of_pulled {i : Nat} (hi : i < pulled items) (he : items[i]? = some (.error e)) :
    pulled items = i + 1 ∧ compileItems true items = .error e := by
  have hne {v : Window} {k : Nat} (hat : v.At items k) : ¬ i ≤ k := by
    intro hle
    cases (Stream.handedOut_eq_error_iff.mpr he).symm.trans (hat.handedOut_eq hle)
  cases h : compileItems true items with
  | ok p =>
    obtain ⟨n, hn, hok, -⟩ := exists_of_ok h
    obtain ⟨x, hx⟩ := hok i (hn ▸ hi)
    cases (Stream.handedOut_eq_error_iff.mpr he).symm.trans hx
  | error e' =>
    obtain ⟨h₀, hp⟩ | ⟨v, s, hat, halt, hs, hp, -⟩ := exists_halt h
    · have hi : i = 0 := by omega
      subst hi
      cases h₀.symm.trans he
      exact ⟨hp, rfl⟩
    · have hk := hne hat
      have ha := hat.asked_eq
      cases halt with
      | stream hin =>
        have hp : pulled items = v.asked + 1 := hp
        have hik : i = (consumed items).length + 1 := by omega
        rw [hat.incoming_eq, ← hik] at hin
        cases (Stream.handedOut_eq_error_iff.mpr he).symm.trans hin
        exact ⟨by omega, congrArg _ hs.symm⟩
      | unexpected | rejected =>
        have hp : pulled items = v.asked := hp
        omega

theorem handedOut_lexemes {xs : List Lexeme} {n : Nat} (hn : n < xs.length) (more : List Item) :
    handedOut (xs.map Except.ok ++ more).toArray n = .ok xs[n] := by
  simp [handedOut, List.getElem?_append_left, hn]

theorem handedOut_behind_lexemes (xs : List Lexeme) (e : Error) (more : List Item) :
    handedOut (xs.map Except.ok ++ Except.error e :: more).toArray xs.length = .error e := by
  simp [Stream.handedOut_eq_error_iff]

theorem exists_lexemes_of_compile {recorded : Bool} {source : String} {p : Compiled}
    (h : compile recorded source = .ok p) :
    ∃ xs : List Lexeme, Lexeme.scan source = (xs.map .ok).toArray ∧ ∀ x ∈ xs, x.token ≠ .eof := by
  obtain ⟨n, -, hok, x, hx, heof⟩ := exists_of_ok h
  obtain ⟨xs, more, hs, hxs, hmore⟩ := Lexeme.exists_lexemes_scanFrom source.toList
  rw [Lexeme.scan, hs] at hok hx ⊢
  -- no lexeme of the text is the end of the file, so that the run has come behind all of them
  have hn : ¬ n < xs.length := fun hlt => by
    cases (handedOut_lexemes hlt more).symm.trans hx
    exact hxs _ (List.getElem_mem hlt) heof
  have hnil : more = [] := by
    cases more with
    | nil => rfl
    | cons i more =>
      obtain ⟨e, rfl⟩ := hmore i rfl
      obtain ⟨y, hy⟩ := hok xs.length (by omega)
      cases (handedOut_behind_lexemes xs e more).symm.trans hy
  exact ⟨xs, by rw [hnil, List.append_nil], hxs⟩

theorem forall_ok_of_compile {recorded : Bool} {source : String} {p : Compiled}
    (h : compile recorded source = .ok p) : ∀ i ∈ Lexeme.scan source, ∃ x, i = .ok x := by
  obtain ⟨xs, hs, -⟩ := exists_lexemes_of_compile h
  intro i hi
  obtain ⟨y, -, hy⟩ : ∃ y ∈ xs, Except.ok y = i := by simpa [hs] using hi
  exact ⟨y, hy.symm⟩

/-- An error is the same on every stream with the same items up to those that have been pulled. It is the
item pulled last, or else one item more has been pulled than tokens have been consumed, and the error is
about that item or the token before it. No error item is passed over, so that a text is compiled only if
there is none in it. -/
theorem errors_look_one_lexeme_ahead :
    (∀ recorded items e, compileItems recorded items = .error e →
      (∀ other, (∀ i < pulled items, handedOut other i = handedOut items i) →
        ∀ recorded', compileItems recorded' other = .error e ∧ pulled other = pulled items) ∧
      (items[pulled items - 1]? = some (.error e) ∨
        pulled items = (consumed items).length + 1 ∧ e.Concerns items)) ∧
    (∀ items i e, i < pulled items → items[i]? = some (.error e) →
      pulled items = i + 1 ∧ ∀ recorded, compileItems recorded items = .error e) ∧
    ∀ recorded source p, compile recorded source = .ok p → ∀ i ∈ Lexeme.scan source, ∃ x, i = .ok x := by
  refine ⟨fun recorded items e h => ⟨fun other ho recorded' => ?_, ?_⟩, fun items i e hi he => ?_,
    fun _ _ _ => forall_ok_of_compile⟩
  · obtain ⟨hc, hp⟩ := compileItems_of_agree ho recorded'
    rw [hc, hp, compileItems_eq_error_iff]
    exact ⟨compileItems_eq_error_iff.mp h, rfl⟩
  · obtain ⟨h₀, hp⟩ | ⟨v, s, hs⟩ := exists_halt h
    · rw [hp]
      exact .inl h₀
    · exact hs.concerns
  · obtain ⟨hp, hc⟩ := compileItems_of_pulled hi he
    exact ⟨hp, fun recorded => compileItems_eq_error_iff.mpr hc⟩

theorem nameless_looks_one_lexeme_ahead :
    let items : Array Item := #[.ok ⟨.keyword .class, ⟨1, 1⟩⟩, .ok ⟨.integer 5, ⟨1, 7⟩⟩]
    let e : Error := ⟨⟨1, 7⟩, .unexpected [.identifier] (.integer 5)⟩
    compileItems true items = .error e ∧ ∀ i, compileItems false (items.push i) = .error e := by
  have h := errors_look_one_lexeme_ahead.1 true
    #[.ok ⟨.keyword .class, ⟨1, 1⟩⟩, .ok ⟨.integer 5, ⟨1, 7⟩⟩]
    ⟨⟨1, 7⟩, .unexpected [.identifier] (.integer 5)⟩ rfl
  refine ⟨rfl, fun i => (h.1 _ ?_ false).1⟩
  have hp : pulled #[.ok ⟨.keyword .class, ⟨1, 1⟩⟩, .ok ⟨.integer 5, ⟨1, 7⟩⟩] = 2 := rfl
  rw [hp]
  intro j hj
  match j with
  | 0 => rfl
  | 1 => rfl

end Jack
