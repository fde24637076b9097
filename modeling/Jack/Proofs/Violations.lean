import Jack.Proofs.Grammar.Static
import Jack.Proofs.Lookahead
import Jack.Proofs.Rejection.Class

namespace Jack

open Jack.Stream (handedOut)
open Event (tokens)

namespace Scopes

variable {s t : Scopes} {es : List Entry}

theorem count_enterAll (h : s.enterAll es = some t) (k : VariableKind) :
    t.count k = s.count k + es.countP (·.kind = k) := by
  induction es generalizing s with
  | nil =>
    cases h
    rfl
  | cons e es ih =>
    rw [enterAll_cons, Option.bind_eq_some_iff] at h
    obtain ⟨u, hu, h⟩ := h
    obtain ⟨-, -, rfl⟩ := enter?_eq_some_iff.mp hu
    rw [ih h, count_insert, List.countP_cons, Nat.add_assoc, Nat.add_comm (es.countP _)]
    simp [@eq_comm _ k]

theorem declares_enterAll {k : VariableKind} (h : s.enterAll es = some t)
    (hes : ∀ e ∈ es, e.kind.extent = k.extent) (x : String) :
    t.declares k x = true ↔ x ∈ es.map (·.name) ∨ s.declares k x = true := by
  induction es generalizing s with
  | nil =>
    cases h
    simp
  | cons e es ih =>
    rw [enterAll_cons, Option.bind_eq_some_iff] at h
    obtain ⟨u, hu, h⟩ := h
    obtain ⟨-, -, rfl⟩ := enter?_eq_some_iff.mp hu
    rw [ih h fun f hf => hes f (List.mem_cons_of_mem _ hf), declares_insert, hes e List.mem_cons_self]
    simp only [decide_true, Bool.true_and, Bool.or_eq_true, beq_iff_eq, List.map_cons, List.mem_cons, or_assoc,
      or_left_comm, @eq_comm _ x]

theorem refused_cases {extent : Extent} {before : List Entry} {e : Entry} {fault : Fault} (hs : s.Fresh extent)
    (hes : ∀ f ∈ before ++ [e], f.kind.extent = extent) (h : s.enterAll before = some t)
    (hr : t.refusal? e.name e.kind = some fault) :
    e.name ∈ before.map (·.name) ∧ fault = .redeclared e.name ∨
      e.name ∉ before.map (·.name) ∧ before.countP (·.kind = e.kind) = maxSlots ∧
        fault = .outOfRange (.slotsUsedUp e.kind e.name) := by
  have he : e.kind.extent = extent := hes e (by simp)
  have hb (f : Entry) (hf : f ∈ before) : f.kind.extent = extent := hes f (by simp [hf])
  have hn : t.declares e.kind e.name = true ↔ e.name ∈ before.map (·.name) := by
    rw [declares_enterAll h fun f hf => (hb f hf).trans he.symm, hs.declares _ _ he]
    simp
  have hk := count_enterAll h e.kind
  have hroom := ((hs.isSome_enterAll_iff hb).mp (Option.isSome_of_mem h)).2 e.kind
  rw [hs.count _ he, Nat.zero_add] at hk
  unfold refusal? at hr
  split at hr
  next hdecl => exact .inl ⟨hn.mp hdecl, (Option.some.inj hr).symm⟩
  next hdecl =>
    split at hr
    next hfull =>
      exact .inr ⟨fun h => hdecl (hn.mpr h), Nat.le_antisymm hroom (hk ▸ hfull), (Option.some.inj hr).symm⟩
    next => cases hr

end Scopes

namespace Grammar

open Parse

/-- The names that stand for variables in a subroutine of the class. -/
def Class.visible (c : Class) (g : Subroutine) : List String :=
  (g.entries c.name ++ c.entries).map (·.name)

/-- The tokens end with the name of the entry `e`, in a declaration. Its scope holds the entries `before`. -/
inductive Declares (ts : List Token) (before : List Entry) (e : Entry) : Prop where
  | inClass (c : Class) (closing : List Token) (name : ts.getLast? = some (.identifier e.name))
      (tokens_eq : ts ++ closing = tokens (Class.opening c.name c.declarations))
      (symbols : ∀ t ∈ closing, ∃ s, t = .symbol s) (entries_eq : c.entries = before ++ [e])
  | inSubroutine (c : Class) (g : Subroutine) (closing : List Token) (name : ts.getLast? = some (.identifier e.name))
      (tokens_eq : ts ++ closing = tokens (c.unclosed ++ g.declaring))
      (symbols : ∀ t ∈ closing, ∃ s, t = .symbol s) (entries_eq : g.entries c.name = before ++ [e])

/-- What is wrong with the last of the tokens `ts`, where `next` is the one ahead. -/
inductive Violation (ts : List Token) (next : Token) : Fault → Prop where
  /-- The name stands as a term, or as the array in one, in a statement of the subroutine `g`. -/
  | unresolvedTerm (c : Class) (g : Subroutine) (front behind : List Event) {x : String}
      (derivation_eq : g.derivation = front ++ .enter .term :: .word x :: .leave .term :: behind)
      (tokens_eq : ts = tokens (c.unclosed ++ front) ++ [.identifier x])
      (alone : next ≠ .symbol .leftParen ∧ next ≠ .symbol .dot) (unknown : x ∉ c.visible g) :
      Violation ts next (.unresolved x)
  | unresolvedTarget (c : Class) (g : Subroutine) (front behind : List Event) {x : String}
      (derivation_eq : g.derivation = front ++ .enter .letStatement :: .keyword .let :: .word x :: behind)
      (tokens_eq : ts = tokens (c.unclosed ++ front) ++ [.keyword .let, .identifier x])
      (unknown : x ∉ c.visible g) : Violation ts next (.unresolved x)
  | redeclared {before : List Entry} {e : Entry} (declares : Declares ts before e)
      (taken : e.name ∈ before.map (·.name)) : Violation ts next (.redeclared e.name)
  | slotsUsedUp {before : List Entry} {e : Entry} (declares : Declares ts before e)
      (fresh : e.name ∉ before.map (·.name)) (full : before.countP (·.kind = e.kind) = maxSlots) :
      Violation ts next (.outOfRange (.slotsUsedUp e.kind e.name))
  | largeInteger {value : Nat} (last : ts.getLast? = some (.integer value)) (large : maxConstant < value) :
      Violation ts next (.outOfRange (.largeInteger value))
  | longString {text : String} (last : ts.getLast? = some (.string text)) (long : maxConstant < text.length) :
      Violation ts next (.outOfRange .longString)
  | foreignCharacter {text : String} {c : Char} (last : ts.getLast? = some (.string text))
      (mem : c ∈ text.toList) (foreign : 128 ≤ c.toNat) : Violation ts next (.outOfRange (.foreignCharacter c))

variable {c : Class} {g : Subroutine} {scopes t : Scopes} {es rest : List Event} {s : Stop}

theorem stringFault?_eq_some {text : String} {fault : RangeFault} (h : stringFault? text = some fault) :
    (fault = .longString ∧ maxConstant < text.length) ∨
      ∃ c ∈ text.toList, 128 ≤ c.toNat ∧ fault = .foreignCharacter c := by
  unfold stringFault? at h
  split at h
  next c hc =>
    have hf := List.find?_some hc
    exact .inr ⟨c, List.mem_of_find?_eq_some hc, by simpa using hf, (Option.some.inj h).symm⟩
  next =>
    split at h
    next hlong => exact .inl ⟨(Option.some.inj h).symm, hlong⟩
    next => cases h

theorem next_ne_of_alone {w : Window} (h : w.nextIsAmong [.symbol .leftParen, .symbol .dot] = false) :
    w.next.token ≠ .symbol .leftParen ∧ w.next.token ≠ .symbol .dot := by
  constructor <;>
  · intro hn
    rw [Window.nextIsAmong, hn] at h
    cases h

theorem not_mem_visible (hc : Scopes.empty.enterAll c.entries = some scopes)
    (hg : scopes.leaveSubroutine.enterAll (g.entries c.name) = some t) {x : String}
    (hx : t.resolve? x = none) : x ∉ c.visible g := by
  intro hm
  have hk : (Names.mk c.name t).Knows x := by
    rw [Subroutine.knows_iff hc hg]
    simpa only [Class.visible, List.map_append, List.mem_append] using hm
  rw [Names.Knows, hx] at hk
  cases hk

theorem Misfit.violation (hc : Scopes.empty.enterAll c.entries = some scopes)
    (hg : scopes.leaveSubroutine.enterAll (g.entries c.name) = some t) (hd : g.derivation = es ++ rest)
    (h : Misfit ⟨c.name, t⟩ es rest s) :
    Violation (tokens (c.unclosed ++ es)) s.window.next.token s.error.fault := by
  cases h with
  | integer front large he =>
    rw [he]
    exact .largeInteger (by simp) large
  | string front unfit he =>
    rw [he]
    obtain ⟨rfl, hlong⟩ | ⟨c, hm, hf, rfl⟩ := stringFault?_eq_some unfit
    · exact .longString (by simp) hlong
    · exact .foreignCharacter (by simp) hm hf
  | @term front behind _ x unknown alone he =>
    rw [he]
    exact .unresolvedTerm c g front behind (by simp [hd]) (by simp) (next_ne_of_alone alone)
      (not_mem_visible hc hg unknown)
  | target front unknown he =>
    rw [he]
    exact .unresolvedTarget c g front rest (by simp [hd]) (by simp) (not_mem_visible hc hg unknown)

theorem Refused.violation {entries : List Entry} {extent : Extent} (h : Refused scopes es rest entries s)
    (hs : scopes.Fresh extent) (hes : ∀ e ∈ entries, e.kind.extent = extent) :
    ∃ before e, entries = before ++ [e] ∧ (tokens es).getLast? = some (.identifier e.name) ∧ Closing rest ∧
      ∀ {ts next}, Declares ts before e → Violation ts next s.error.fault := by
  obtain ⟨front, before, e, closing, entered, refused⟩ := h
  refine ⟨before, e, rfl, by simp, closing, fun hd => ?_⟩
  obtain ⟨htaken, hf⟩ | ⟨hfresh, hfull, hf⟩ := Scopes.refused_cases hs hes entered refused
  · exact hf ▸ .redeclared hd htaken
  · exact hf ▸ .slotsUsedUp hd hfresh hfull

theorem ClassFlaw.violation (h : ClassFlaw es s) :
    Violation (tokens es) s.window.next.token s.error.fault := by
  obtain ⟨c, rest, hd, hr⟩ | ⟨c, scopes, fs, rfl, hc, ⟨g, rest, hd, hr⟩ | ⟨g, rest, t, hd, ht, hm⟩⟩ := h
  · obtain ⟨before, e, he, hname, hrest, hv⟩ := hr.violation Scopes.fresh_empty fun _ => c.extent_of_mem_entries
    exact hv (.inClass c (tokens rest) hname (by rw [← Event.tokens_append, ← hd]) hrest he)
  · obtain ⟨before, e, he, hname, hrest, hv⟩ :=
      hr.violation (Scopes.fresh_leaveSubroutine scopes) fun _ => g.extent_of_mem_entries
    refine hv (.inSubroutine c g (tokens rest) ?_ ?_ hrest he)
    · simp [hname]
    · rw [hd]
      simp
  · exact hm.violation hc ht hd

end Grammar

open Grammar (Violation)
open Parse (Stop)

variable {items : Array Item} {e : Error} {recorded : Bool}

/-- What the parser finds fault with where a token that has been consumed makes it stop. -/
theorem Parse.exists_flaw {w : Window} {s : Stop} (h : parse w = .error s) (hs : s.Rejects) :
    ∃ es, w.follow es = some s.window ∧ Grammar.ClassFlaw es s := by
  unfold parse at h
  cases hc : classDec w with
  | error s' =>
    rw [hc] at h
    cases h
    exact Grammar.classDec_rejects s hc hs
  | ok p =>
    rw [hc] at h
    dsimp only [bind, Except.bind] at h
    split at h
    next => cases h
    next e v hv =>
      cases h
      exact (accept_eq_error hv hs).elim

theorem consumed_of_follow {w : Window} {s : Stop} {es : List Event} (hw : Window.ofItems items = .ok w)
    (hs : parse w.startRecord = .error s) (hf : w.startRecord.follow es = some s.window) :
    consumed items = tokens es := by
  rw [consumed, hw]
  simp only [hs]
  rw [Window.events, Window.record_of_follow hf]
  simp [Window.startRecord, record_ofItems hw]

theorem exists_violation (h : compileItems recorded items = .error e)
    (hs : items[pulled items - 1]? ≠ some (.error e))
    (hu : ∀ expected found, e.fault ≠ .unexpected expected found) :
    ∃ next, handedOut items (consumed items).length = .ok next ∧
      Violation (consumed items) next.token e.fault := by
  rw [compileItems_eq_error_iff] at h
  cases hw : Window.ofItems items with
  | error e' =>
    rw [compileItems_of_error hw] at h
    cases h
    rw [pulled_of_error hw] at hs
    exact (hs (Window.ofItems_eq_error_iff.mp hw)).elim
  | ok w =>
    obtain ⟨s, hp, rfl, hasked⟩ := exists_stop hw h
    have harr := parse_arrives w.startRecord
    rw [hp] at harr
    cases harr with
    | @error fs v _ hf _ halt =>
      have hat := (at_start hw true).follow hf
      cases halt with
      | stream hi => exact (hs (getElem?_pulled hat hi hasked)).elim
      | unexpected => exact (hu _ _ rfl).elim
      | rejected hb =>
        have hnext : ∀ e', v.items[v.asked - 1]? ≠ some (.error e') := by
          intro e' he'
          rw [hat.shows.items_eq, hat.asked_eq, ← Stream.handedOut_eq_error_iff] at he'
          cases hat.handedOut_next.symm.trans he'
        obtain ⟨es, hes, hflaw⟩ := Parse.exists_flaw hp ⟨hu, hnext⟩
        have hc := consumed_of_follow hw hp hes
        have hat := (at_start hw true).follow hes
        rw [Nat.zero_add, ← hc] at hat
        exact ⟨v.next, hat.handedOut_next, hc ▸ hflaw.violation⟩

/-- An error that has not come with the stream is a syntax error, or it is at the place of the token consumed
last and tells what is wrong with it: a constant that the machine has no room for, a name that stands for no
variable, or the name of a declaration that is taken in its scope or has no slot left there. -/
theorem semantic_errors_name_violations (h : compileItems recorded items = .error e) :
    items[pulled items - 1]? = some (.error e) ∨
      (∃ expected found, e.fault = .unexpected expected found) ∨
      ∃ ts x next, consumed items = ts ++ [x.token] ∧ handedOut items ts.length = .ok x ∧
        handedOut items (ts.length + 1) = .ok next ∧ e.location = x.location ∧
        Violation (consumed items) next.token e.fault := by
  by_cases hs : items[pulled items - 1]? = some (.error e)
  · exact .inl hs
  by_cases hu : ∃ expected found, e.fault = .unexpected expected found
  · exact .inr (.inl hu)
  have hu : ∀ expected found, e.fault ≠ .unexpected expected found := fun expected found he => hu ⟨_, _, he⟩
  obtain ⟨next, hnext, hv⟩ := exists_violation h hs hu
  obtain ⟨h₀, hp⟩ | ⟨v, s, hat⟩ := exists_halt h
  · rw [hp] at hs
    exact (hs h₀).elim
  have hlast := hat.last
  obtain ⟨hplace, halt, rfl, hp, -, -⟩ := hat
  cases halt with
  | stream hi => exact (hs (getElem?_pulled hplace hi hp)).elim
  | unexpected => exact (hu _ _ rfl).elim
  | @rejected fault hb =>
    obtain ⟨k, hk, hx, ht⟩ := hlast fun he => fault.not_blames_eof (he ▸ hb)
    obtain ⟨ts, hts⟩ := List.getLast?_eq_some_iff.mp ht
    have hkts : k = ts.length := by
      rw [hts, List.length_append, List.length_singleton] at hk
      omega
    subst hkts
    exact .inr (.inr ⟨ts, v.last, next, hts, hx, hk ▸ hnext, rfl, hv⟩)

theorem redeclared_names_violation :
    let items : Array Item :=
      #[.ok ⟨.keyword .class, ⟨1, 1⟩⟩, .ok ⟨.identifier "A", ⟨1, 7⟩⟩, .ok ⟨.symbol .leftBrace, ⟨1, 9⟩⟩,
        .ok ⟨.keyword .static, ⟨1, 11⟩⟩, .ok ⟨.keyword .int, ⟨1, 18⟩⟩, .ok ⟨.identifier "a", ⟨1, 22⟩⟩,
        .ok ⟨.symbol .comma, ⟨1, 23⟩⟩, .ok ⟨.identifier "a", ⟨1, 25⟩⟩]
    compileItems false items = .error ⟨⟨1, 25⟩, .redeclared "a"⟩ ∧
      Violation (consumed items) .eof (.redeclared "a") := by
  intro items
  have herr : compileItems false items = .error ⟨⟨1, 25⟩, .redeclared "a"⟩ := by cbv
  have hp : pulled items = 9 := by cbv
  have hc : consumed items = [.keyword .class, .identifier "A", .symbol .leftBrace, .keyword .static, .keyword .int,
    .identifier "a", .symbol .comma, .identifier "a"] := by cbv
  refine ⟨herr, ?_⟩
  obtain h | ⟨_, _, h⟩ | ⟨ts, x, next, hts, -, hnext, -, hv⟩ := semantic_errors_name_violations herr
  · rw [hp] at h
    cases h
  · cases h
  · have hl : ts.length = 7 := by
      have := congrArg List.length (hc.symm.trans hts)
      simpa using this.symm
    rw [hl] at hnext
    cases hnext
    exact hv

end Jack
