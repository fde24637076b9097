import Jack.Proofs.Acceptance
import Jack.Proofs.Expected
import Jack.Proofs.Markup.Reader
import Jack.Proofs.Reading.Fuel
import Jack.Proofs.Reading.Guarded

namespace Jack

open Event (tokens entered Spaced)
open Jack.Stream (Tells)
open Parse

def eventsOf : Except Stop (Class × Window) → List Event
  | .ok (_, v) => v.events
  | .error s => s.window.events

/-- The events of a run over the stream. -/
def recordOf (items : Array Item) : List Event :=
  match Window.ofItems items with
  | .error _ => []
  | .ok w => eventsOf (parse w.startRecord)

def Event.entries : List Event → Nat
  | [] => 0
  | .enter _ :: es => entries es + 1
  | .leave _ :: es | .consumed _ :: es => entries es

/-- An item of a repetition is not read without a token that is consumed. -/
def Parse.Advances {α : Type} (p : (w : Window) → Attempt (Parsed w.remaining α)) : Prop :=
  ∀ w a v, Yields (p w) a v → ∃ es, w.follow es = some v ∧ tokens es ≠ []

section Repetitions

variable {α : Type} {w v : Window} {es : List Event}

theorem Window.remaining_of_follow (h : w.follow es = some v) (he : tokens es = []) :
    v.remaining = w.remaining := by
  induction es generalizing w with
  | nil =>
    cases h
    rfl
  | cons e es ih =>
    obtain ⟨u, hu, hv⟩ := Window.follow_cons_iff.mp h
    cases e with
    | enter r | leave r =>
      cases hu
      have hr := ih hv he
      exact hr
    | consumed t => cases he

theorem Parse.Advances.of {p : (w : Window) → Attempt (Parsed w.remaining α)}
    (h : ∀ w a v, Yields (p w) a v → ∃ es, w.follow es = some v) : Advances p := by
  intro w a v hv
  obtain ⟨es, hes⟩ := h w a v hv
  exact ⟨es, hes, fun he => Nat.lt_irrefl _ (Window.remaining_of_follow hes he ▸ hv.bound)⟩

open Grammar

theorem advances_nextName (kind : VariableKind) (type : DataType) (scopes : Scopes) :
    Advances (nextName kind type scopes) :=
  .of fun _ _ _ h => ⟨_, (yields_nextName.mp h).1⟩

theorem advances_classVarDec (scopes : Scopes) : Advances (Parse.classVarDec scopes) := by
  refine .of fun w d v h => ?_
  obtain ⟨g, -, hw, -⟩ := yields_classVarDec.mp h
  exact ⟨_, hw⟩

theorem advances_varDec (scopes : Scopes) : Advances (Parse.varDec scopes) := by
  refine .of fun w d v h => ?_
  obtain ⟨g, -, hw, -⟩ := yields_varDec.mp h
  exact ⟨_, hw⟩

theorem advances_nextParameter (scopes : Scopes) : Advances (nextParameter scopes) :=
  .of fun _ _ _ h => ⟨_, (yields_nextParameter.mp h).1⟩

theorem advances_subroutine (className : String) (scopes : Scopes) :
    Advances (Parse.subroutine className scopes) := by
  refine .of fun w r v h => ?_
  obtain ⟨g, hw, -⟩ := yields_subroutine.mp h
  exact ⟨_, hw⟩

theorem advances_statement (names : Names) : Advances (Parse.statement names) := by
  refine .of fun w r v h => ?_
  obtain ⟨s, hw, -⟩ := statement_sound h
  exact ⟨_, hw⟩

theorem advances_operation (names : Names) : Advances (operation names) := by
  refine .of fun w p v h => ?_
  obtain ⟨s, hw, -⟩ := operation_sound (fun _ _ _ _ => term_sound) h
  exact ⟨_, hw⟩

theorem advances_nextExpression (names : Names) : Advances (nextExpression names) := by
  refine .of fun w e v h => ?_
  unfold nextExpression at h
  simp only [yields_bind, yields_symbol, yields_pure] at h
  obtain ⟨_, u, hu, e', _, he, -, rfl⟩ := h
  obtain ⟨s, hs, -⟩ := expression_sound he
  exact ⟨_, Window.follow_cons_of hu hs⟩

end Repetitions

section Entries

variable {es : List Event}

theorem Rule.mem_all (r : Rule) : r ∈ Rule.all := by
  cases r <;> decide

theorem Event.Spaced.nodup_entered (h : Spaced es) : (entered es).Nodup := by
  induction es with
  | nil => exact List.nodup_nil
  | cons e es ih =>
    cases e with
    | enter r => exact List.nodup_cons.mpr ⟨h.1, ih h.2⟩
    | leave r => exact ih h
    | consumed t => exact List.nodup_nil

theorem Event.Spaced.length_entered_le (h : Spaced es) : (entered es).length ≤ Rule.all.length :=
  (List.subperm_of_subset h.nodup_entered fun r _ => r.mem_all).length_le

theorem Event.Spaced.entries_le (h : Spaced es) :
    entries es ≤ Rule.all.length * (tokens es).length + (entered es).length := by
  induction es with
  | nil => exact Nat.zero_le _
  | cons e es ih =>
    cases e with
    | enter r =>
      have hle := ih h.2
      simp only [entries, entered, tokens_enter, List.length_cons]
      omega
    | leave r => exact ih h
    | consumed t =>
      have hle := ih h
      have hlen : (entered es).length ≤ Rule.all.length := Spaced.length_entered_le h
      simp only [entries, entered, tokens_consumed, List.length_cons, Nat.mul_succ, List.length_nil]
      omega

theorem Event.entries_append (es fs : List Event) : entries (es ++ fs) = entries es + entries fs := by
  induction es with
  | nil => exact (Nat.zero_add _).symm
  | cons e es ih =>
    cases e with
    | enter r => simp only [List.cons_append, entries, ih, Nat.add_right_comm]
    | leave r | consumed t => exact ih

theorem Event.entries_reverse (es : List Event) : entries es.reverse = entries es := by
  induction es with
  | nil => rfl
  | cons e es ih =>
    rw [List.reverse_cons, entries_append, ih]
    cases e <;> rfl

theorem Event.tokens_reverse (es : List Event) : tokens es.reverse = (tokens es).reverse :=
  List.filterMap_reverse

end Entries

section Runs

variable {items : Array Item} {w : Window} {build : Build} {recorded : Bool} {fuel fuel' : Nat}

theorem remaining_ofItems (h : Window.ofItems items = .ok w) : w.remaining ≤ items.size := by
  obtain ⟨x, hx, rfl⟩ := Window.ofItems_eq_ok_iff.mp h
  by_cases hs : items.size = 0
  · have ht : x.token = .eof := by
      rw [Stream.handedOut_of_le (Nat.le_of_eq hs)] at hx
      exact congrArg Lexeme.token (Except.ok.inj hx).symm
    simp [Window.remaining, ht]
  · have hone : (if x.token = .eof then 0 else 1) ≤ 1 := by split <;> decide
    simp only [Window.remaining]
    omega

theorem holds_start (h : Window.ofItems items = .ok w) (recorded : Bool) (hf : items.size < fuel) :
    Pace.Holds ⟨fuel, []⟩ (if recorded then w.startRecord else w) := by
  have ht : (if recorded then w.startRecord else w).trail = [] := by
    cases recorded <;> simp [Window.trail, Window.startRecord, record_ofItems h]
  refine ⟨?_, by simp [ht, entered], by simp [ht, Spaced]⟩
  have hr := remaining_ofItems h
  cases recorded <;> exact Nat.lt_of_le_of_lt hr hf

theorem Parse.Pace.After.spaced {q : Pace} {y : Except Stop (Class × Window)} (h : q.After y) :
    Spaced (eventsOf y).reverse := by
  have hr (w : Window) : w.events.reverse = w.trail := List.reverse_reverse _
  cases y with
  | error s => exact hr s.window ▸ h
  | ok y => exact hr y.2 ▸ Holds.spaced h

theorem spaced_recordOf (items : Array Item) : Spaced (recordOf items).reverse := by
  unfold recordOf
  cases hw : Window.ofItems items with
  | error e => trivial
  | ok w => exact ((runs_parse (Nat.le_succ _)).after (holds_start hw true (Nat.lt_succ_self _))).spaced

theorem tokens_recordOf (items : Array Item) : tokens (recordOf items) = consumed items := by
  unfold recordOf consumed
  cases Window.ofItems items with
  | error e => rfl
  | ok w =>
    dsimp only
    cases parse w.startRecord <;> rfl

theorem exists_of_map_eq_ok {ε α β : Type} {f : α → β} {x : Except ε α} {b : β} (h : x.map f = .ok b) :
    ∃ a, x = .ok a ∧ f a = b := by
  cases x with
  | error e => cases h
  | ok a => exact ⟨a, rfl, Except.ok.inj h⟩

theorem recordOf_of_parse {es : List Event} (hw : Window.ofItems items = .ok w)
    (hs : Except.map eventsOf (Fueled.parse .wrapping fuel w.startRecord) = .ok es) : recordOf items = es := by
  obtain ⟨q, hq, rfl⟩ := exists_of_map_eq_ok hs
  rw [recordOf, hw]
  exact congrArg eventsOf ((runs_parse (Nat.le_refl fuel)).sound hq)

theorem compileWithin_of_error {e : Error} (h : Window.ofItems items = .error e) :
    compileWithin build fuel recorded items = .ok (.error e) := by
  rw [compileWithin, h]

theorem compileWithin_of_ok (h : Window.ofItems items = .ok w) :
    compileWithin build fuel recorded items =
      Except.map compiledOf (Fueled.parse build fuel (if recorded then w.startRecord else w)) := by
  rw [compileWithin, h]

theorem compileItems_of_compileWithin {y : Except Error Compiled}
    (h : compileWithin .wrapping fuel recorded items = .ok y) : compileItems recorded items = y := by
  cases hw : Window.ofItems items with
  | error e =>
    rw [compileWithin_of_error hw] at h
    rw [compileItems_of_error hw]
    exact Except.ok.inj h
  | ok w =>
    rw [compileWithin_of_ok hw] at h
    obtain ⟨q, hq, rfl⟩ := exists_of_map_eq_ok h
    rw [compileItems_of_ok hw, (runs_parse (Nat.le_refl fuel)).sound hq]

theorem compileWithin_wrapping (hf : items.size < fuel) :
    compileWithin .wrapping fuel recorded items = .ok (compileItems recorded items) := by
  cases hw : Window.ofItems items with
  | error e => rw [compileWithin_of_error hw, compileItems_of_error hw]
  | ok w =>
    obtain ⟨q, hq⟩ := (runs_parse (Nat.le_refl fuel)).ends (holds_start hw recorded hf)
    rw [compileWithin_of_ok hw, compileItems_of_ok hw, (runs_parse (Nat.le_refl fuel)).sound hq, hq, Except.map]

theorem compileWithin_le (hf : fuel ≤ fuel') :
    compileWithin build fuel recorded items = .error .spent ∨
      compileWithin build fuel recorded items = compileWithin build fuel' recorded items := by
  cases hw : Window.ofItems items with
  | error e => exact .inr (by rw [compileWithin_of_error hw, compileWithin_of_error hw])
  | ok w =>
    rw [compileWithin_of_ok hw, compileWithin_of_ok hw]
    have hbelow : Below (Fueled.parse build fuel) (Fueled.parse build fuel') := below_parse hf
    obtain h | h := hbelow (if recorded then w.startRecord else w)
    · exact .inl (by rw [h, Except.map])
    · exact .inr (by rw [h])

theorem compileWithin_checked (fuel : Nat) :
    (compileWithin .checked fuel recorded items = .error .overflow ∧ 65535 ≤ fuel) ∨
      compileWithin .checked fuel recorded items = compileWithin .wrapping fuel recorded items := by
  cases hw : Window.ofItems items with
  | error e => exact .inr (by rw [compileWithin_of_error hw, compileWithin_of_error hw])
  | ok w =>
    rw [compileWithin_of_ok hw, compileWithin_of_ok hw]
    obtain h | h := (guards_parse (n := fuel)).agrees (if recorded then w.startRecord else w)
    · exact .inl ⟨by rw [h.1, Except.map], h.2⟩
    · exact .inr (by rw [h])

theorem checked_ends (hf : items.size < fuel) :
    compileWithin .checked fuel recorded items = .ok (compileItems recorded items) ∨
      (compileWithin .checked fuel recorded items = .error .overflow ∧ 65535 ≤ fuel) := by
  rw [← compileWithin_wrapping hf]
  exact (compileWithin_checked fuel).symm

theorem checked_eq (hf : items.size < fuel) (hf' : items.size < fuel') :
    compileWithin .checked fuel recorded items = compileWithin .checked fuel' recorded items := by
  -- both are what the smaller of the two makes
  have hmin {k : Nat} (hk : min fuel fuel' ≤ k) :
      compileWithin .checked (min fuel fuel') recorded items = compileWithin .checked k recorded items := by
    refine (compileWithin_le hk).resolve_left fun hs => ?_
    obtain h | ⟨h, -⟩ := checked_ends (lt_min hf hf')
    all_goals
      rw [h] at hs
      cases hs
  exact (hmin (min_le_left _ _)).symm.trans (hmin (min_le_right _ _))

/-- Fuel for a few items does not last for as many arguments as are needed to give up. -/
theorem checked_returns (hf : items.size < fuel) :
    compileWithin .checked fuel recorded items = .ok (compileItems recorded items) ∨
      (compileWithin .checked fuel recorded items = .error .overflow ∧ 65534 ≤ items.size) := by
  rw [checked_eq hf (Nat.lt_succ_self _)]
  exact (checked_ends (Nat.lt_succ_self _)).imp_right fun h => ⟨h.1, Nat.le_of_succ_le_succ h.2⟩

/-- Where the grammar derives what is read, a checked build gives up just if a call has too many arguments. -/
theorem overflow_iff {c : Grammar.Class} {r : Class} (hc : Tells items (c.tokens ++ [.eof]))
    (hr : c.resolve = some r) (hf : items.size < fuel) :
    compileWithin .checked fuel recorded items = .error .overflow ↔ ¬ Fit r.arities := by
  obtain ⟨w, v, hw, -, hp⟩ := parse_of_tells hc hr recorded
  obtain ⟨q, hq⟩ := (runs_parse (Nat.le_refl fuel)).ends (holds_start hw recorded hf)
  obtain rfl := hp.symm.trans ((runs_parse (Nat.le_refl fuel)).sound hq)
  rw [guards_parse.exact hq, true_and, not_not, compileWithin_of_ok hw]
  cases Fueled.parse .checked fuel (if recorded then w.startRecord else w) with
  | error reason =>
    exact ⟨fun h => congrArg Except.error (Except.error.inj h), fun h => congrArg Except.error (Except.error.inj h)⟩
  | ok q => exact iff_of_false nofun nofun

/-- A few items cannot write out too many arguments. -/
theorem fit_of_tells {c : Grammar.Class} {r : Class} (hc : Tells items (c.tokens ++ [.eof]))
    (hr : c.resolve = some r) (hs : items.size < 65534) : Fit r.arities := by
  by_contra hfit
  have hover : compileWithin .checked (items.size + 1) false items = .error .overflow :=
    (overflow_iff hc hr (Nat.lt_succ_self _)).mpr hfit
  obtain h | ⟨-, h⟩ : _ = Except.ok (compileItems false items) ∨ _ := checked_returns (Nat.lt_succ_self items.size)
  · cases hover.symm.trans h
  · exact Nat.not_le.mpr hs h

theorem pulled_of_compileItems {p : Compiled} (h : compileItems true items = .ok p) :
    consumed items = tokens p.events ∧ pulled items = (consumed items).length + 1 := by
  cases hw : Window.ofItems items with
  | error e =>
    rw [compileItems_of_error hw] at h
    cases h
  | ok w =>
    have harr := parse_arrives w.startRecord
    rw [compileItems_of_ok hw, if_pos rfl] at h
    cases hp : parse w.startRecord with
    | error s =>
      rw [hp] at h
      cases h
    | ok q =>
      rw [hp] at h harr
      cases harr with
      | @ok es c v hf =>
        have hv : v.events = if true then es else [] := Window.events_of_follow (record_ofItems hw) hf
        rw [if_pos rfl] at hv
        have hes : p.events = es := hv ▸ (congrArg Compiled.events (Except.ok.inj h)).symm
        have hc : consumed items = tokens es := by simp [consumed, hw, hp, hv]
        have ha := ((at_start hw true).follow hf).asked_eq
        rw [pulled_of_ok hw, hp, hc, hes]
        exact ⟨rfl, ha.trans (by rw [Nat.zero_add])⟩

theorem length_consumed_le {p : Compiled} (h : compileItems true items = .ok p) :
    (consumed items).length ≤ items.size + 1 := by
  obtain ⟨c, hc, r, -, rfl⟩ := compileItems_eq_ok_iff_tells.mp h
  have hle : c.tokens.length ≤ items.size := by
    refine Stream.length_le_size (fun i t hi => hc.token ?_) c.eof_not_mem
    rw [List.getElem?_append_left (List.getElem?_eq_some_iff.mp hi).1, hi]
  rw [(pulled_of_compileItems h).1]
  simpa [Grammar.Class.tokens] using hle

/-- How many items are pulled for so many tokens: one that is ahead, and one more if that is an error. -/
theorem pulled_le (items : Array Item) :
    (consumed items).length < pulled items ∧ pulled items ≤ items.size + 2 := by
  cases h : compileItems true items with
  | ok p =>
    have hp := (pulled_of_compileItems h).2
    have hle := length_consumed_le h
    omega
  | error e =>
    obtain ⟨h₀, hp⟩ | ⟨v, s, hs⟩ := exists_halt h
    · have hc : consumed items = [] := by
        rw [consumed, Window.ofItems_eq_error_iff.mpr h₀]
      simp [hc, hp]
    · have hle := hs.le_size
      have ha := hs.place.asked_eq
      have hp := hs.pulled_eq
      cases hs.halt with
      | stream =>
        have hv : pulled items = v.asked + 1 := hp
        omega
      | unexpected | rejected =>
        have hv : pulled items = v.asked := hp
        omega

end Runs

/-- Whatever a stream holds, a run over it comes to an end. Behind the items it pulls the end of the file and
what follows on that at most, and it consumes fewer tokens than it pulls items. No item of a repetition is read
and no rule is entered once more without a token in between, so that for each token there are no more entries
than there are rules. More fuel than items never runs out, and however much there is, the result is the same.
A checked build returns it as well or gives up, for which it needs 65534 items at least. On what the grammar
derives it gives up if and only if a call has more arguments than 16 bits can count. -/
theorem parsing_makes_progress (recorded : Bool) (items : Array Item) :
    ((consumed items).length < pulled items ∧ pulled items ≤ items.size + 2) ∧
    ((∀ scopes, Advances (classVarDec scopes)) ∧
      (∀ className scopes, Advances (subroutine className scopes)) ∧
      (∀ kind type scopes, Advances (nextName kind type scopes)) ∧
      (∀ scopes, Advances (nextParameter scopes)) ∧
      (∀ scopes, Advances (varDec scopes)) ∧
      ∀ names, Advances (statement names) ∧ Advances (operation names) ∧ Advances (nextExpression names)) ∧
    (tokens (recordOf items) = consumed items ∧
      Event.entries (recordOf items) ≤ Rule.all.length * ((consumed items).length + 1) ∧
      ∀ r front between behind, recordOf items = front ++ .enter r :: (between ++ .enter r :: behind) →
        tokens between ≠ []) ∧
    (∀ fuel,
      (items.size < fuel → compileWithin .wrapping fuel recorded items = .ok (compileItems recorded items)) ∧
      ∀ y, compileWithin .wrapping fuel recorded items = .ok y → compileItems recorded items = y) ∧
    ∀ fuel, items.size < fuel →
      (compileWithin .checked fuel recorded items = .ok (compileItems recorded items) ∨
        (compileWithin .checked fuel recorded items = .error .overflow ∧ 65534 ≤ items.size)) ∧
      (∀ fuel', items.size < fuel' →
        compileWithin .checked fuel recorded items = compileWithin .checked fuel' recorded items) ∧
      ∀ (c : Grammar.Class) r, Tells items (c.tokens ++ [.eof]) → c.resolve = some r →
        (compileWithin .checked fuel recorded items = .error .overflow ↔ ¬ Fit r.arities) := by
  refine ⟨pulled_le items, ⟨advances_classVarDec, advances_subroutine, advances_nextName, advances_nextParameter,
    advances_varDec, fun names => ⟨advances_statement names, advances_operation names,
      advances_nextExpression names⟩⟩, ⟨tokens_recordOf items, ?_, ?_⟩,
    fun fuel => ⟨compileWithin_wrapping, fun y => compileItems_of_compileWithin⟩,
    fun fuel hf => ⟨checked_returns hf, fun fuel' hf' => checked_eq hf hf', fun c r hc hr =>
      overflow_iff hc hr hf⟩⟩
  · have hs := spaced_recordOf items
    have hle := hs.entries_le
    have hlen := hs.length_entered_le
    rw [Event.entries_reverse, Event.tokens_reverse, List.length_reverse, tokens_recordOf] at hle
    rw [Nat.mul_succ]
    omega
  · intro r front between behind h
    have hs : Spaced (behind.reverse ++ .enter r :: (between.reverse ++ .enter r :: front.reverse)) := by
      simpa [h] using spaced_recordOf items
    have hne := hs.tokens_ne_nil
    rwa [Event.tokens_reverse, ne_eq, List.reverse_eq_nil_iff] at hne

/-- `class A { function int f() { return - -`: the file ends where a term is looked for. -/
def cutOff : Array Item :=
  #[.ok ⟨.keyword .class, ⟨1, 1⟩⟩, .ok ⟨.identifier "A", ⟨1, 7⟩⟩, .ok ⟨.symbol .leftBrace, ⟨1, 9⟩⟩,
    .ok ⟨.keyword .function, ⟨2, 3⟩⟩, .ok ⟨.keyword .int, ⟨2, 12⟩⟩, .ok ⟨.identifier "f", ⟨2, 16⟩⟩,
    .ok ⟨.symbol .leftParen, ⟨2, 17⟩⟩, .ok ⟨.symbol .rightParen, ⟨2, 18⟩⟩, .ok ⟨.symbol .leftBrace, ⟨2, 20⟩⟩,
    .ok ⟨.keyword .return, ⟨3, 5⟩⟩, .ok ⟨.symbol .minus, ⟨3, 12⟩⟩, .ok ⟨.symbol .minus, ⟨3, 14⟩⟩]

def cutOffFront : List Event :=
  [.enter .class, .keyword .class, .word "A", .symbol .leftBrace, .enter .subroutineDec, .keyword .function,
    .keyword .int, .word "f", .symbol .leftParen, .enter .parameterList, .leave .parameterList,
    .symbol .rightParen, .enter .subroutineBody, .symbol .leftBrace, .enter .statements, .enter .returnStatement,
    .keyword .return, .enter .expression]

theorem recordOf_cutOff : recordOf cutOff =
    cutOffFront ++ .enter .term :: ([.symbol .minus] ++ .enter .term :: [.symbol .minus, .enter .term]) := by
  let w : Window := ⟨cutOff, 1, ⟨.eof, .origin⟩, ⟨.keyword .class, ⟨1, 1⟩⟩, none⟩
  have hw : Window.ofItems cutOff = .ok w := rfl
  have hs : Except.map eventsOf (Fueled.parse .wrapping 13 w.startRecord) = .ok (cutOffFront ++
      [.enter .term, .symbol .minus, .enter .term, .symbol .minus, .enter .term]) := by
    decide +kernel
  exact recordOf_of_parse hw hs

namespace Grammar

/-- `class A { function void f() { do g(1, …, 1); return; } }`, with `n` arguments. -/
def crowd (n : Nat) : Class :=
  ⟨"A", [], [⟨.function, .void, "f", [], [],
    [.do (.plain "g") (List.replicate n (.chain (.integer 1) [])), .return none]⟩]⟩

def crowdTree (n : Nat) : Jack.Class :=
  ⟨"A", [], [⟨.function, .void, "f", [], [],
    [.do (.own "A" "g") (List.replicate n (.chain (.integer 1) [])), .return none]⟩]⟩

theorem resolve_crowd (n : Nat) : (crowd n).resolve = some (crowdTree n) := by
  have hall (names : Names) : Expression.resolveAll names (List.replicate n (.chain (.integer 1) [])) =
      some (List.replicate n (.chain (.integer 1) [])) := by
    induction n with
    | zero => rfl
    | succ n ih =>
      rw [List.replicate_succ, List.replicate_succ, Expression.resolveAll, ih]
      rfl
  simp [crowd, crowdTree, Class.resolve, Class.entries, Subroutine.resolve, Subroutine.entries, receiverEntry,
    Statement.resolveAll, Statement.resolve, Called.resolve, hall]

theorem fit_crowdTree (n : Nat) : Fit (crowdTree n).arities ↔ n + 1 < 65536 := by
  have hall : Fit (Expression.aritiesAll (List.replicate n (.chain (.integer 1) []))) := by
    refine Expression.fit_all.mpr fun e he => ?_
    rw [List.eq_of_mem_replicate he]
    simp [Expression.arities, Expression.aritiesRest, Term.arities]
  simp [crowdTree, Class.arities, Subroutine.arities, Statement.aritiesAll, Statement.arities, Term.arities,
    Callee.arity, hall]

end Grammar

def crowded (n : Nat) : Array Item :=
  ((Grammar.crowd n).lexemes.map .ok).toArray

theorem tells_crowded (n : Nat) : Tells (crowded n) ((Grammar.crowd n).tokens ++ [.eof]) :=
  (Grammar.crowd n).tells_lexemes

theorem overflow_crowded {n : Nat} (hn : 65535 ≤ n) :
    compileWithin .checked ((crowded n).size + 1) false (crowded n) = .error .overflow := by
  rw [overflow_iff (tells_crowded n) (Grammar.resolve_crowd n) (Nat.lt_succ_self _), Grammar.fit_crowdTree]
  omega

/-- The fuel is enough, and between two terms a sign has been consumed. A few arguments are counted, and one
too many is not. -/
theorem cutOff_makes_progress :
    compileWithin .wrapping 13 false cutOff = .ok (compileItems false cutOff) ∧
    (∃ front between behind,
      recordOf cutOff = front ++ .enter .term :: (between ++ .enter .term :: behind) ∧ tokens between ≠ []) ∧
    (∃ r, (Grammar.crowd 2).resolve = some r ∧ Fit r.arities ∧
      compileWithin .checked ((crowded 2).size + 1) false (crowded 2) = .ok (compileItems false (crowded 2))) ∧
    ∃ r, (Grammar.crowd 65535).resolve = some r ∧ ¬ Fit r.arities ∧
      compileWithin .checked ((crowded 65535).size + 1) false (crowded 65535) = .error .overflow := by
  obtain ⟨-, -, ⟨-, -, hbetween⟩, hfuel, -⟩ := parsing_makes_progress false cutOff
  have hcrowded (n : Nat) :=
    (parsing_makes_progress false (crowded n)).2.2.2.2 ((crowded n).size + 1) (Nat.lt_succ_self _)
  refine ⟨(hfuel 13).1 (by decide), ⟨_, _, _, recordOf_cutOff, hbetween _ _ _ _ recordOf_cutOff⟩, ?_, ?_⟩
  · obtain ⟨hreturns, -, hexact⟩ := hcrowded 2
    have hfit : Fit (Grammar.crowdTree 2).arities := (Grammar.fit_crowdTree 2).mpr (by decide)
    exact ⟨_, Grammar.resolve_crowd 2, hfit, hreturns.resolve_right fun h => (hexact _ _ (tells_crowded 2)
      (Grammar.resolve_crowd 2)).mp h.1 hfit⟩
  · obtain ⟨-, -, hexact⟩ := hcrowded 65535
    have hfit : ¬ Fit (Grammar.crowdTree 65535).arities := mt (Grammar.fit_crowdTree 65535).mp (by decide)
    exact ⟨_, Grammar.resolve_crowd 65535, hfit,
      (hexact _ _ (tells_crowded 65535) (Grammar.resolve_crowd 65535)).mpr hfit⟩

/-- With the object it is called on, the method has one argument more than 16 bits can count. -/
theorem checked_build_gives_up :
    compileWithin .checked ((crowded 65535).size + 1) false (crowded 65535) = .error .overflow :=
  overflow_crowded (Nat.le_refl _)

end Jack
