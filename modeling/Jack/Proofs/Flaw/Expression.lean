import Jack.Proofs.Parse.Expression
import Jack.Proofs.Parse.Stop

namespace Jack

namespace Grammar

open Parse
open Event (parenthesized bracketed)

variable {names : Names} {w v : Window}

abbrev anything : Token → Prop := fun _ => True

theorem symbol_of_follow {s : Symbol} (hw : w.follow [.symbol s] = some v) :
    Yields (symbol s w) () v := by
  obtain ⟨w₁, h₁, hw⟩ := Window.follow_cons_iff.mp hw
  cases hw
  exact yields_symbol.mpr h₁

theorem identifier_of_follow {x : String} (hw : w.follow [.word x] = some v) :
    Yields (identifier w) x v := by
  obtain ⟨w₁, h₁, hw⟩ := Window.follow_cons_iff.mp hw
  cases hw
  exact yields_identifier.mpr h₁

theorem bind₂_eq_none {α β γ : Type} {a : Option α} {b : Option β} {f : α → β → γ}
    (h : (do let x ← a; let y ← b; some (f x y) : Option γ) = none) :
    a = none ∨ ∃ x, a = some x ∧ b = none := by
  cases a with
  | none => exact .inl rfl
  | some x => cases b with
    | none => exact .inr ⟨x, rfl, rfl⟩
    | some y => cases h

theorem stops_resolve {x : String} (h : names.scopes.resolve? x = none) :
    Stops (resolve names x w) ⟨w.last.location, .unresolved x⟩ := by
  unfold resolve
  split
  next v hv => cases h.symm.trans hv
  next => exact stops_reject.mpr rfl

theorem subscript_flawed {s : Expression}
    (h : Flawed s.derivation (· ∈ closing) fun w => Stops (expression names w)) :
    Flawed (bracketed s.derivation) anything fun w => Stops (subscript names w) := by
  refine h.lift [.symbol .leftBracket] [.symbol .rightBracket] rfl ?_
  intro w u u' v hw hu hv _
  obtain ⟨_, hc, -⟩ := Window.follow_cons_iff.mp hv
  refine ⟨closing_of_perform hc (by decide), fun e he => ?_⟩
  unfold subscript
  exact (symbol_of_follow hw).stops_bind (he.bind _)

/-- Of a call, the first name has been consumed. -/
theorem call_flawed (called : Called) {ss : List Expression}
    (h : Flawed (Event.span .expressionList (Expression.derivationAll ss)) (· = .symbol .rightParen)
      fun w => Stops (expressionList names w)) :
    Flawed (called.behind ++
        parenthesized (Event.span .expressionList (Expression.derivationAll ss)))
      anything fun w => Stops (call names called.first w) := by
  refine h.lift (called.behind ++ [.symbol .leftParen]) [.symbol .rightParen]
    (by simp [parenthesized]) ?_
  intro w u u' v hw hu hv _
  obtain ⟨w₁, h₁, hw⟩ := Window.follow_append_iff.mp hw
  have hc : Yields (callee names called.first w) (called.resolve names) w₁ :=
    callee_complete called h₁ (Window.next_token_of_follow hw)
  refine ⟨Window.next_token_of_follow hv, fun e he => ?_⟩
  unfold call
  exact hc.stops_bind ((symbol_of_follow hw).stops_bind (he.bind _))

theorem start_of_follow {start : TermStart}
    (hw : w.follow [.enter .term, .consumed start.token] = some v) :
    Yields (accept TermStart.kinds TermStart.ofToken? (w.enter .term)) start v := by
  obtain ⟨w₁, h₁, hw⟩ := Window.follow_cons_iff.mp hw
  cases h₁
  obtain ⟨w₂, h₂, hw⟩ := Window.follow_cons_iff.mp hw
  cases hw
  exact yields_termStart.mpr h₂

/-- A term is flawed if a part of it is that the parser comes to behind the first token. -/
theorem Term.flawed_of {s : Term} {es : List Event} {fits : Token → Prop}
    {S : Window → Error → Prop} (h : Flawed es fits S) (front behind : List Event)
    (hs : s.behind = front ++ (es ++ behind))
    (hT : ∀ w u u' v, w.follow front = some u → u.follow es = some u' → u'.follow behind = some v →
      EndsTerm v.next.token → fits u'.next.token ∧ ∀ e w₀, S u e →
        Yields (accept TermStart.kinds TermStart.ofToken? (Window.enter w₀ .term)) s.start w →
          Stops (term names w₀) e) :
    Flawed s.derivation EndsTerm fun w => Stops (term names w) := by
  refine h.lift ([.enter .term, .consumed s.start.token] ++ front) (behind ++ [.leave .term]) ?_ ?_
  · simp [s.derivation_eq, hs, Event.span]
  · intro w u u' v hw hu hv hf
    obtain ⟨w₁, h₁, hw⟩ := Window.follow_append_iff.mp hw
    obtain ⟨v', hv', h⟩ := Window.follow_append_iff.mp hv
    cases h
    obtain ⟨hfits, he⟩ := hT w₁ u u' v' hw hu hv' hf
    exact ⟨hfits, fun e hS => he e w hS (start_of_follow h₁)⟩

mutual

theorem Term.flawed (s : Term) (h : s.resolve names = none) :
    Flawed s.derivation EndsTerm fun w => Stops (term names w) := by
  cases s with
  | integer value =>
    rw [Term.resolve, ite_eq_right_iff] at h
    have hv : maxConstant < value := Nat.lt_of_not_le fun hv => by simpa using h hv
    refine Flawed.here (.outOfRange (.largeInteger value)) [.enter .term, .consumed (.integer value)]
      [.leave .term] rfl (by simp) fun w u v hw _ _ => ?_
    have hs : Yields (accept TermStart.kinds TermStart.ofToken? (w.enter .term)) (.integer value) u :=
      start_of_follow hw
    rw [term, stops_within]
    refine hs.stops_bind ?_
    dsimp only
    rw [if_pos hv]
    exact stops_reject.mpr rfl
  | string text =>
    rw [Term.resolve, ite_eq_right_iff] at h
    obtain ⟨fault, hf⟩ := Option.ne_none_iff_exists'.mp fun hf => by simpa using h hf
    refine Flawed.here (.outOfRange fault) [.enter .term, .consumed (.string text)]
      [.leave .term] rfl (by simp) fun w u v hw _ _ => ?_
    have hs : Yields (accept TermStart.kinds TermStart.ofToken? (w.enter .term)) (.string text) u :=
      start_of_follow hw
    rw [term, stops_within]
    refine hs.stops_bind ?_
    simp only [hf]
    exact stops_reject.mpr rfl
  | constant value => cases h
  | name x =>
    -- It takes the token behind the name to tell it from a call.
    have hx : names.scopes.resolve? x = none := Option.map_eq_none_iff.mp h
    refine Flawed.here (.unresolved x) [.enter .term, .word x] [.leave .term] rfl (by simp)
      fun w u v hw hu hv => ?_
    have hs : Yields (accept TermStart.kinds TermStart.ofToken? (w.enter .term)) (.named x) u :=
      start_of_follow hw
    cases hu
    have hc : u.nextIsAmong [.symbol .leftParen, .symbol .dot] = false := hv.not_call
    rw [term, stops_within]
    refine hs.stops_bind ?_
    simp only [hc, Bool.false_eq_true, if_false]
    exact (stops_resolve hx).bind _
  | element x index =>
    obtain hx | ⟨a, ha, hi⟩ := bind₂_eq_none h
    · refine Flawed.here (.unresolved x) [.enter .term, .word x]
        (bracketed index.derivation ++ [.leave .term]) rfl (by simp) fun w u v hw hu _ => ?_
      have hs : Yields (accept TermStart.kinds TermStart.ofToken? (w.enter .term)) (.named x) u :=
        start_of_follow hw
      have hc : u.nextIsAmong [.symbol .leftParen, .symbol .dot] = false := by
        rw [Window.nextIsAmong, Window.next_token_of_follow hu]
        rfl
      rw [term, stops_within]
      refine hs.stops_bind ?_
      simp only [hc, Bool.false_eq_true, if_false]
      exact (stops_resolve hx).bind _
    · refine Term.flawed_of (subscript_flawed (index.flawed hi)) [] [] (by simp [Term.behind]) ?_
      intro w u u' v hw hu _ _
      cases hw
      refine ⟨trivial, fun e w₀ he hs => ?_⟩
      have hb : w.next.token = .symbol .leftBracket := Window.next_token_of_follow hu
      have hc : w.nextIsAmong [.symbol .leftParen, .symbol .dot] = false := by
        rw [Window.nextIsAmong, hb]
        rfl
      have hr : Yields (resolve names x w) a w := yields_resolve.mpr ⟨ha, rfl⟩
      rw [term, stops_within]
      refine hs.stops_bind ?_
      simp only [Term.start, hc, Bool.false_eq_true, if_false]
      refine hr.stops_bind ?_
      simp only [if_pos (Window.nextIs_symbol.mpr hb)]
      exact he.bind _
  | call called arguments =>
    have ha : Expression.resolveAll names arguments = none := Option.map_eq_none_iff.mp h
    refine Term.flawed_of (call_flawed called (Expression.flawed_all arguments ha)) [] []
      (by simp [Term.behind]) ?_
    intro w u u' v hw hu _ _
    cases hw
    refine ⟨trivial, fun e w₀ he hs => ?_⟩
    rw [term, stops_within]
    refine hs.stops_bind ?_
    simp only [Term.start, nextIsAmong_of_call hu, if_true]
    exact he.bind _
  | group inner =>
    have hi : inner.resolve names = none := Option.map_eq_none_iff.mp h
    refine Term.flawed_of (inner.flawed hi) [] [.symbol .rightParen] (by simp [Term.behind]) ?_
    intro w u u' v hw hu hv _
    cases hw
    obtain ⟨_, h₃, -⟩ := Window.follow_cons_iff.mp hv
    refine ⟨closing_of_perform h₃ (by decide), fun e w₀ he hs => ?_⟩
    rw [term, stops_within]
    exact hs.stops_bind (he.bind _)
  | unary op operand =>
    have ho : operand.resolve names = none := Option.map_eq_none_iff.mp h
    refine Term.flawed_of (operand.flawed ho) [] [] (by simp [Term.behind]) ?_
    intro w u u' v hw hu hv hf
    cases hw
    cases hv
    refine ⟨hf, fun e w₀ he hs => ?_⟩
    rw [term, stops_within]
    exact hs.stops_bind (he.bind _)

theorem Expression.flawed (s : Expression) (h : s.resolve names = none) :
    Flawed s.derivation (· ∈ closing) fun w => Stops (expression names w) := by
  obtain ⟨first, rest⟩ := s
  obtain hf | ⟨t, ht, hr⟩ := bind₂_eq_none h
  · refine (first.flawed hf).lift [.enter .expression]
      (Expression.derivationRest rest ++ [.leave .expression])
      (by simp [Expression.derivation, Event.span]) ?_
    intro w u u' v hw hu hv hc
    cases hw
    obtain ⟨v', hr, h⟩ := Window.follow_append_iff.mp hv
    cases h
    refine ⟨endsTerm_of_rest hr hc, fun e he => ?_⟩
    rw [expression, stops_within]
    exact he.bind _
  · refine (Expression.flawed_rest rest hr).lift (.enter .expression :: first.derivation)
      [.leave .expression] (by simp [Expression.derivation, Event.span]) ?_
    intro w u u' v hw hu hv hc
    obtain ⟨w₁, h₁, hw⟩ := Window.follow_cons_iff.mp hw
    cases h₁
    cases hv
    have hf : Yields (term names (w.enter .expression)) t u :=
      first.complete hw ht (endsTerm_of_rest hu hc)
    refine ⟨hc, fun e ⟨ts, he⟩ => ?_⟩
    rw [expression, stops_within]
    exact hf.stops_bind (Stops.bind (stops_many he) _)

theorem Expression.flawed_rest (ss : List (BinaryOp × Term))
    (h : Expression.resolveRest names ss = none) :
    Flawed (Expression.derivationRest ss) (· ∈ closing) fun w e => ∃ ts,
      Breaks operators (fun p (_ : Unit) w _ v => Yields (operation names w) p v)
        (fun _ w => Stops (operation names w) e) ts () w := by
  match ss with
  | [] => cases h
  | (op, operand) :: ss =>
    obtain ho | ⟨t, ht, hs⟩ := bind₂_eq_none h
    · refine (operand.flawed ho).lift [.symbol op.symbol] (Expression.derivationRest ss) rfl ?_
      intro w u u' v hw hu hv hc
      have hn := operator_of_follow hw
      obtain ⟨w₁, h₁, hw⟩ := Window.follow_cons_iff.mp hw
      cases hw
      refine ⟨endsTerm_of_rest hv hc, fun e he => ⟨[], hn, ?_⟩⟩
      unfold operation
      exact (yields_operator.mpr h₁).stops_bind (he.bind _)
    · refine (Expression.flawed_rest ss hs).lift (.symbol op.symbol :: operand.derivation) []
        (by simp [Expression.derivationRest]) ?_
      intro w u u' v hw hu hv hc
      have hn := operator_of_follow hw
      obtain ⟨w₁, h₁, hw⟩ := Window.follow_cons_iff.mp hw
      cases hv
      have ho : Yields (term names w₁) t u := operand.complete hw ht (endsTerm_of_rest hu hc)
      refine ⟨hc, fun e ⟨ts, he⟩ => ⟨(op, t) :: ts, hn, (), u, ?_, he⟩⟩
      unfold operation
      simp only [yields_bind, yields_operator, yields_pure]
      exact ⟨op, w₁, h₁, t, u, ho, rfl, rfl⟩

theorem Expression.flawed_all (ss : List Expression) (h : Expression.resolveAll names ss = none) :
    Flawed (Event.span .expressionList (Expression.derivationAll ss)) (· = .symbol .rightParen)
      fun w => Stops (expressionList names w) := by
  match ss with
  | [] => cases h
  | s :: ss =>
    obtain hs | ⟨e, he, hss⟩ := bind₂_eq_none h
    · refine (s.flawed hs).lift [.enter .expressionList]
        (Expression.derivationMore ss ++ [.leave .expressionList])
        (by simp [Expression.derivationAll, Event.span]) ?_
      intro w u u' v hw hu hv hp
      cases hw
      obtain ⟨v', hm, h⟩ := Window.follow_append_iff.mp hv
      cases h
      have hn : ¬ (w.enter .expressionList).nextIs (.symbol .rightParen) = true :=
        s.not_nextIs hu (by decide)
      refine ⟨closing_of_more hm hp, fun e he => ?_⟩
      rw [expressionList, stops_within, if_neg hn]
      exact he.bind _
    · refine (Expression.flawed_more ss hss).lift (.enter .expressionList :: s.derivation)
        [.leave .expressionList] (by simp [Expression.derivationAll, Event.span]) ?_
      intro w u u' v hw hu hv hp
      obtain ⟨w₁, h₁, hw⟩ := Window.follow_cons_iff.mp hw
      cases h₁
      cases hv
      have hs : Yields (expression names (w.enter .expressionList)) e u :=
        s.complete hw he (closing_of_more hu hp)
      have hn : ¬ (w.enter .expressionList).nextIs (.symbol .rightParen) = true :=
        s.not_nextIs hw (by decide)
      refine ⟨hp, fun e ⟨es, hes⟩ => ?_⟩
      rw [expressionList, stops_within, if_neg hn]
      exact hs.stops_bind (Stops.bind (stops_many hes) _)

theorem Expression.flawed_more (ss : List Expression) (h : Expression.resolveAll names ss = none) :
    Flawed (Expression.derivationMore ss) (· = .symbol .rightParen) fun w e => ∃ es,
      Breaks [.symbol .comma] (fun e (_ : Unit) w _ v => Yields (nextExpression names w) e v)
        (fun _ w => Stops (nextExpression names w) e) es () w := by
  match ss with
  | [] => cases h
  | s :: ss =>
    obtain hs | ⟨e, he, hss⟩ := bind₂_eq_none h
    · refine (s.flawed hs).lift [.symbol .comma] (Expression.derivationMore ss) rfl ?_
      intro w u u' v hw hu hv hp
      refine ⟨closing_of_more hv hp, fun e he => ⟨[], comma_of_follow hw, ?_⟩⟩
      unfold nextExpression
      exact (symbol_of_follow hw).stops_bind (he.bind _)
    · refine (Expression.flawed_more ss hss).lift (.symbol .comma :: s.derivation) []
        (by simp [Expression.derivationMore]) ?_
      intro w u u' v hw hu hv hp
      have hc := comma_of_follow hw
      obtain ⟨w₁, h₁, hw⟩ := Window.follow_cons_iff.mp hw
      cases hv
      have hs : Yields (expression names w₁) e u := s.complete hw he (closing_of_more hu hp)
      refine ⟨hp, fun e' ⟨es, hes⟩ => ⟨e :: es, hc, (), u, ?_, hes⟩⟩
      unfold nextExpression
      simp only [yields_bind, yields_symbol, yields_pure]
      exact ⟨(), w₁, h₁, e, u, hs, rfl, rfl⟩

end

end Grammar

end Jack
