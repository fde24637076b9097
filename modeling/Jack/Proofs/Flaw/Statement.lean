import Jack.Proofs.Flaw.Expression
import Jack.Proofs.Parse.Statement

namespace Jack

namespace Grammar

open Parse
open Event (parenthesized bracketed braced)

variable {names : Names} {w v : Window}

theorem bind₃_eq_none {α β γ δ : Type} {a : Option α} {b : Option β} {c : Option γ}
    {f : α → β → γ → δ}
    (h : (do let x ← a; let y ← b; let z ← c; some (f x y z) : Option δ) = none) :
    a = none ∨ ∃ x, a = some x ∧ (b = none ∨ ∃ y, b = some y ∧ c = none) := by
  cases a with
  | none => exact .inl rfl
  | some x => exact .inr ⟨x, rfl, bind₂_eq_none h⟩

theorem assigned_flawed {s : Expression} (h : s.resolve names = none) :
    Flawed (.symbol .equals :: (s.derivation ++ [.symbol .semicolon])) anything
      fun w => Stops (assigned names w) := by
  refine (s.flawed h).lift [.symbol .equals] [.symbol .semicolon] rfl ?_
  intro w u u' v hw _ hv _
  obtain ⟨_, hc, -⟩ := Window.follow_cons_iff.mp hv
  refine ⟨closing_of_perform hc (by decide), fun e he => ?_⟩
  unfold assigned
  exact (symbol_of_follow hw).stops_bind (he.bind _)

theorem condition_flawed {s : Expression} (h : s.resolve names = none) :
    Flawed (parenthesized s.derivation) anything fun w => Stops (condition names w) := by
  refine (s.flawed h).lift [.symbol .leftParen] [.symbol .rightParen] rfl ?_
  intro w u u' v hw _ hv _
  obtain ⟨_, hc, -⟩ := Window.follow_cons_iff.mp hv
  refine ⟨closing_of_perform hc (by decide), fun e he => ?_⟩
  unfold condition
  exact (symbol_of_follow hw).stops_bind (he.bind _)

def BreaksStatements (names : Names) (w : Window) (e : Error) : Prop :=
  ∃ rs, Breaks statementStarts (fun r (_ : Unit) w _ v => Yields (statement names w) r v)
    (fun _ w => Stops (statement names w) e) rs () w

theorem statements_flawed_of {ss : List Statement}
    (h : Flawed (Statement.derivationAll ss) (· = .symbol .rightBrace) (BreaksStatements names)) :
    Flawed (Event.span .statements (Statement.derivationAll ss)) (· = .symbol .rightBrace)
      fun w => Stops (statements names w) := by
  refine h.lift [.enter .statements] [.leave .statements] rfl ?_
  intro w u u' v hw _ hv hb
  cases hw
  cases hv
  refine ⟨hb, fun e ⟨rs, he⟩ => ?_⟩
  rw [statements, stops_within]
  exact stops_many he

theorem block_flawed {ss : List Statement}
    (h : Flawed (Statement.derivationAll ss) (· = .symbol .rightBrace) (BreaksStatements names)) :
    Flawed (braced (Event.span .statements (Statement.derivationAll ss))) anything
      fun w => Stops (block names w) := by
  refine (statements_flawed_of h).lift [.symbol .leftBrace] [.symbol .rightBrace] rfl ?_
  intro w u u' v hw _ hv _
  refine ⟨Window.next_token_of_follow hv, fun e he => ?_⟩
  unfold block
  exact (symbol_of_follow hw).stops_bind (he.bind _)

theorem keyword_of_follow {rule : Rule} {k : Keyword} {es : List Event}
    (hw : w.follow (.enter rule :: .keyword k :: es) = some v) :
    w.next.token = .keyword k ∧ ∃ u, Yields (Parse.keyword k (w.enter rule)) () u ∧
      u.follow es = some v := by
  obtain ⟨w₁, h₁, hw⟩ := Window.follow_cons_iff.mp hw
  cases h₁
  obtain ⟨w₂, h₂, hw⟩ := Window.follow_cons_iff.mp hw
  have hn : (w.enter rule).next.token = .keyword k := Window.next_token_of_perform h₂
  exact ⟨hn, w₂, yields_keyword.mpr h₂, hw⟩

theorem assign_flawed {x : String} {value : Expression}
    (h : (Statement.assign x value).resolve names = none) :
    Flawed (Statement.assign x value).derivation (· ≠ .keyword .else)
      fun w => Stops (statement names w) := by
  obtain hx | ⟨a, ha, he⟩ := bind₂_eq_none h
  · refine Flawed.here (.unresolved x) [.enter .letStatement, .keyword .let, .word x]
      (.symbol .equals :: (value.derivation ++ [.symbol .semicolon]) ++ [.leave .letStatement])
      rfl (by simp) fun w u v hw hu _ => ?_
    obtain ⟨hn, w₁, h₁, hx'⟩ := keyword_of_follow hw
    have h₂ := identifier_of_follow hx'
    simp only [statement, hn]
    rw [letStatement, stops_within]
    exact h₁.stops_bind (h₂.stops_bind ((stops_resolve hx).bind _))
  · refine (assigned_flawed he).lift [.enter .letStatement, .keyword .let, .word x]
      [.leave .letStatement] rfl ?_
    intro w u u' v hw hu hv _
    obtain ⟨hn, w₁, h₁, hx'⟩ := keyword_of_follow hw
    have h₂ := identifier_of_follow hx'
    have hr : Yields (resolve names x u) a u := yields_resolve.mpr ⟨ha, rfl⟩
    have hb : ¬ u.nextIs (.symbol .leftBracket) = true := by
      rw [Window.nextIs_symbol, Window.next_token_of_follow hu]
      simp
    refine ⟨trivial, fun e he => ?_⟩
    simp only [statement, hn]
    rw [letStatement, stops_within]
    refine h₁.stops_bind (h₂.stops_bind (hr.stops_bind ?_))
    simp only [if_neg hb]
    exact he.bind _

theorem store_flawed {x : String} {index value : Expression}
    (h : (Statement.store x index value).resolve names = none) :
    Flawed (Statement.store x index value).derivation (· ≠ .keyword .else)
      fun w => Stops (statement names w) := by
  obtain hx | ⟨a, ha, hi⟩ := bind₃_eq_none h
  · refine Flawed.here (.unresolved x) [.enter .letStatement, .keyword .let, .word x]
      (bracketed index.derivation ++
        .symbol .equals :: (value.derivation ++ [.symbol .semicolon]) ++ [.leave .letStatement])
      (by simp [Statement.derivation, Event.span]) (by simp) fun w u v hw hu _ => ?_
    obtain ⟨hn, w₁, h₁, hx'⟩ := keyword_of_follow hw
    have h₂ := identifier_of_follow hx'
    simp only [statement, hn]
    rw [letStatement, stops_within]
    exact h₁.stops_bind (h₂.stops_bind ((stops_resolve hx).bind _))
  · have hb {w v : Window} (hw : w.follow (bracketed index.derivation) = some v) :
        w.nextIs (.symbol .leftBracket) = true :=
      Window.nextIs_symbol.mpr (Window.next_token_of_follow hw)
    obtain hi | ⟨i, hi, he⟩ := hi
    · refine (subscript_flawed (index.flawed hi)).lift
        [.enter .letStatement, .keyword .let, .word x]
        (.symbol .equals :: (value.derivation ++ [.symbol .semicolon]) ++ [.leave .letStatement])
        (by simp [Statement.derivation, Event.span]) ?_
      intro w u u' v hw hu hv _
      obtain ⟨hn, w₁, h₁, hx'⟩ := keyword_of_follow hw
      have h₂ := identifier_of_follow hx'
      have hr : Yields (resolve names x u) a u := yields_resolve.mpr ⟨ha, rfl⟩
      refine ⟨trivial, fun e he => ?_⟩
      simp only [statement, hn]
      rw [letStatement, stops_within]
      refine h₁.stops_bind (h₂.stops_bind (hr.stops_bind ?_))
      simp only [if_pos (hb hu)]
      exact he.bind _
    · refine (assigned_flawed he).lift
        ([.enter .letStatement, .keyword .let, .word x] ++ bracketed index.derivation)
        [.leave .letStatement] (by simp [Statement.derivation, Event.span]) ?_
      intro w u u' v hw hu hv _
      obtain ⟨w₂, hw, h₃⟩ := Window.follow_append_iff.mp hw
      obtain ⟨hn, w₁, h₁, hx'⟩ := keyword_of_follow hw
      have h₂ := identifier_of_follow hx'
      have hr : Yields (resolve names x w₂) a w₂ := yields_resolve.mpr ⟨ha, rfl⟩
      have hs := subscript_complete (fun _ _ hw hv => index.complete hw hi hv) h₃
      refine ⟨trivial, fun e he => ?_⟩
      simp only [statement, hn]
      rw [letStatement, stops_within]
      refine h₁.stops_bind (h₂.stops_bind (hr.stops_bind ?_))
      simp only [if_pos (hb h₃)]
      exact hs.stops_bind (he.bind _)

theorem do_flawed {called : Called} {arguments : List Expression}
    (h : (Statement.do called arguments).resolve names = none) :
    Flawed (Statement.do called arguments).derivation (· ≠ .keyword .else)
      fun w => Stops (statement names w) := by
  have ha : Expression.resolveAll names arguments = none := Option.map_eq_none_iff.mp h
  refine (call_flawed called (Expression.flawed_all arguments ha)).lift
    [.enter .doStatement, .keyword .do, .word called.first]
    [.symbol .semicolon, .leave .doStatement]
    (by simp [Statement.derivation, called.derivation_eq, Event.span]) ?_
  intro w u u' v hw _ _ _
  obtain ⟨hn, w₁, h₁, hx⟩ := keyword_of_follow hw
  refine ⟨trivial, fun e he => ?_⟩
  simp only [statement, hn]
  rw [doStatement, stops_within]
  exact h₁.stops_bind ((identifier_of_follow hx).stops_bind (he.bind _))

theorem return_flawed {value : Option Expression}
    (h : (Statement.return value).resolve names = none) :
    Flawed (Statement.return value).derivation (· ≠ .keyword .else)
      fun w => Stops (statement names w) := by
  cases value with
  | none => cases h
  | some value =>
    have he : value.resolve names = none := Option.map_eq_none_iff.mp h
    refine (value.flawed he).lift [.enter .returnStatement, .keyword .return]
      [.symbol .semicolon, .leave .returnStatement] (by simp [Statement.derivation, Event.span]) ?_
    intro w u u' v hw hu hv _
    obtain ⟨hn, w₁, hk, h⟩ := keyword_of_follow hw
    cases h
    obtain ⟨_, h₃, -⟩ := Window.follow_cons_iff.mp hv
    have hs := value.not_nextIs (c := .semicolon) hu (by decide)
    refine ⟨closing_of_perform h₃ (by decide), fun e he => ?_⟩
    simp only [statement, hn]
    rw [returnStatement, stops_within]
    refine hk.stops_bind ?_
    simp only [if_neg hs]
    exact he.bind _

section If

variable {condition : Expression} {fits : Token → Prop}

theorem if_flawed_of_condition (h : condition.resolve names = none) (behind : List Event) :
    Flawed (.enter .ifStatement :: .keyword .if :: (parenthesized condition.derivation ++ behind))
      fits fun w => Stops (statement names w) := by
  refine (condition_flawed h).lift [.enter .ifStatement, .keyword .if] behind rfl ?_
  intro w u u' v hw _ _ _
  obtain ⟨hn, w₁, hk, h⟩ := keyword_of_follow hw
  cases h
  refine ⟨trivial, fun e he => ?_⟩
  simp only [statement, hn]
  rw [ifStatement, stops_within]
  exact hk.stops_bind (he.bind _)

theorem if_flawed_of_yes {e : Jack.Expression} (he : condition.resolve names = some e)
    {yes : List Statement}
    (h : Flawed (Statement.derivationAll yes) (· = .symbol .rightBrace) (BreaksStatements names))
    (behind : List Event) :
    Flawed (.enter .ifStatement :: .keyword .if :: (parenthesized condition.derivation ++
        (braced (Event.span .statements (Statement.derivationAll yes)) ++ behind)))
      fits fun w => Stops (statement names w) := by
  refine (block_flawed h).lift
    (.enter .ifStatement :: .keyword .if :: parenthesized condition.derivation) behind (by simp) ?_
  intro w u u' v hw _ _ _
  obtain ⟨hn, w₁, hk, h₂⟩ := keyword_of_follow hw
  have hc := condition_complete h₂ he
  refine ⟨trivial, fun e he => ?_⟩
  simp only [statement, hn]
  rw [ifStatement, stops_within]
  exact hk.stops_bind (hc.stops_bind (he.bind _))

end If

mutual

theorem Statement.flawed (s : Statement) (h : s.resolve names = none) :
    Flawed s.derivation (· ≠ .keyword .else) fun w => Stops (statement names w) := by
  cases s with
  | assign x value => exact assign_flawed h
  | store x index value => exact store_flawed h
  | «do» called arguments => exact do_flawed h
  | «return» value => exact return_flawed h
  | ifThen condition yes =>
    have hd : (Statement.ifThen condition yes).derivation =
        .enter .ifStatement :: .keyword .if :: (parenthesized condition.derivation ++
          (braced (Event.span .statements (Statement.derivationAll yes)) ++
            [.leave .ifStatement])) := by
      rw [Statement.derivation, Event.span]
      simp
    rw [hd]
    obtain hc | ⟨e, he, hy⟩ := bind₂_eq_none h
    · exact if_flawed_of_condition hc _
    · exact if_flawed_of_yes he (Statement.flawed_all yes hy) _
  | ifElse condition yes no =>
    have hd : (Statement.ifElse condition yes no).derivation =
        .enter .ifStatement :: .keyword .if :: (parenthesized condition.derivation ++
          (braced (Event.span .statements (Statement.derivationAll yes)) ++
            (.keyword .else :: braced (Event.span .statements (Statement.derivationAll no)) ++
              [.leave .ifStatement]))) := by
      rw [Statement.derivation, Event.span]
      simp
    rw [hd]
    obtain hc | ⟨e, he, hy | ⟨ys, hys, hno⟩⟩ := bind₃_eq_none h
    · exact if_flawed_of_condition hc _
    · exact if_flawed_of_yes he (Statement.flawed_all yes hy) _
    · refine (block_flawed (Statement.flawed_all no hno)).lift
        (.enter .ifStatement :: .keyword .if :: (parenthesized condition.derivation ++
          (braced (Event.span .statements (Statement.derivationAll yes)) ++ [.keyword .else])))
        [.leave .ifStatement] (by simp) ?_
      intro w u u' v hw _ _ _
      obtain ⟨hn, w₁, hk, hw⟩ := keyword_of_follow hw
      obtain ⟨w₂, h₂, hw⟩ := Window.follow_append_iff.mp hw
      obtain ⟨w₃, h₃, hw⟩ := Window.follow_append_iff.mp hw
      obtain ⟨w₄, h₄, hw⟩ := Window.follow_cons_iff.mp hw
      cases hw
      have hc := condition_complete h₂ he
      have hy := block_complete (fun _ _ hw hv => Statement.complete_all yes hw hys hv) h₃
      have hk' : Yields (Parse.keyword .else w₃) () u := yields_keyword.mpr h₄
      refine ⟨trivial, fun e he => ?_⟩
      simp only [statement, hn]
      rw [ifStatement, stops_within]
      refine hk.stops_bind (hc.stops_bind (hy.stops_bind ?_))
      simp only [if_pos (Window.nextIs_keyword.mpr (Window.next_token_of_perform h₄))]
      exact hk'.stops_bind (he.bind _)
  | «while» condition body =>
    obtain hc | ⟨e, he, hb⟩ := bind₂_eq_none h
    · refine (condition_flawed hc).lift [.enter .whileStatement, .keyword .while]
        (braced (Event.span .statements (Statement.derivationAll body)) ++ [.leave .whileStatement])
        (by simp [Statement.derivation, Event.span]) ?_
      intro w u u' v hw _ _ _
      obtain ⟨hn, w₁, hk, h⟩ := keyword_of_follow hw
      cases h
      refine ⟨trivial, fun e he => ?_⟩
      simp only [statement, hn]
      rw [whileStatement, stops_within]
      exact hk.stops_bind (he.bind _)
    · refine (block_flawed (Statement.flawed_all body hb)).lift
        (.enter .whileStatement :: .keyword .while :: parenthesized condition.derivation)
        [.leave .whileStatement] (by simp [Statement.derivation, Event.span]) ?_
      intro w u u' v hw _ _ _
      obtain ⟨hn, w₁, hk, h₂⟩ := keyword_of_follow hw
      have hc := condition_complete h₂ he
      refine ⟨trivial, fun e he => ?_⟩
      simp only [statement, hn]
      rw [whileStatement, stops_within]
      exact hk.stops_bind (hc.stops_bind (he.bind _))

theorem Statement.flawed_all (ss : List Statement) (h : Statement.resolveAll names ss = none) :
    Flawed (Statement.derivationAll ss) (· = .symbol .rightBrace) (BreaksStatements names) := by
  match ss with
  | [] => cases h
  | s :: ss =>
    have hn {w v : Window} (hw : w.follow s.derivation = some v) :
        w.nextIsAmong statementStarts = true := by
      rw [Window.nextIsAmong, s.next_token hw]
      cases s <;> rfl
    obtain hs | ⟨r, hr, hss⟩ := bind₂_eq_none h
    · refine (s.flawed hs).lift [] (Statement.derivationAll ss) rfl ?_
      intro w u u' v hw hu hv hb
      cases hw
      exact ⟨not_else_of_all hv hb, fun e he => ⟨[], hn hu, he⟩⟩
    · refine (Statement.flawed_all ss hss).lift s.derivation []
        (by simp [Statement.derivationAll]) ?_
      intro w u u' v hw hu hv hb
      cases hv
      have hs : Yields (statement names w) r u := s.complete hw hr (not_else_of_all hu hb)
      exact ⟨hb, fun e ⟨rs, he⟩ => ⟨r :: rs, hn hw, (), u, hs, he⟩⟩

end

end Grammar

end Jack
