import Jack.Proofs.Acceptance
import Jack.Proofs.Grammar.Rename

namespace Jack

open Jack.Stream (Tells)

namespace Grammar

variable {c : Class} {s : Subroutine} {before behind : List Subroutine} {x y : String}

theorem Class.renames (hc : c.subroutines = before ++ s :: behind) :
    Renames x y c.derivation (c.withSubroutines (before ++ s.rename x y :: behind)).derivation := by
  refine .span _ (.same _ (.same _ (.braced (.append (.refl _) ?_))))
  rw [hc, List.flatMap_append, List.flatMap_cons, withSubroutines, List.flatMap_append, List.flatMap_cons]
  exact .append (.refl _) (.append (s.renames x y) (.refl _))

end Grammar

/-- In a stream that is compiled, any parameter or local of any subroutine may be called by a name that the
stream does not hold, other than `this`. Tokens are replaced where it is declared and where it stands for
the variable. -/
theorem variable_names_do_not_matter {recorded : Bool} {items : Array Item} {p : Compiled}
    (h : compileItems recorded items = .ok p) :
    (∃ c : Grammar.Class, Tells items (c.tokens ++ [.eof])) ∧
    ∀ (c : Grammar.Class) before s behind x y, Tells items (c.tokens ++ [.eof]) →
      c.subroutines = before ++ s :: behind → x ∈ s.declared → y ≠ "this" → .identifier y ∉ c.tokens →
        List.Forall₂ (fun t u => u = t ∨ t = .identifier x ∧ u = .identifier y) c.tokens
          (c.withSubroutines (before ++ s.rename x y :: behind)).tokens ∧
        CompilesTo recorded (c.withSubroutines (before ++ s.rename x y :: behind)).tokens p.commands := by
  obtain ⟨c₀, h₀, -⟩ := compileItems_eq_ok_iff_tells.mp h
  refine ⟨⟨c₀, h₀⟩, fun c before s behind x y hc hs hx hthis hy => ⟨(Grammar.Class.renames hs).tokens, ?_⟩⟩
  have hcode := code?_of_compileItems h hc
  have hsub : s ∈ c.subroutines := hs ▸ List.mem_append_right _ List.mem_cons_self
  have hw : Grammar.Words (· ≠ y) (Event.tokens s.derivation) := by
    have hw : Grammar.Words (· ≠ y) c.tokens := fun z hz he => hy (he ▸ hz)
    exact (Grammar.Class.words_tokens.mp hw).2.2 s hsub
  obtain ⟨q, hq, -⟩ := Grammar.Class.exists_codeOf? hcode hsub
  exact compilesTo_of_code (Grammar.Class.code?_replace hcode hs
    ((Grammar.Class.codeOf?_rename hq hx hthis hw).trans hq.symm)) recorded

namespace Grammar

/-- `method void draw(Point Point) { do Point.draw(Point); do Screen.flush(); return; }` -/
def drawPoint : Subroutine :=
  ⟨.method, .void, "draw", [⟨.object "Point", "Point"⟩], [],
    [.do (.dotted "Point" "draw") [.chain (.name "Point") []], .do (.dotted "Screen" "flush") [],
      .return none]⟩

/-- A class in which a parameter, its type and what is called go by the same name. -/
def view : Class := ⟨"View", [], [drawPoint]⟩

theorem view_static : view.Static where
  distinct := by decide
  room kind := by cases kind <;> decide
  subroutines := by
    intro s hs
    rw [view, List.mem_singleton] at hs
    subst hs
    refine ⟨by decide, fun kind => by cases kind <;> decide, ?_⟩
    simp [drawPoint, Statement.leavesAll, Statement.leaves, Expression.leavesAll, Expression.leaves,
      Expression.leavesRest, Term.leaves, Leaf.Valid, Subroutine.entries, parameterEntry]

end Grammar

open Grammar in
theorem point_is_renamed : ∃ p, compileItems false (view.lexemes.map .ok).toArray = .ok p ∧
    view.subroutines = [] ++ drawPoint :: [] ∧ "Point" ∈ drawPoint.declared ∧ "p" ≠ "this" ∧
      .identifier "p" ∉ view.tokens ∧
        CompilesTo false (view.withSubroutines ([] ++ drawPoint.rename "Point" "p" :: [])).tokens p.commands := by
  obtain ⟨r, -, p, hp, -⟩ := view_static.compiles
  have hx : "Point" ∈ drawPoint.declared := by decide
  have hy : Token.identifier "p" ∉ view.tokens := by decide
  have hr := (variable_names_do_not_matter hp).2 view [] drawPoint [] "Point" "p" view.tells_lexemes rfl hx
    (by decide) hy
  exact ⟨p, hp, rfl, hx, by decide, hy, hr.2⟩

end Jack
