import Jack.Proofs.Parse.Expression
import Jack.Proofs.Rejection.Basic

namespace Jack

namespace Grammar

open Parse
open Event (parenthesized bracketed)

/-- The token at the end of the events is one that the work in a subroutine stops at. The events `rest` complete
a derivation. -/
inductive Misfit (names : Names) : List Event → List Event → Stop → Prop where
  | integer (front : List Event) {rest : List Event} {s : Stop} {value : Nat} (large : maxConstant < value)
      (fault_eq : s.error.fault = .outOfRange (.largeInteger value)) :
      Misfit names (front ++ [.consumed (.integer value)]) rest s
  | string (front : List Event) {rest : List Event} {s : Stop} {text : String} {fault : RangeFault}
      (unfit : stringFault? text = some fault) (fault_eq : s.error.fault = .outOfRange fault) :
      Misfit names (front ++ [.consumed (.string text)]) rest s
  | term (front : List Event) {rest : List Event} {s : Stop} {x : String}
      (unknown : names.scopes.resolve? x = none)
      (alone : s.window.nextIsAmong [.symbol .leftParen, .symbol .dot] = false)
      (fault_eq : s.error.fault = .unresolved x) :
      Misfit names (front ++ [.enter .term, .word x]) (.leave .term :: rest) s
  | target (front : List Event) {rest : List Event} {s : Stop} {x : String}
      (unknown : names.scopes.resolve? x = none)
      (fault_eq : s.error.fault = .unresolved x) :
      Misfit names (front ++ [.enter .letStatement, .keyword .let, .word x]) rest s

variable {names : Names} {w : Window} {es rest front : List Event} {s : Stop}

theorem Misfit.lift (h : Misfit names es rest s) (front behind : List Event) :
    Misfit names (front ++ es) (rest ++ behind) s := by
  cases h with
  | integer first large he =>
    rw [← List.append_assoc]
    exact .integer _ large he
  | string first unfit he =>
    rw [← List.append_assoc]
    exact .string _ unfit he
  | term first unknown alone he =>
    rw [← List.append_assoc]
    exact .term _ unknown alone he
  | target first unknown he =>
    rw [← List.append_assoc]
    exact .target _ unknown he

section Parts

variable {α γ δ : Type} {n : Nat} {part : γ → List Event} {whole : δ → List Event}

/-- The events lead to a misfit in one of the derivations. -/
def MisfitIn (names : Names) (derivation : γ → List Event) (es : List Event) (s : Stop) : Prop :=
  ∃ g rest, derivation g = es ++ rest ∧ Misfit names es rest s

theorem rejects_part {x : Attempt (Parsed n α)} (h : Rejects (MisfitIn names part) [] x w)
    (hw : ∀ g, ∃ t, front ++ part g <+: whole t) : Rejects (MisfitIn names whole) front x w := by
  refine h.part fun es s ⟨g, rest, hg, hm⟩ => ?_
  obtain ⟨t, behind, ht⟩ := hw g
  exact ⟨t, rest ++ behind, by simp [← ht, hg], hm.lift front behind⟩

end Parts

def TermsReject (names : Names) (n : Nat) : Prop :=
  ∀ w : Window, w.remaining < n → Rejects (MisfitIn names Term.derivation) [] (term names w) w

def ExpressionsReject (names : Names) (n : Nat) : Prop :=
  ∀ w : Window, w.remaining < n → Rejects (MisfitIn names Expression.derivation) [] (expression names w) w

theorem TermsReject.mono {k n : Nat} (h : TermsReject names n) (hk : k ≤ n) : TermsReject names k :=
  fun w hw => h w (Nat.lt_of_lt_of_le hw hk)

theorem ExpressionsReject.mono {k n : Nat} (h : ExpressionsReject names n) (hk : k ≤ n) :
    ExpressionsReject names k :=
  fun w hw => h w (Nat.lt_of_lt_of_le hw hk)

theorem Expression.derivationRest_append (ss ts : List (BinaryOp × Term)) :
    Expression.derivationRest (ss ++ ts) = Expression.derivationRest ss ++ Expression.derivationRest ts := by
  induction ss with
  | nil => rfl
  | cons p ss ih => simp [Expression.derivationRest, ih]

theorem Expression.derivationMore_append (ss ts : List Expression) :
    Expression.derivationMore (ss ++ ts) = Expression.derivationMore ss ++ Expression.derivationMore ts := by
  induction ss with
  | nil => rfl
  | cons s ss ih => simp [Expression.derivationMore, ih]

theorem operation_rejects (hT : TermsReject names w.remaining) :
    Rejects (MisfitIn names fun p : BinaryOp × Term => .symbol p.1.symbol :: p.2.derivation) []
      (operation names w) w := by
  rw [operation]
  refine rejects_accept.bind fun op u h => ⟨[.symbol op.symbol], ?_, Rejects.last ?_ fun _ _ _ => rejects_pure⟩
  · exact Window.follow_cons_of (yields_operator.mp h) rfl
  · exact rejects_part (hT u h.bound) fun t => ⟨(op, t), by simp⟩

theorem expression_rejects_of (hT : TermsReject names (w.remaining + 1)) :
    Rejects (MisfitIn names Expression.derivation) [] (expression names w) w := by
  rw [expression]
  refine Rejects.within (Rejects.bind ?first fun t u h => ?_)
  case first =>
    refine rejects_part (hT (w.enter .expression) (Nat.lt_succ_self _)) fun t => ?_
    exact ⟨.chain t [], by simp [Expression.derivation, Event.span]⟩
  obtain ⟨t, ht, -⟩ := term_sound h
  refine ⟨t.derivation, ht, Rejects.last ?_ fun _ _ _ => rejects_pure⟩
  refine Rejects.many
    (Q := fun es => ∃ ts, es = .enter .expression :: (t.derivation ++ Expression.derivationRest ts)) ?_ ?_
    ⟨[], by simp [Expression.derivationRest]⟩ _
  · rintro _ v ⟨op, r⟩ v' ⟨ts, rfl⟩ - hv
    obtain ⟨r, hr, -⟩ := operation_sound (fun _ _ _ _ h => term_sound h) hv
    refine ⟨_, hr, ts ++ [(op, r)], ?_⟩
    simp [Expression.derivationRest_append, Expression.derivationRest]
  · rintro _ v ⟨ts, rfl⟩ hv
    refine rejects_part (operation_rejects (hT.mono (Nat.le_succ_of_le (Nat.le_of_lt hv)))) fun p => ?_
    refine ⟨.chain t (ts ++ [p]), ?_⟩
    simp [Expression.derivation, Event.span, Expression.derivationRest_append, Expression.derivationRest]

theorem subscript_rejects (hE : ExpressionsReject names w.remaining) :
    Rejects (MisfitIn names fun e : Expression => bracketed e.derivation) [] (subscript names w) w := by
  rw [subscript]
  refine Rejects.symbol_bind fun u h => Rejects.last ?_ fun _ _ _ => rejects_accept.last fun _ _ _ => rejects_pure
  exact rejects_part (hE u h.bound) fun e => ⟨e, by simp [bracketed]⟩

theorem nextExpression_rejects (hE : ExpressionsReject names w.remaining) :
    Rejects (MisfitIn names fun e : Expression => .symbol .comma :: e.derivation) [] (nextExpression names w) w := by
  rw [nextExpression]
  refine Rejects.symbol_bind fun u h => Rejects.last ?_ fun _ _ _ => rejects_pure
  exact rejects_part (hE u h.bound) fun e => ⟨e, by simp⟩

theorem nextExpression_sound {e : Jack.Expression} {v : Window} (h : Yields (nextExpression names w) e v) :
    ∃ s : Expression, w.follow (.symbol .comma :: s.derivation) = some v := by
  rw [nextExpression] at h
  simp only [yields_bind, yields_symbol, yields_pure] at h
  obtain ⟨_, u, hu, e, _, he, -, rfl⟩ := h
  obtain ⟨s, hs, -⟩ := expression_sound he
  exact ⟨s, Window.follow_cons_of hu hs⟩

theorem expressionList_rejects (hE : ExpressionsReject names (w.remaining + 1)) :
    Rejects (MisfitIn names fun es => Event.span .expressionList (Expression.derivationAll es)) []
      (expressionList names w) w := by
  rw [expressionList]
  refine Rejects.within ?_
  split
  next => exact rejects_pure
  next =>
    refine Rejects.bind ?first fun e u h => ?_
    case first =>
      refine rejects_part (hE (w.enter .expressionList) (Nat.lt_succ_self _)) fun e => ?_
      exact ⟨[e], by simp [Event.span, Expression.derivationAll]⟩
    obtain ⟨e, he, -⟩ := expression_sound h
    refine ⟨e.derivation, he, Rejects.last ?_ fun _ _ _ => rejects_pure⟩
    refine Rejects.many
      (Q := fun fs => ∃ es, fs = .enter .expressionList :: (e.derivation ++ Expression.derivationMore es)) ?_ ?_
      ⟨[], by simp [Expression.derivationMore]⟩ _
    · rintro _ v r v' ⟨es, rfl⟩ - hv
      obtain ⟨r, hr⟩ := nextExpression_sound hv
      refine ⟨_, hr, es ++ [r], ?_⟩
      simp [Expression.derivationMore_append, Expression.derivationMore]
    · rintro _ v ⟨es, rfl⟩ hv
      refine rejects_part (nextExpression_rejects (hE.mono (Nat.le_succ_of_le (Nat.le_of_lt hv)))) fun r => ?_
      refine ⟨e :: (es ++ [r]), ?_⟩
      simp [Event.span, Expression.derivationAll, Expression.derivationMore_append, Expression.derivationMore]

theorem resolve_rejects {P : List Event → Stop → Prop} {x : String}
    (h : names.scopes.resolve? x = none → P front ⟨⟨w.last.location, .unresolved x⟩, w⟩) :
    Rejects P front (resolve names x w) w := by
  unfold resolve
  split
  next => exact rejects_ok
  next hx => exact rejects_reject (h hx)

theorem callee_rejects {P : List Event → Stop → Prop} {x : String} : Rejects P front (callee names x w) w := by
  unfold callee
  split
  next =>
    refine Rejects.symbol_bind fun u _ => Rejects.identifier_bind fun y v _ => ?_
    dsimp only
    split <;> exact rejects_pure
  next =>
    split
    next => exact rejects_pure
    next => exact rejects_unexpected

theorem call_rejects {x : String} (hE : ExpressionsReject names w.remaining) :
    Rejects (MisfitIn names fun c : { called : Called // called.first = x } × List Expression =>
        c.1.1.behind ++ parenthesized (Event.span .expressionList (Expression.derivationAll c.2))) []
      (call names x w) w := by
  rw [call]
  refine callee_rejects.bind fun f u hf => ?_
  obtain ⟨called, hx, hc, -⟩ := callee_sound hf
  refine ⟨called.behind, hc, Rejects.symbol_bind fun v h => ?_⟩
  have hv : v.remaining + 1 ≤ w.remaining := Nat.lt_of_lt_of_le h.bound (Nat.le_of_lt_succ hf.bound)
  refine Rejects.last ?_ fun _ _ _ => rejects_accept.last fun _ _ _ => rejects_pure
  refine rejects_part (expressionList_rejects (hE.mono hv)) fun es => ?_
  exact ⟨(⟨called, hx⟩, es), by simp [parenthesized]⟩

theorem term_rejects_of (hT : TermsReject names w.remaining) (hE : ExpressionsReject names w.remaining) :
    Rejects (MisfitIn names Term.derivation) [] (term names w) w := by
  rw [term]
  refine Rejects.within (rejects_accept.bind fun start u h => ?_)
  have hu : u.remaining ≤ w.remaining := Nat.le_of_lt h.bound
  refine ⟨[.consumed start.token], Window.follow_cons_of (yields_termStart.mp h) rfl, ?_⟩
  cases start with
  | integer value =>
    dsimp only
    split
    next hv =>
      exact rejects_reject ⟨.integer value, [.leave .term], rfl, .integer [.enter .term] hv rfl⟩
    next => exact rejects_pure
  | string text =>
    dsimp only
    split
    next fault hf =>
      exact rejects_reject ⟨.string text, [.leave .term], rfl, .string [.enter .term] hf rfl⟩
    next => exact rejects_pure
  | constant value => exact rejects_pure
  | group =>
    refine Rejects.last ?_ fun _ _ _ => rejects_accept.last fun _ _ _ => rejects_pure
    refine rejects_part (hE u h.bound) fun e => ⟨.group e, ?_⟩
    simp [Term.derivation, Event.span, parenthesized, TermStart.token]
  | unary op =>
    refine Rejects.last ?_ fun _ _ _ => rejects_pure
    refine rejects_part (hT u h.bound) fun t => ⟨.unary op t, ?_⟩
    simp [Term.derivation, Event.span, TermStart.token]
  | named x =>
    dsimp only
    split
    next =>
      refine Rejects.last ?_ fun _ _ _ => rejects_pure
      refine rejects_part (call_rejects (hE.mono hu)) fun c => ⟨.call c.1 c.2, ?_⟩
      simp [Term.derivation, c.1.1.derivation_eq, c.1.2, Event.span, TermStart.token]
    next halone =>
      refine Rejects.bind ?resolve fun a v hv => ?_
      case resolve =>
        refine resolve_rejects fun hx => ⟨.name x, [.leave .term], rfl, ?_⟩
        exact .term [] hx (Bool.eq_false_iff.mpr halone) rfl
      obtain ⟨-, rfl⟩ := yields_resolve.mp hv
      refine ⟨[], rfl, ?_⟩
      dsimp only
      split
      next =>
        refine Rejects.last ?_ fun _ _ _ => rejects_pure
        refine rejects_part (subscript_rejects (hE.mono hu)) fun e => ⟨.element x e, ?_⟩
        simp [Term.derivation, Event.span, TermStart.token]
      next => exact rejects_pure

theorem terms_reject (names : Names) (n : Nat) : TermsReject names n := by
  induction n with
  | zero => exact fun w hw => absurd hw (Nat.not_lt_zero _)
  | succ n ih =>
    intro w hw
    have hT : TermsReject names w.remaining := ih.mono (Nat.le_of_lt_succ hw)
    exact term_rejects_of hT fun u hu => expression_rejects_of (hT.mono hu)

theorem expressions_reject (names : Names) (n : Nat) : ExpressionsReject names n :=
  fun _ _ => expression_rejects_of (terms_reject names _)

theorem expression_rejects (names : Names) (w : Window) :
    Rejects (MisfitIn names Expression.derivation) [] (expression names w) w :=
  expression_rejects_of (terms_reject names _)

end Grammar

end Jack
