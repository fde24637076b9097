import Jack.Proofs.Reading.Pace

namespace Jack.Parse

/-- `x` does what `y` does, unless it runs out of fuel. -/
def Below {α : Type} (x y : Fueled α) : Prop :=
  ∀ w, x w = .error .spent ∨ x w = y w

namespace Below

variable {α β σ : Type} {x x' y y' : Fueled α} {n n' : Nat} {starts kinds : List TokenKind}

theorem refl (x : Fueled α) : Below x x := fun _ => .inr rfl

theorem spent (y : Fueled α) : Below (Fueled.giveUp .spent) y := fun _ => .inl rfl

theorem bind {f g : α → Fueled β} (h : Below x y) (hf : ∀ a, Below (f a) (g a)) :
    Below (x >>= f) (y >>= g) := by
  intro w
  rw [Fueled.bind_apply, Fueled.bind_apply]
  obtain hx | hx := h w
  · exact .inl (by rw [hx])
  · rw [hx]
    cases y w with
    | error reason => exact .inr rfl
    | ok z =>
      cases z with
      | error s => exact .inr rfl
      | ok z => exact hf z.1 z.2

theorem choose (hx : Below x x') (hy : Below y y') :
    Below (Fueled.choose kinds x y) (Fueled.choose kinds x' y') := by
  intro w
  rw [Fueled.choose, Fueled.choose]
  split
  next => exact hx w
  next => exact hy w

theorem inRule (h : Below x y) (rule : Rule) : Below (Fueled.inRule rule x) (Fueled.inRule rule y) :=
  (refl _).bind fun _ => h.bind fun _ => .refl _

theorem loop {f g : σ → Fueled (α × σ)} (h : ∀ s, Below (f s) (g s)) (hn : n ≤ n') (xs : List α) (s : σ) :
    Below (Fueled.loop starts f n xs s) (Fueled.loop starts g n' xs s) := by
  induction n generalizing n' xs s with
  | zero => exact spent _
  | succ n ih =>
    obtain ⟨n', rfl⟩ := Nat.exists_eq_succ_of_ne_zero (Nat.ne_zero_of_lt hn)
    exact .choose ((h s).bind fun p => ih (Nat.le_of_succ_le_succ hn) _ _) (.refl _)

theorem repeated (h : Below x y) (hn : n ≤ n') : Below (Fueled.repeated starts x n) (Fueled.repeated starts y n') :=
  (loop (fun _ => h.bind fun _ => .refl _) hn _ _).bind fun _ => .refl _

end Below

section Rules

variable {build : Build} {names : Names} {t t' : Fueled Term} {s s' : Fueled Statement} {n n' : Nat}

theorem below_expression (h : Below t t') (hn : n ≤ n') :
    Below (Fueled.expression n t) (Fueled.expression n' t') := by
  have hoperation : Below (Fueled.operation t) (Fueled.operation t') :=
    (Below.refl _).bind fun _ => h.bind fun _ => .refl _
  exact .inRule (h.bind fun _ => (hoperation.repeated hn).bind fun _ => .refl _) _

theorem below_enclosed (h : Below t t') (hn : n ≤ n') (opening closing : Symbol) :
    Below (Fueled.enclosed n t opening closing) (Fueled.enclosed n' t' opening closing) :=
  (Below.refl _).bind fun _ => (below_expression h hn).bind fun _ => .refl _

theorem below_expressionList (h : Below t t') (hn : n ≤ n') :
    Below (Fueled.expressionList build n t) (Fueled.expressionList build n' t') := by
  have hnext : Below (Fueled.nextExpression n t) (Fueled.nextExpression n' t') :=
    (Below.refl _).bind fun _ => below_expression h hn
  refine .inRule (.choose (.refl _) ((below_expression h hn).bind fun _ => ?_)) _
  exact (Below.loop (fun _ => hnext.bind fun _ => .refl _) hn _ _).bind fun _ => .refl _

theorem below_call (h : Below t t') (hn : n ≤ n') (x : String) :
    Below (Fueled.call build n t names x) (Fueled.call build n' t' names x) :=
  (Below.refl _).bind fun _ => (Below.refl _).bind fun _ => (below_expressionList h hn).bind fun _ => .refl _

theorem below_termBehind (h : Below t t') (hn : n ≤ n') (start : TermStart) :
    Below (Fueled.termBehind build n t names start) (Fueled.termBehind build n' t' names start) := by
  cases start with
  | integer value | string text | constant value => exact .refl _
  | group => exact (below_expression h hn).bind fun _ => .refl _
  | unary op => exact h.bind fun _ => .refl _
  | named x =>
    refine .choose ((below_call h hn x).bind fun _ => .refl _) ((Below.refl _).bind fun v => ?_)
    exact .choose ((below_enclosed h hn _ _).bind fun _ => .refl _) (.refl _)

theorem below_term (hn : n ≤ n') : Below (Fueled.term build names n) (Fueled.term build names n') := by
  induction n generalizing n' with
  | zero => exact .spent _
  | succ n ih =>
    obtain ⟨n', rfl⟩ := Nat.exists_eq_succ_of_ne_zero (Nat.ne_zero_of_lt hn)
    have hn := Nat.le_of_succ_le_succ hn
    exact .inRule ((Below.refl _).bind fun start => below_termBehind (ih hn) hn start) _

theorem below_letStatement (hn : n ≤ n') :
    Below (Fueled.letStatement build names n) (Fueled.letStatement build names n') := by
  have he (opening closing : Symbol) : Below (Fueled.enclosed n (Fueled.term build names n) opening closing)
      (Fueled.enclosed n' (Fueled.term build names n') opening closing) :=
    below_enclosed (below_term hn) hn opening closing
  refine .inRule ((Below.refl _).bind fun _ => (Below.refl _).bind fun _ => (Below.refl _).bind fun _ => ?_) _
  exact .choose ((he _ _).bind fun _ => (he _ _).bind fun _ => .refl _) ((he _ _).bind fun _ => .refl _)

theorem below_doStatement (hn : n ≤ n') :
    Below (Fueled.doStatement build names n) (Fueled.doStatement build names n') :=
  .inRule ((Below.refl _).bind fun _ => (Below.refl _).bind fun x =>
    (below_call (below_term hn) hn x).bind fun _ => .refl _) _

theorem below_returnStatement (hn : n ≤ n') :
    Below (Fueled.returnStatement build names n) (Fueled.returnStatement build names n') :=
  .inRule ((Below.refl _).bind fun _ => .choose (.refl _)
    ((below_expression (below_term hn) hn).bind fun _ => .refl _)) _

theorem below_block (h : Below s s') (hn : n ≤ n') : Below (Fueled.block n s) (Fueled.block n' s') :=
  (Below.refl _).bind fun _ => (Below.inRule (h.repeated hn) _).bind fun _ => .refl _

theorem below_ifStatement (h : Below s s') (hn : n ≤ n') :
    Below (Fueled.ifStatement build names n s) (Fueled.ifStatement build names n' s') := by
  refine .inRule ((Below.refl _).bind fun _ => (below_enclosed (below_term hn) hn _ _).bind fun _ => ?_) _
  refine (below_block h hn).bind fun _ => .choose ((Below.refl _).bind fun _ => ?_) (.refl _)
  exact (below_block h hn).bind fun _ => .refl _

theorem below_whileStatement (h : Below s s') (hn : n ≤ n') :
    Below (Fueled.whileStatement build names n s) (Fueled.whileStatement build names n' s') :=
  .inRule ((Below.refl _).bind fun _ => (below_enclosed (below_term hn) hn _ _).bind fun _ =>
    (below_block h hn).bind fun _ => .refl _) _

theorem below_statement (hn : n ≤ n') :
    Below (Fueled.statement build names n) (Fueled.statement build names n') := by
  induction n generalizing n' with
  | zero => exact .spent _
  | succ n ih =>
    obtain ⟨n', rfl⟩ := Nat.exists_eq_succ_of_ne_zero (Nat.ne_zero_of_lt hn)
    have hn := Nat.le_of_succ_le_succ hn
    exact .choose (below_letStatement hn) <| .choose (below_ifStatement (ih hn) hn) <|
      .choose (below_whileStatement (ih hn) hn) <| .choose (below_doStatement hn) <|
      .choose (below_returnStatement hn) (.refl _)

theorem below_declaration (hn : n ≤ n') (kind : VariableKind) (scopes : Scopes) :
    Below (Fueled.declaration n kind scopes) (Fueled.declaration n' kind scopes) :=
  (Below.refl _).bind fun _ => (Below.refl _).bind fun _ =>
    (Below.loop (fun _ => .refl _) hn _ _).bind fun _ => .refl _

theorem below_parameterList (hn : n ≤ n') (scopes : Scopes) :
    Below (Fueled.parameterList n scopes) (Fueled.parameterList n' scopes) :=
  .inRule (.choose (.refl _) ((Below.refl _).bind fun _ =>
    (Below.loop (fun _ => .refl _) hn _ _).bind fun _ => .refl _)) _

theorem below_subroutineBody (hn : n ≤ n') (className : String) (scopes : Scopes) :
    Below (Fueled.subroutineBody build n className scopes) (Fueled.subroutineBody build n' className scopes) := by
  have hvar (scopes : Scopes) : Below (Fueled.varDec n scopes) (Fueled.varDec n' scopes) :=
    .inRule ((Below.refl _).bind fun _ => below_declaration hn _ _) _
  refine .inRule ((Below.refl _).bind fun _ => (Below.loop hvar hn _ _).bind fun _ => ?_) _
  exact (Below.inRule ((below_statement hn).repeated hn) _).bind fun _ => .refl _

theorem below_subroutine (hn : n ≤ n') (className : String) (scopes : Scopes) :
    Below (Fueled.subroutine build n className scopes) (Fueled.subroutine build n' className scopes) := by
  refine .inRule ((Below.refl _).bind fun _ => (Below.refl _).bind fun _ => (Below.refl _).bind fun _ => ?_) _
  refine (Below.refl _).bind fun _ => (Below.refl _).bind fun _ => (below_parameterList hn _).bind fun _ => ?_
  exact (Below.refl _).bind fun _ => (below_subroutineBody hn _ _).bind fun _ => .refl _

theorem below_parse (hn : n ≤ n') : Below (Fueled.parse build n) (Fueled.parse build n') := by
  have hdec (scopes : Scopes) : Below (Fueled.classVarDec n scopes) (Fueled.classVarDec n' scopes) :=
    .inRule ((Below.refl _).bind fun _ => below_declaration hn _ _) _
  refine (Below.inRule ?_ _).bind fun _ => .refl _
  refine (Below.refl _).bind fun _ => (Below.refl _).bind fun _ => (Below.refl _).bind fun _ => ?_
  refine (Below.loop hdec hn _ _).bind fun _ => ?_
  exact ((below_subroutine hn _ _).repeated hn).bind fun _ => .refl _

end Rules

end Jack.Parse
