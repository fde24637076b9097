import Jack.Proofs.Reading.Guard

namespace Jack.Parse

section Expressions

variable {names : Names} {n : Nat} {t t' : Fueled Term} {P : Prop}

def GuardedTerms (n : Nat) (t t' : Fueled Term) : Prop := Guards (65535 ≤ n) True (fun r => Fit r.arities) t t'

theorem guards_expression (h : GuardedTerms n t t') :
    Guards (65535 ≤ n) True (fun e => Fit e.arities) (Fueled.expression n t) (Fueled.expression n t') := by
  have hoperation : Guards (65535 ≤ n) True (fun p => Fit p.2.arities) (Fueled.operation t) (Fueled.operation t') :=
    (Guards.of _).bind fun _ => h.bind fun _ => .give Iff.rfl
  refine .inRule (h.bind fun first => (hoperation.repeated.frame _).bind fun rest => .give ?_)
  rw [Expression.arities, fit_append, Expression.fit_rest]

theorem guards_enclosed (h : GuardedTerms n t t') (opening closing : Symbol) :
    Guards (65535 ≤ n) True (fun e => Fit e.arities) (Fueled.enclosed n t opening closing)
      (Fueled.enclosed n t' opening closing) :=
  (Guards.of _).bind fun _ => (guards_expression h).bind fun _ => (Guards.of _).bind fun _ => .give Iff.rfl

theorem guards_expressionList (h : GuardedTerms n t t') :
    Guards (65535 ≤ n) True (fun p => p.1.length < 65536 ∧ ∀ e ∈ p.1, Fit e.arities)
      (Fueled.expressionList .checked n t) (Fueled.expressionList .wrapping n t') := by
  have hnext : Guards (65535 ≤ n) True (fun e => Fit e.arities) (Fueled.nextExpression n t) (Fueled.nextExpression n t') :=
    (Guards.of _).bind fun _ => guards_expression h
  refine .inRule (.choose (.give (by simp)) ((guards_expression h).bind fun first => ?_))
  refine ((Guards.counting_nil hnext id).frame _).bind fun p => .give ?_
  simp [and_left_comm]

theorem number_of_expressionList (h : PacedTerms n names t') {w v : Window} {p : List Expression × Nat}
    (hp : Fueled.expressionList .wrapping n t' w = .ok (.ok (p, v))) : p.2 = p.1.length % 65536 := by
  have hc := (runs_expressionList h (Nat.le_refl n)).sound hp
  rw [counted, Reading.bind_apply] at hc
  cases hm : reading (expressionList names) w with
  | error s => rw [hm] at hc; cases hc
  | ok q =>
    rw [hm] at hc
    cases hc
    rfl

theorem length_expressionList {build : Build} {w v : Window} {p : List Expression × Nat}
    (h : Fueled.expressionList build n t w = .ok (.ok (p, v))) : p.1.length ≤ n := by
  obtain ⟨_, u, -, h⟩ := Fueled.bind_eq_ok h
  obtain ⟨q, u', hq, h⟩ := Fueled.bind_eq_ok h
  obtain ⟨_, _, -, h⟩ := Fueled.bind_eq_ok h
  cases h
  rw [Fueled.choose] at hq
  split at hq
  next =>
    cases hq
    exact Nat.zero_le n
  next =>
    obtain ⟨first, _, -, hq⟩ := Fueled.bind_eq_ok hq
    obtain ⟨r, _, hr, hq⟩ := Fueled.bind_eq_ok hq
    have hlt := Fueled.length_loop hr
    rw [List.length_nil, Nat.zero_add] at hlt
    cases hq
    exact hlt

theorem guards_call (h : GuardedTerms n t t') (hp : PacedTerms n names t') (x : String) :
    Guards (65535 ≤ n) True (fun p => Fit (p.1.arity p.2.length :: Expression.aritiesAll p.2))
      (Fueled.call .checked n t names x) (Fueled.call .wrapping n t' names x) := by
  refine (Guards.of _).bind fun callee => (Guards.of _).bind fun _ => ?_
  refine (guards_expressionList h).bind_of fun p ⟨w, v, hw⟩ => (Guards.of _).bind fun _ => ?_
  rw [number_of_expressionList hp hw]
  refine .add_bind (.give ?_) fun hl => ?_
  · rw [fit_cons, Expression.fit_all, callee.arity_eq]
  · have hn := length_expressionList hw
    have hone : callee.receiver.length ≤ 1 := by cases callee <;> simp [Callee.receiver]
    omega

theorem guards_termBehind (h : GuardedTerms n t t') (hp : PacedTerms n names t') (start : TermStart) :
    Guards (65535 ≤ n) True (fun r => Fit r.arities) (Fueled.termBehind .checked n t names start)
      (Fueled.termBehind .wrapping n t' names start) := by
  cases start with
  | integer value =>
    change Guards _ _ _ (.of (termBehind names (.integer value))) (.of (termBehind names (.integer value)))
    rw [termBehind]
    split
    next => exact .fail _
    next => exact .give (by simp [Term.arities])
  | string text =>
    change Guards _ _ _ (.of (termBehind names (.string text))) (.of (termBehind names (.string text)))
    rw [termBehind]
    split
    next => exact .fail _
    next => exact .give (by simp [Term.arities])
  | constant value => exact .give (by simp [Term.arities])
  | group => exact (guards_expression h).bind fun inner => (Guards.of _).bind fun _ => .give (by simp [Term.arities])
  | unary op => exact h.bind fun operand => .give (by simp [Term.arities])
  | named x =>
    refine .choose ((guards_call h hp x).bind fun p => .give (by rw [Term.arities])) ((Guards.of _).bind fun v => ?_)
    exact .choose ((guards_enclosed h _ _).bind fun _ => .give (by rw [Term.arities])) (.give (by simp [Term.arities]))

theorem guarded_term (names : Names) (n : Nat) :
    GuardedTerms n (Fueled.term .checked names n) (Fueled.term .wrapping names n) := by
  induction n with
  | zero => exact .spent
  | succ n ih =>
    refine Guards.widen (.inRule ((Guards.of _).bind fun start => ?_)) Nat.le_succ_of_le
    exact guards_termBehind ih (paced_term names n) start

end Expressions

section Statements

variable {names : Names} {n : Nat} {s s' : Fueled Statement}

theorem guards_value (opening closing : Symbol) :
    Guards (65535 ≤ n) True (fun e => Fit e.arities) (Fueled.enclosed n (Fueled.term .checked names n) opening closing)
      (Fueled.enclosed n (Fueled.term .wrapping names n) opening closing) :=
  guards_enclosed (guarded_term names n) opening closing

theorem guards_letStatement : Guards (65535 ≤ n) True (fun r => Fit r.arities) (Fueled.letStatement .checked names n)
    (Fueled.letStatement .wrapping names n) := by
  refine .inRule ((Guards.of _).bind fun _ => (Guards.of _).bind fun x => (Guards.of _).bind fun target => ?_)
  refine .choose ((guards_value _ _).bind fun index => ((guards_value _ _).frame _).bind fun value => .give ?_) ?_
  · rw [Statement.arities, fit_append]
  · exact (guards_value _ _).bind fun value => .give (by rw [Statement.arities])

theorem guards_doStatement : Guards (65535 ≤ n) True (fun r => Fit r.arities) (Fueled.doStatement .checked names n)
    (Fueled.doStatement .wrapping names n) := by
  refine .inRule ((Guards.of _).bind fun _ => (Guards.of _).bind fun x => ?_)
  refine (guards_call (guarded_term names n) (paced_term names n) x).bind fun p => (Guards.of _).bind fun _ => ?_
  exact .give (by rw [Statement.arities, Term.arities])

theorem guards_returnStatement : Guards (65535 ≤ n) True (fun r => Fit r.arities) (Fueled.returnStatement .checked names n)
    (Fueled.returnStatement .wrapping names n) := by
  refine .inRule ((Guards.of _).bind fun _ => .choose ((Guards.of _).bind fun _ => .give ?_) ?_)
  · simp [Statement.arities]
  · refine (guards_expression (guarded_term names n)).bind fun value => (Guards.of _).bind fun _ => .give ?_
    rw [Statement.arities]

def GuardedStatements (n : Nat) (s s' : Fueled Statement) : Prop := Guards (65535 ≤ n) True (fun r => Fit r.arities) s s'

theorem guards_statements (h : GuardedStatements n s s') :
    Guards (65535 ≤ n) True (fun ss => Fit (Statement.aritiesAll ss)) (Fueled.statements n s) (Fueled.statements n s') :=
  .inRule (h.repeated.congr Iff.rfl fun _ => Statement.fit_all.symm)

theorem guards_block (h : GuardedStatements n s s') :
    Guards (65535 ≤ n) True (fun ss => Fit (Statement.aritiesAll ss)) (Fueled.block n s) (Fueled.block n s') :=
  (Guards.of _).bind fun _ => (guards_statements h).bind fun _ => (Guards.of _).bind fun _ => .give Iff.rfl

theorem guards_ifStatement (h : GuardedStatements n s s') : Guards (65535 ≤ n) True (fun r => Fit r.arities)
    (Fueled.ifStatement .checked names n s) (Fueled.ifStatement .wrapping names n s') := by
  refine .inRule ((Guards.of _).bind fun _ => (guards_value _ _).bind fun e => ?_)
  refine ((guards_block h).frame _).bind fun yes => .choose ((Guards.of _).bind fun _ => ?_) (.give ?_)
  · exact ((guards_block h).frame _).bind fun no => .give (by simp [Statement.arities, and_assoc])
  · simp [Statement.arities]

theorem guards_whileStatement (h : GuardedStatements n s s') : Guards (65535 ≤ n) True (fun r => Fit r.arities)
    (Fueled.whileStatement .checked names n s) (Fueled.whileStatement .wrapping names n s') := by
  refine .inRule ((Guards.of _).bind fun _ => (guards_value _ _).bind fun e => ?_)
  exact ((guards_block h).frame _).bind fun body => .give (by rw [Statement.arities, fit_append])

theorem guarded_statement (names : Names) (n : Nat) :
    GuardedStatements n (Fueled.statement .checked names n) (Fueled.statement .wrapping names n) := by
  induction n with
  | zero => exact .spent
  | succ n ih =>
    exact Guards.widen (.choose guards_letStatement <| .choose (guards_ifStatement ih) <|
      .choose (guards_whileStatement ih) <| .choose guards_doStatement <|
      .choose guards_returnStatement (.refuse _)) Nat.le_succ_of_le

end Statements

section Classes

variable {n : Nat}

theorem guards_declaration (kind : VariableKind) (scopes : Scopes) :
    Guards (65535 ≤ n) True (fun _ => True) (Fueled.declaration n kind scopes) (Fueled.declaration n kind scopes) := by
  refine (Guards.of _).bind fun type => (Guards.of _).bind fun p => ?_
  exact (Guards.calm_loop (fun _ => Guards.of _) _).bind fun q => (Guards.of _).bind fun _ => .give Iff.rfl

theorem guards_parameterList (scopes : Scopes) :
    Guards (65535 ≤ n) True (fun _ => True) (Fueled.parameterList n scopes) (Fueled.parameterList n scopes) := by
  refine .inRule (.choose (.give Iff.rfl) ((Guards.of _).bind fun p => ?_))
  exact (Guards.calm_loop (fun _ => Guards.of _) _).bind fun q => .give Iff.rfl

theorem guards_subroutineBody (className : String) (scopes : Scopes) :
    Guards (65535 ≤ n) True (fun q => Fit (Statement.aritiesAll q.2)) (Fueled.subroutineBody .checked n className scopes)
      (Fueled.subroutineBody .wrapping n className scopes) := by
  have hvar (scopes : Scopes) : Guards (65535 ≤ n) True (fun _ => True) (Fueled.varDec n scopes) (Fueled.varDec n scopes) :=
    .inRule ((Guards.of _).bind fun _ => guards_declaration _ _)
  refine .inRule ((Guards.of _).bind fun _ => (Guards.calm_loop hvar _).bind fun p => ?_)
  exact (guards_statements (guarded_statement _ n)).bind fun body => (Guards.of _).bind fun _ => .give Iff.rfl

theorem guards_subroutine (className : String) (scopes : Scopes) :
    Guards (65535 ≤ n) True (fun r => Fit r.arities) (Fueled.subroutine .checked n className scopes)
      (Fueled.subroutine .wrapping n className scopes) := by
  refine .inRule ((Guards.of _).bind fun kind => (Guards.of _).bind fun type => (Guards.of _).bind fun x => ?_)
  refine (Guards.of _).bind fun scopes => (Guards.of _).bind fun _ => (guards_parameterList scopes).bind fun p => ?_
  refine (Guards.of _).bind fun _ => (guards_subroutineBody className p.2).bind fun q => .give ?_
  rw [Subroutine.arities]

theorem guards_parse : Guards (65535 ≤ n) True (fun c => Fit c.arities) (Fueled.parse .checked n) (Fueled.parse .wrapping n) := by
  have hdec (scopes : Scopes) :
      Guards (65535 ≤ n) True (fun _ => True) (Fueled.classVarDec n scopes) (Fueled.classVarDec n scopes) :=
    .inRule ((Guards.of _).bind fun _ => guards_declaration _ _)
  refine (Guards.inRule ?_).bind fun c => (Guards.of _).bind fun _ => .give Iff.rfl
  refine (Guards.of _).bind fun _ => (Guards.of _).bind fun x => (Guards.of _).bind fun _ => ?_
  refine (Guards.calm_loop hdec _).bind fun p => ?_
  refine (guards_subroutine x p.2).repeated.bind fun subroutines => (Guards.of _).bind fun _ => .give ?_
  exact List.forall_mem_flatMap

end Classes

end Jack.Parse
