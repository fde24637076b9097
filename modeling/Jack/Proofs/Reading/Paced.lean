import Jack.Proofs.Reading.Pace

namespace Jack.Parse

open Reading

namespace Fueled

variable {α β : Type}

theorem of_pure (a : α) : of (pure a) = pure a := rfl

theorem of_bind (m : Reading α) (g : α → Reading β) : of (m >>= g) = of m >>= fun a => of (g a) := by
  funext w
  rw [of, Reading.bind_apply, bind_apply, of]
  cases m w <;> rfl

theorem of_choose (kinds : List TokenKind) (m l : Reading α) :
    of (Reading.choose kinds m l) = choose kinds (of m) (of l) := by
  funext w
  exact apply_ite Except.ok _ _ _

end Fueled

section Expressions

variable {names : Names} {n k : Nat} {rs : List Rule} {t : Fueled Term}

theorem runs_resolving (x : String) : Runs ⟨k, rs⟩ ⟨k, rs⟩ (.of (resolving names x)) (resolving names x) := by
  unfold resolving
  split
  next => exact .give _
  next => exact .fail _

theorem runs_callee (x : String) :
    Runs ⟨k, []⟩ ⟨k, []⟩ (.of (reading (callee names x))) (reading (callee names x)) := by
  rw [reading_callee]
  simp only [Fueled.of_choose, Fueled.of_bind]
  refine .choose ?_ (.choose (.give _) (.refuse _))
  exact Runs.token.bind fun _ => Runs.token.bind fun _ => .give _

/-- What reads terms keeps the pace, unless a term has just begun. -/
def PacedTerms (n : Nat) (names : Names) (t : Fueled Term) : Prop :=
  ∀ rs, .term ∉ rs → Consumes n rs t (reading (term names))

theorem consumes_operation (h : PacedTerms n names t) :
    Consumes n rs (Fueled.operation t) (reading (operation names)) := by
  intro k hk
  rw [reading_operation]
  refine (Runs.take rfl).bind fun op => ?_
  exact ((h [] List.not_mem_nil).stays (by omega)).bind fun operand => .give _

theorem consumes_expression (h : PacedTerms n names t) (he : .expression ∉ rs) (ht : .term ∉ rs) :
    Consumes n rs (Fueled.expression n t) (reading (expression names)) := by
  intro k hk
  have hterm : .term ∉ Rule.expression :: rs := List.not_mem_cons_of_ne_of_not_mem (by decide) ht
  rw [reading_expression]
  refine .inRule he ((h _ hterm k hk).bind fun first => ?_)
  exact (Runs.repeated (consumes_operation h) (by omega)).bind fun rest => .give _

theorem consumes_enclosed (h : PacedTerms n names t) (opening closing : Symbol) :
    Consumes n rs (Fueled.enclosed n t opening closing) (enclosed names opening closing) := by
  intro k hk
  refine (Runs.exactly (by simp)).bind fun _ => ?_
  refine ((consumes_expression h List.not_mem_nil List.not_mem_nil).stays (by omega)).bind fun e => ?_
  exact Runs.token.bind fun _ => .give _

theorem consumes_nextExpression (h : PacedTerms n names t) :
    Consumes n rs (Fueled.nextExpression n t) (reading (nextExpression names)) := by
  intro k hk
  rw [reading_nextExpression]
  exact (Runs.exactly (by simp)).bind fun _ =>
    (consumes_expression h List.not_mem_nil List.not_mem_nil).stays (by omega)

/-- A list of expressions and their number, as far as 16 bits can tell it. -/
def counted (names : Names) : Reading (List Expression × Nat) := do
  let es ← reading (expressionList names)
  return (es, es.length % 65536)

theorem counted_eq : counted names = inRule .expressionList (choose [.symbol .rightParen] (return ([], 0)) (do
    let first ← reading (expression names)
    let p ← numbered [.symbol .comma] (nextExpression names) []
    return (first :: p.1, p.2))) := by
  rw [counted, reading_expressionList, repeated, numbered, inRule_bind, inRule]
  simp only [choose_bind, bind_assoc, pure_bind]
  rfl

theorem runs_expressionList (h : PacedTerms n names t) (hk : k ≤ n) :
    Runs ⟨k, []⟩ ⟨k, [.expressionList]⟩ (Fueled.expressionList .wrapping n t) (counted names) := by
  have he : Consumes n [.expressionList] (Fueled.expression n t) (reading (expression names)) :=
    consumes_expression h (by decide) (by decide)
  rw [counted_eq]
  refine .inRule List.not_mem_nil (.choose (.give _) ((he.stays hk).bind fun first => ?_))
  exact (Runs.counting (consumes_nextExpression h) hk []).bind fun p => .give _

theorem runs_call (h : PacedTerms n names t) (hk : k ≤ n) (x : String) :
    Runs ⟨k, []⟩ ⟨k, []⟩ (Fueled.call .wrapping n t names x) (reading (call names x)) := by
  have hcall : reading (call names x) = (do
      let callee ← reading (callee names x)
      exactly (.symbol .leftParen)
      let p ← counted names
      exactly (.symbol .rightParen)
      let _ ← pure ((p.2 + callee.receiver.length) % 65536)
      return (callee, p.1)) := by
    simp only [reading_call, counted, bind_assoc, pure_bind]
  rw [hcall]
  refine (runs_callee x).bind fun callee => Runs.token.bind fun _ => ?_
  refine (runs_expressionList h hk).bind fun p => Runs.token.bind fun _ => ?_
  exact (Runs.give _).bind fun _ => .give _

theorem runs_termBehind (h : PacedTerms n names t) (hk : k ≤ n) (start : TermStart) :
    Runs ⟨k, []⟩ ⟨k, []⟩ (Fueled.termBehind .wrapping n t names start) (termBehind names start) := by
  cases start with
  | integer value =>
    change Runs _ _ (.of (termBehind names (.integer value))) _
    rw [termBehind]
    split
    next => exact .fail _
    next => exact .give _
  | string text =>
    change Runs _ _ (.of (termBehind names (.string text))) _
    rw [termBehind]
    split
    next => exact .fail _
    next => exact .give _
  | constant value => exact .give _
  | group =>
    refine ((consumes_expression h List.not_mem_nil List.not_mem_nil).stays hk).bind fun inner => ?_
    exact Runs.token.bind fun _ => .give _
  | unary op => exact ((h [] List.not_mem_nil).stays hk).bind fun operand => .give _
  | named x =>
    refine .choose ((runs_call h hk x).bind fun p => .give _) ((runs_resolving x).bind fun v => ?_)
    refine .choose ?_ (.give _)
    rw [reading_subscript]
    exact ((consumes_enclosed h _ _).stays hk).bind fun index => .give _

theorem paced_term (names : Names) (n : Nat) : PacedTerms n names (Fueled.term .wrapping names n) := by
  induction n with
  | zero =>
    intro rs _ k hk
    obtain rfl := Nat.le_zero.mp hk
    exact .spent
  | succ n ih =>
    intro rs hr k hk
    rw [Fueled.term, reading_term]
    exact .inRule hr ((Runs.take rfl).bind fun start => runs_termBehind ih (by omega) start)

end Expressions

section Statements

variable {names : Names} {n k : Nat} {rs : List Rule} {s : Fueled Statement}

theorem runs_enclosed (hk : k ≤ n) (opening closing : Symbol) :
    Runs ⟨k, []⟩ ⟨k, []⟩ (Fueled.enclosed n (Fueled.term .wrapping names n) opening closing)
      (enclosed names opening closing) :=
  (consumes_enclosed (paced_term names n) opening closing).stays hk

theorem consumes_letStatement (hr : .letStatement ∉ rs) :
    Consumes (n + 1) rs (Fueled.letStatement .wrapping names n) (reading (letStatement names)) := by
  intro k hk
  have hk : k - 1 ≤ n := by omega
  rw [reading_letStatement]
  refine .inRule hr ((Runs.exactly (by simp)).bind fun _ => Runs.token.bind fun x => ?_)
  simp only [reading_subscript, reading_assigned]
  refine (runs_resolving x).bind fun target => .choose ?_ ?_
  · exact (runs_enclosed hk _ _).bind fun index => (runs_enclosed hk _ _).bind fun value => .give _
  · exact (runs_enclosed hk _ _).bind fun value => .give _

theorem consumes_doStatement (hr : .doStatement ∉ rs) :
    Consumes (n + 1) rs (Fueled.doStatement .wrapping names n) (reading (doStatement names)) := by
  intro k hk
  rw [reading_doStatement]
  refine .inRule hr ((Runs.exactly (by simp)).bind fun _ => Runs.token.bind fun x => ?_)
  exact (runs_call (paced_term names n) (by omega) x).bind fun p => Runs.token.bind fun _ => .give _

theorem consumes_returnStatement (hr : .returnStatement ∉ rs) :
    Consumes (n + 1) rs (Fueled.returnStatement .wrapping names n) (reading (returnStatement names)) := by
  intro k hk
  have he : Consumes n [] (Fueled.expression n (Fueled.term .wrapping names n)) (reading (expression names)) :=
    consumes_expression (paced_term names n) List.not_mem_nil List.not_mem_nil
  rw [reading_returnStatement]
  refine .inRule hr ((Runs.exactly (by simp)).bind fun _ => .choose (Runs.token.bind fun _ => .give _) ?_)
  exact (he.stays (by omega)).bind fun value => Runs.token.bind fun _ => .give _

def PacedStatements (n : Nat) (names : Names) (s : Fueled Statement) : Prop :=
  Consumes n [.statements] s (reading (statement names))

theorem runs_statements (h : PacedStatements n names s) (hk : k ≤ n) :
    Runs ⟨k, []⟩ ⟨k, [.statements]⟩ (Fueled.statements n s) (reading (statements names)) := by
  rw [reading_statements]
  exact .inRule List.not_mem_nil (.repeated h hk)

theorem runs_block (h : PacedStatements n names s) (hk : k ≤ n) :
    Runs ⟨k, []⟩ ⟨k, []⟩ (Fueled.block n s) (reading (block names)) := by
  rw [reading_block, Fueled.block, reading_endBlock]
  refine Runs.token.bind fun _ => (runs_statements h hk).bind fun body => ?_
  exact Runs.token.bind fun _ => .give _

theorem consumes_ifStatement (h : PacedStatements n names s) (hr : .ifStatement ∉ rs) :
    Consumes (n + 1) rs (Fueled.ifStatement .wrapping names n s) (reading (ifStatement names)) := by
  intro k hk
  have hk : k - 1 ≤ n := by omega
  rw [reading_ifStatement, reading_condition]
  refine .inRule hr ((Runs.exactly (by simp)).bind fun _ => (runs_enclosed hk _ _).bind fun e => ?_)
  refine (runs_block h hk).bind fun yes => .choose ?_ (.give _)
  exact Runs.token.bind fun _ => (runs_block h hk).bind fun no => .give _

theorem consumes_whileStatement (h : PacedStatements n names s) (hr : .whileStatement ∉ rs) :
    Consumes (n + 1) rs (Fueled.whileStatement .wrapping names n s) (reading (whileStatement names)) := by
  intro k hk
  have hk : k - 1 ≤ n := by omega
  rw [reading_whileStatement, reading_condition]
  refine .inRule hr ((Runs.exactly (by simp)).bind fun _ => (runs_enclosed hk _ _).bind fun e => ?_)
  exact (runs_block h hk).bind fun body => .give _

theorem paced_statement (names : Names) (n : Nat) : PacedStatements n names (Fueled.statement .wrapping names n) := by
  induction n with
  | zero =>
    intro k hk
    obtain rfl := Nat.le_zero.mp hk
    exact .spent
  | succ n ih =>
    intro k hk
    rw [Fueled.statement, reading_statement]
    refine .choose (consumes_letStatement (by decide) k hk) ?_
    refine .choose (consumes_ifStatement ih (by decide) k hk) ?_
    refine .choose (consumes_whileStatement ih (by decide) k hk) ?_
    refine .choose (consumes_doStatement (by decide) k hk) ?_
    exact .choose (consumes_returnStatement (by decide) k hk) (.refuse _)

end Statements

section Classes

variable {n k : Nat} {rs : List Rule}

theorem runs_declaring (kind : VariableKind) (type x : String) (scopes : Scopes) :
    Runs ⟨k, rs⟩ ⟨k, rs⟩ (.of (declaring kind type x scopes)) (declaring kind type x scopes) := by
  unfold declaring
  split
  next => exact .fail _
  next => exact .give _

theorem runs_newName (kind : VariableKind) (type : DataType) (scopes : Scopes) :
    Runs ⟨k, rs⟩ ⟨k, []⟩ (.of (reading (newName kind type scopes))) (reading (newName kind type scopes)) := by
  rw [reading_newName]
  simp only [Fueled.of_bind]
  exact Runs.token.bind fun x => (runs_declaring _ _ _ _).bind fun scopes => .give _

theorem consumes_nextName (kind : VariableKind) (type : DataType) (scopes : Scopes) :
    Consumes n rs (.of (reading (nextName kind type scopes))) (reading (nextName kind type scopes)) := by
  intro k hk
  rw [reading_nextName, Fueled.of_bind]
  exact (Runs.exactly (by simp)).bind fun _ => runs_newName kind type scopes

theorem runs_declaration (kind : VariableKind) (scopes : Scopes) (hk : k ≤ n) :
    Runs ⟨k, rs⟩ ⟨k, []⟩ (Fueled.declaration n kind scopes) (reading (declaration kind scopes)) := by
  rw [reading_declaration]
  refine Runs.token.bind fun type => (runs_newName kind type scopes).bind fun p => ?_
  refine (Runs.loop (fun scopes => consumes_nextName kind type scopes) hk _ _).bind fun q => ?_
  exact Runs.token.bind fun _ => .give _

theorem consumes_classVarDec (hr : .classVarDec ∉ rs) (scopes : Scopes) :
    Consumes n rs (Fueled.classVarDec n scopes) (reading (classVarDec scopes)) := by
  intro k hk
  rw [reading_classVarDec]
  exact .inRule hr ((Runs.take rfl).bind fun kind => runs_declaration kind scopes (by omega))

theorem consumes_varDec (hr : .varDec ∉ rs) (scopes : Scopes) :
    Consumes n rs (Fueled.varDec n scopes) (reading (varDec scopes)) := by
  intro k hk
  rw [reading_varDec]
  exact .inRule hr ((Runs.exactly (by simp)).bind fun _ => runs_declaration .local scopes (by omega))

theorem runs_parameter (scopes : Scopes) :
    Runs ⟨k, rs⟩ ⟨k, []⟩ (.of (reading (parameter scopes))) (reading (parameter scopes)) := by
  rw [reading_parameter]
  simp only [Fueled.of_bind]
  exact Runs.token.bind fun type => (runs_newName .argument type scopes).bind fun p => .give _

theorem consumes_nextParameter (scopes : Scopes) :
    Consumes n rs (.of (reading (nextParameter scopes))) (reading (nextParameter scopes)) := by
  intro k hk
  rw [reading_nextParameter, Fueled.of_bind]
  exact (Runs.exactly (by simp)).bind fun _ => runs_parameter scopes

theorem runs_parameterList (scopes : Scopes) (hk : k ≤ n) :
    Runs ⟨k, []⟩ ⟨k, [.parameterList]⟩ (Fueled.parameterList n scopes) (reading (parameterList scopes)) := by
  rw [reading_parameterList]
  refine .inRule List.not_mem_nil (.choose (.give _) ((runs_parameter scopes).bind fun p => ?_))
  exact (Runs.loop consumes_nextParameter hk _ _).weaken.bind fun q => .give _

theorem consumes_subroutineBody (hr : .subroutineBody ∉ rs) (className : String) (scopes : Scopes) :
    Consumes n rs (Fueled.subroutineBody .wrapping n className scopes) (reading (subroutineBody className scopes)) := by
  intro k hk
  have hk : k - 1 ≤ n := by omega
  rw [reading_subroutineBody, Fueled.subroutineBody, reading_endBlock]
  refine .inRule hr ((Runs.exactly (by simp)).bind fun _ => ?_)
  refine (Runs.loop (consumes_varDec List.not_mem_nil) hk _ _).bind fun p => ?_
  exact (runs_statements (paced_statement _ n) hk).bind fun body => Runs.token.bind fun _ => .give _

theorem consumes_subroutine (hr : .subroutineDec ∉ rs) (className : String) (scopes : Scopes) :
    Consumes n rs (Fueled.subroutine .wrapping n className scopes) (reading (subroutine className scopes)) := by
  intro k hk
  have hk : k - 1 ≤ n := by omega
  rw [reading_subroutine, Fueled.subroutine]
  refine .inRule hr ((Runs.take rfl).bind fun kind => Runs.token.bind fun type => Runs.token.bind fun x => ?_)
  rw [reading_receiver, Fueled.of_pure]
  refine (Runs.give _).bind fun scopes => Runs.token.bind fun _ => (runs_parameterList scopes hk).bind fun p => ?_
  refine Runs.token.bind fun _ => ?_
  exact ((consumes_subroutineBody List.not_mem_nil className p.2).stays hk).bind fun q => .give _

theorem consumes_classDec : Consumes n [] (Fueled.classDec .wrapping n) (reading classDec) := by
  intro k hk
  have hk : k - 1 ≤ n := by omega
  rw [reading_classDec, Fueled.classDec, reading_endClass]
  refine .inRule List.not_mem_nil ((Runs.exactly (by simp)).bind fun _ => ?_)
  refine Runs.token.bind fun x => Runs.token.bind fun _ => ?_
  refine (Runs.loop (consumes_classVarDec List.not_mem_nil) hk _ _).bind fun p => ?_
  refine (Runs.repeated (consumes_subroutine List.not_mem_nil x p.2) hk).bind fun subroutines => ?_
  exact Runs.token.bind fun _ => .give _

theorem runs_parse (hk : k ≤ n) : Runs ⟨k, []⟩ ⟨k, []⟩ (Fueled.parse .wrapping n) parse := by
  rw [parse_eq]
  exact (consumes_classDec.stays hk).bind fun c => Runs.token.bind fun _ => .give _

end Classes

end Jack.Parse
