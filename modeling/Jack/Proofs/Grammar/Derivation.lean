import Jack.Proofs.Grammar.Production
import Mathlib.Tactic.Simproc.ExistsAndEq

namespace Jack.Grammar

open scoped Computability
open Event (span parenthesized bracketed braced)

section Parts

variable {X : Rule → Language Event} {es : List Event} {e : RegularExpression Part}

@[simp] theorem mem_keyword (k : Keyword) :
    es ∈ expand (fill X) (Production.keyword k) ↔ [.keyword k] = es := by
  constructor
  · rintro ⟨t, ht, rfl⟩
    cases t <;> cases ht
    rfl
  · rintro rfl
    exact ⟨.keyword k, rfl, rfl⟩

@[simp] theorem mem_symbol (s : Symbol) :
    es ∈ expand (fill X) (Production.symbol s) ↔ [.symbol s] = es := by
  constructor
  · rintro ⟨t, ht, rfl⟩
    cases t <;> cases ht
    rfl
  · rintro rfl
    exact ⟨.symbol s, rfl, rfl⟩

@[simp] theorem mem_identifier :
    es ∈ expand (fill X) Production.identifier ↔ ∃ x, [.word x] = es := by
  constructor
  · rintro ⟨t, ht, rfl⟩
    cases t <;> cases ht
    exact ⟨_, rfl⟩
  · rintro ⟨x, rfl⟩
    exact ⟨.identifier x, rfl, rfl⟩

@[simp] theorem mem_integer :
    es ∈ expand (fill X) Production.integer ↔ ∃ n, [.consumed (.integer n)] = es := by
  constructor
  · rintro ⟨t, ht, rfl⟩
    cases t <;> cases ht
    exact ⟨_, rfl⟩
  · rintro ⟨n, rfl⟩
    exact ⟨.integer n, rfl, rfl⟩

@[simp] theorem mem_string :
    es ∈ expand (fill X) Production.string ↔ ∃ x, [.consumed (.string x)] = es := by
  constructor
  · rintro ⟨t, ht, rfl⟩
    cases t <;> cases ht
    exact ⟨_, rfl⟩
  · rintro ⟨x, rfl⟩
    exact ⟨.string x, rfl, rfl⟩

@[simp] theorem mem_rule (r : Rule) : es ∈ expand (fill X) (Production.rule r) ↔ es ∈ X r := Iff.rfl

@[simp] theorem mem_parenthesized :
    es ∈ expand (fill X) (Production.parenthesized e) ↔
      ∃ fs ∈ expand (fill X) e, parenthesized fs = es := by
  simp [Production.parenthesized, parenthesized]

@[simp] theorem mem_bracketed :
    es ∈ expand (fill X) (Production.bracketed e) ↔ ∃ fs ∈ expand (fill X) e, bracketed fs = es := by
  simp [Production.bracketed, bracketed]

@[simp] theorem mem_braced :
    es ∈ expand (fill X) (Production.braced e) ↔ ∃ fs ∈ expand (fill X) e, braced fs = es := by
  simp [Production.braced, braced]

theorem mem_star_iff {α : Type} {f : α → List Event}
    (h : ∀ fs, fs ∈ expand (fill X) e ↔ ∃ a, f a = fs) :
    es ∈ expand (fill X) e.star ↔ ∃ as : List α, as.flatMap f = es := by
  refine Language.mem_kstar.trans ⟨?_, ?_⟩
  · rintro ⟨words, rfl, hw⟩
    induction words with
    | nil => exact ⟨[], rfl⟩
    | cons w words ih =>
      obtain ⟨hwm, hws⟩ := List.forall_mem_cons.mp hw
      obtain ⟨a, rfl⟩ := (h w).mp hwm
      obtain ⟨as, has⟩ := ih hws
      exact ⟨a :: as, by rw [List.flatMap_cons, has, List.flatten_cons]⟩
  · rintro ⟨as, rfl⟩
    refine ⟨as.map f, List.flatMap_def .., fun w hw => ?_⟩
    obtain ⟨a, -, rfl⟩ := List.mem_map.mp hw
    exact (h _).mpr ⟨a, rfl⟩

@[simp] theorem mem_type :
    es ∈ expand (fill X) Production.type ↔ ∃ t : DataType, [.consumed t.token] = es := by
  simp only [Production.type, mem_add, mem_keyword, mem_identifier]
  constructor
  · rintro (((rfl | rfl) | rfl) | ⟨x, rfl⟩)
    · exact ⟨.int, rfl⟩
    · exact ⟨.char, rfl⟩
    · exact ⟨.boolean, rfl⟩
    · exact ⟨.object x, rfl⟩
  · rintro ⟨t, rfl⟩
    cases t <;> simp [DataType.token]

@[simp] theorem mem_returnType :
    es ∈ expand (fill X) Production.returnType ↔ ∃ t : ReturnType, [.consumed t.token] = es := by
  simp only [Production.returnType, mem_add, mem_keyword, mem_type]
  constructor
  · rintro (rfl | ⟨t, rfl⟩)
    exacts [⟨.void, rfl⟩, ⟨.value t, rfl⟩]
  · rintro ⟨t, rfl⟩
    cases t <;> simp [ReturnType.token]

@[simp] theorem mem_classVariable :
    es ∈ expand (fill X) Production.classVariable ↔
      ∃ k : ClassVariable, [.keyword k.keyword] = es := by
  simp only [Production.classVariable, mem_add, mem_keyword]
  constructor
  · rintro (rfl | rfl)
    exacts [⟨.static, rfl⟩, ⟨.field, rfl⟩]
  · rintro ⟨k, rfl⟩
    cases k <;> simp [ClassVariable.keyword]

@[simp] theorem mem_subroutine :
    es ∈ expand (fill X) Production.subroutine ↔
      ∃ k : SubroutineKind, [.keyword k.keyword] = es := by
  simp only [Production.subroutine, mem_add, mem_keyword]
  constructor
  · rintro ((rfl | rfl) | rfl)
    exacts [⟨.constructor, rfl⟩, ⟨.function, rfl⟩, ⟨.method, rfl⟩]
  · rintro ⟨k, rfl⟩
    cases k <;> simp [SubroutineKind.keyword]

@[simp] theorem mem_declared :
    es ∈ expand (fill X) Production.declared ↔ ∃ d : Variables, d.derivation = es := by
  have hm (es : List Event) :
      es ∈ expand (fill X) (Production.symbol .comma * Production.identifier) ↔
        ∃ x, [.symbol .comma, .word x] = es := by
    simp
  simp only [Production.declared, mem_mul, mem_type, mem_identifier, mem_symbol,
    mem_star_iff hm]
  constructor
  · rintro ⟨_, ⟨_, ⟨_, ⟨t, rfl⟩, _, ⟨x, rfl⟩, rfl⟩, _, ⟨xs, rfl⟩, rfl⟩, _, rfl, rfl⟩
    exact ⟨⟨t, x, xs⟩, by simp [Variables.derivation]⟩
  · rintro ⟨d, rfl⟩
    refine ⟨_, ⟨_, ⟨_, ⟨d.type, rfl⟩, _, ⟨d.first, rfl⟩, rfl⟩, _, ⟨d.more, rfl⟩, rfl⟩, _, rfl, ?_⟩
    simp [Variables.derivation]

@[simp] theorem mem_constant :
    es ∈ expand (fill X) Production.constant ↔ ∃ c : NamedConstant, [.keyword c.keyword] = es := by
  simp only [Production.constant, mem_add, mem_keyword]
  constructor
  · rintro (((rfl | rfl) | rfl) | rfl)
    exacts [⟨.true, rfl⟩, ⟨.false, rfl⟩, ⟨.null, rfl⟩, ⟨.this, rfl⟩]
  · rintro ⟨c, rfl⟩
    cases c <;> simp [NamedConstant.keyword]

@[simp] theorem mem_operator :
    es ∈ expand (fill X) Production.operator ↔ ∃ op : BinaryOp, [.symbol op.symbol] = es := by
  simp only [Production.operator, mem_add, mem_symbol]
  constructor
  · rintro ((((((((rfl | rfl) | rfl) | rfl) | rfl) | rfl) | rfl) | rfl) | rfl)
    exacts [⟨.add, rfl⟩, ⟨.sub, rfl⟩, ⟨.mul, rfl⟩, ⟨.div, rfl⟩, ⟨.and, rfl⟩, ⟨.or, rfl⟩, ⟨.lt, rfl⟩,
      ⟨.gt, rfl⟩, ⟨.eq, rfl⟩]
  · rintro ⟨op, rfl⟩
    cases op <;> simp [BinaryOp.symbol]

@[simp] theorem mem_unaryOperator :
    es ∈ expand (fill X) Production.unaryOperator ↔ ∃ op : UnaryOp, [.symbol op.symbol] = es := by
  simp only [Production.unaryOperator, mem_add, mem_symbol]
  constructor
  · rintro (rfl | rfl)
    exacts [⟨.neg, rfl⟩, ⟨.not, rfl⟩]
  · rintro ⟨op, rfl⟩
    cases op <;> simp [UnaryOp.symbol]

@[simp] theorem mem_call :
    es ∈ expand (fill X) Production.call ↔ ∃ called : Called, ∃ fs ∈ X .expressionList,
      called.derivation ++ parenthesized fs = es := by
  simp only [Production.call, mem_mul, mem_add, mem_identifier,
    mem_symbol, mem_parenthesized, mem_rule]
  constructor
  · rintro ⟨_, ⟨x, rfl⟩ | ⟨_, ⟨_, ⟨x, rfl⟩, _, rfl, rfl⟩, _, ⟨y, rfl⟩, rfl⟩, _, ⟨fs, hf, rfl⟩, rfl⟩
    · exact ⟨.plain x, fs, hf, rfl⟩
    · exact ⟨.dotted x y, fs, hf, rfl⟩
  · rintro ⟨called, fs, hf, rfl⟩
    refine ⟨called.derivation, ?_, _, ⟨fs, hf, rfl⟩, rfl⟩
    cases called with
    | plain x => exact .inl ⟨x, rfl⟩
    | dotted x y => exact .inr ⟨_, ⟨_, ⟨x, rfl⟩, _, rfl, rfl⟩, _, ⟨y, rfl⟩, rfl⟩

@[simp] theorem mem_block :
    es ∈ expand (fill X) Production.block ↔ ∃ fs ∈ X .statements, braced fs = es := mem_braced

end Parts

theorem Expression.derivationRest_eq (rest : List (BinaryOp × Term)) :
    Expression.derivationRest rest = rest.flatMap fun p => .symbol p.1.symbol :: p.2.derivation := by
  induction rest with
  | nil => rfl
  | cons p rest ih => rw [Expression.derivationRest, ih, List.flatMap_cons, List.cons_append]

theorem Expression.derivationMore_eq (es : List Expression) :
    Expression.derivationMore es = es.flatMap fun e => .symbol .comma :: e.derivation := by
  induction es with
  | nil => rfl
  | cons e es ih => rw [Expression.derivationMore, ih, List.flatMap_cons, List.cons_append]

theorem Statement.derivationAll_eq (ss : List Statement) :
    Statement.derivationAll ss = ss.flatMap (·.derivation) := by
  induction ss with
  | nil => rfl
  | cons s ss ih => rw [Statement.derivationAll, ih, List.flatMap_cons]

def Statement.rule : Statement → Rule
  | .assign _ _ | .store _ _ _ => .letStatement
  | .ifThen _ _ | .ifElse _ _ _ => .ifStatement
  | .while _ _ => .whileStatement
  | .do _ _ => .doStatement
  | .return _ => .returnStatement

def derivations : Rule → Language Event
  | .class => {es | ∃ c : Class, c.derivation = es}
  | .classVarDec => {es | ∃ d : ClassVariable × Variables, classVarDec d = es}
  | .subroutineDec => {es | ∃ s : Subroutine, s.derivation = es}
  | .parameterList => {es | ∃ ps, span .parameterList (parameterDerivations ps) = es}
  | .subroutineBody => {es | ∃ (ds : List Variables) (ss : List Statement), span .subroutineBody
    (braced (ds.flatMap varDec ++ span .statements (Statement.derivationAll ss))) = es}
  | .varDec => {es | ∃ d : Variables, varDec d = es}
  | .statements => {es | ∃ ss, span .statements (Statement.derivationAll ss) = es}
  | .expression => {es | ∃ e : Expression, e.derivation = es}
  | .term => {es | ∃ t : Term, t.derivation = es}
  | .expressionList => {es | ∃ as, span .expressionList (Expression.derivationAll as) = es}
  | r => {es | ∃ s : Statement, s.rule = r ∧ s.derivation = es}

def Told (r : Rule) : Prop :=
  ∀ es, es ∈ derivations r ↔ ∃ inner ∈ expand (fill derivations) (production r), span r inner = es

section Rules

variable {fs : List Event}

theorem mem_term : fs ∈ expand (fill derivations) (Production.rule .term) ↔
    ∃ t : Term, t.derivation = fs := Iff.rfl

theorem mem_expression : fs ∈ expand (fill derivations) (Production.rule .expression) ↔
    ∃ e : Expression, e.derivation = fs := Iff.rfl

theorem mem_expressionList : fs ∈ derivations .expressionList ↔
    ∃ as, span .expressionList (Expression.derivationAll as) = fs := Iff.rfl

theorem mem_statements : fs ∈ derivations .statements ↔
    ∃ ss, span .statements (Statement.derivationAll ss) = fs := Iff.rfl

theorem told_class : Told .class := by
  intro es
  have hd (fs : List Event) : fs ∈ expand (fill derivations) (Production.rule .classVarDec) ↔
      ∃ d, classVarDec d = fs := Iff.rfl
  have hs (fs : List Event) : fs ∈ expand (fill derivations) (Production.rule .subroutineDec) ↔
      ∃ s : Subroutine, s.derivation = fs := Iff.rfl
  simp only [production, mem_mul, mem_keyword, mem_identifier, mem_braced,
    mem_star_iff hd, mem_star_iff hs, existsAndEq, true_and, ← exists_and_right]
  constructor
  · rintro ⟨⟨name, ds, ss⟩, rfl⟩
    exact ⟨name, ds, ss, rfl⟩
  · rintro ⟨name, ds, ss, rfl⟩
    exact ⟨⟨name, ds, ss⟩, rfl⟩

theorem told_classVarDec : Told .classVarDec := by
  intro es
  simp only [production, mem_mul, mem_classVariable, mem_declared, existsAndEq,
    true_and, ← exists_and_right]
  constructor
  · rintro ⟨⟨kind, d⟩, rfl⟩
    exact ⟨kind, d, rfl⟩
  · rintro ⟨kind, d, rfl⟩
    exact ⟨⟨kind, d⟩, rfl⟩

theorem told_varDec : Told .varDec := by
  intro es
  simp only [production, mem_mul, mem_keyword, mem_declared, existsAndEq, true_and]
  rfl

theorem told_subroutineDec : Told .subroutineDec := by
  intro es
  have hp (fs : List Event) : fs ∈ expand (fill derivations) (Production.rule .parameterList) ↔
      ∃ ps, span .parameterList (parameterDerivations ps) = fs := Iff.rfl
  have hb (fs : List Event) : fs ∈ expand (fill derivations) (Production.rule .subroutineBody) ↔
      ∃ (ds : List Variables) (ss : List Statement), span .subroutineBody
        (braced (ds.flatMap varDec ++ span .statements (Statement.derivationAll ss))) = fs := Iff.rfl
  simp only [production, mem_mul, mem_subroutine, mem_returnType, mem_identifier,
    mem_parenthesized, hp, hb, existsAndEq, true_and, ← exists_and_right]
  constructor
  · rintro ⟨⟨kind, type, name, ps, ds, ss⟩, rfl⟩
    exact ⟨kind, type, name, ps, ds, ss, rfl⟩
  · rintro ⟨kind, type, name, ps, ds, ss, rfl⟩
    exact ⟨⟨kind, type, name, ps, ds, ss⟩, rfl⟩

theorem told_parameterList : Told .parameterList := by
  intro es
  have hp (fs : List Event) : fs ∈ expand (fill derivations)
      (Production.symbol .comma * Production.type * Production.identifier) ↔
        ∃ p : Parameter, .symbol .comma :: parameterDerivation p = fs := by
    simp only [mem_mul, mem_symbol, mem_type, mem_identifier, existsAndEq, true_and,
      ← exists_and_right]
    constructor
    · rintro ⟨type, name, rfl⟩
      exact ⟨⟨type, name⟩, rfl⟩
    · rintro ⟨⟨type, name⟩, rfl⟩
      exact ⟨type, name, rfl⟩
  simp only [production, mem_add, mem_one, mem_mul, mem_type, mem_identifier, mem_star_iff hp,
    existsAndEq, true_and, ← exists_and_right, or_and_right, exists_or, exists_eq_left]
  constructor
  · rintro ⟨ps, rfl⟩
    cases ps with
    | nil => exact .inl rfl
    | cons p ps => exact .inr ⟨p.type, p.name, ps, rfl⟩
  · rintro (rfl | ⟨type, name, ps, rfl⟩)
    · exact ⟨[], rfl⟩
    · exact ⟨⟨type, name⟩ :: ps, rfl⟩

theorem told_subroutineBody : Told .subroutineBody := by
  intro es
  have hd (fs : List Event) : fs ∈ expand (fill derivations) (Production.rule .varDec) ↔
      ∃ d, varDec d = fs := Iff.rfl
  simp only [production, mem_mul, mem_braced, mem_star_iff hd, mem_rule, mem_statements,
    existsAndEq, true_and, ← exists_and_right]
  rfl

theorem mem_statement : fs ∈ expand (fill derivations) Production.statement ↔
    ∃ s : Statement, s.derivation = fs := by
  simp only [Production.statement, mem_add, mem_rule]
  constructor
  · rintro ((((⟨s, -, rfl⟩ | ⟨s, -, rfl⟩) | ⟨s, -, rfl⟩) | ⟨s, -, rfl⟩) | ⟨s, -, rfl⟩) <;>
      exact ⟨s, rfl⟩
  · rintro ⟨s, rfl⟩
    cases hs : s.rule with
    | letStatement => exact .inl (.inl (.inl (.inl ⟨s, hs, rfl⟩)))
    | ifStatement => exact .inl (.inl (.inl (.inr ⟨s, hs, rfl⟩)))
    | whileStatement => exact .inl (.inl (.inr ⟨s, hs, rfl⟩))
    | doStatement => exact .inl (.inr ⟨s, hs, rfl⟩)
    | returnStatement => exact .inr ⟨s, hs, rfl⟩
    | _ => cases s <;> cases hs

theorem told_statements : Told .statements := by
  intro es
  simp only [production, mem_star_iff fun _ => mem_statement, existsAndEq, true_and,
    ← Statement.derivationAll_eq]
  rfl

theorem told_letStatement : Told .letStatement := by
  intro es
  simp only [production, mem_add, mem_one, mem_mul, mem_keyword, mem_identifier, mem_symbol,
    mem_bracketed, mem_expression, existsAndEq, true_and, ← exists_and_right, or_and_right, exists_or,
    exists_eq_left]
  constructor
  · rintro ⟨s, hs, rfl⟩
    cases s with
    | assign x value => exact .inl ⟨x, value, by simp [Statement.derivation]⟩
    | store x index value => exact .inr ⟨x, index, value, by simp [Statement.derivation]⟩
    | ifThen | ifElse | «while» | «do» | «return» => cases hs
  · rintro (⟨x, value, rfl⟩ | ⟨x, index, value, rfl⟩)
    · exact ⟨.assign x value, rfl, by simp [Statement.derivation]⟩
    · exact ⟨.store x index value, rfl, by simp [Statement.derivation]⟩

theorem told_ifStatement : Told .ifStatement := by
  intro es
  simp only [production, mem_add, mem_one, mem_mul, mem_keyword, mem_parenthesized, mem_block,
    mem_statements, mem_expression, existsAndEq, true_and, ← exists_and_right, or_and_right, exists_or,
    exists_eq_left]
  constructor
  · rintro ⟨s, hs, rfl⟩
    cases s with
    | ifThen condition yes => exact .inl ⟨condition, yes, by simp [Statement.derivation]⟩
    | ifElse condition yes no => exact .inr ⟨condition, yes, no, by simp [Statement.derivation]⟩
    | assign | store | «while» | «do» | «return» => cases hs
  · rintro (⟨condition, yes, rfl⟩ | ⟨condition, yes, no, rfl⟩)
    · exact ⟨.ifThen condition yes, rfl, by simp [Statement.derivation]⟩
    · exact ⟨.ifElse condition yes no, rfl, by simp [Statement.derivation]⟩

theorem told_whileStatement : Told .whileStatement := by
  intro es
  simp only [production, mem_mul, mem_keyword, mem_parenthesized, mem_block,
    mem_statements, mem_expression, existsAndEq, true_and, ← exists_and_right]
  constructor
  · rintro ⟨s, hs, rfl⟩
    cases s with
    | «while» condition body => exact ⟨condition, body, by simp [Statement.derivation]⟩
    | assign | store | ifThen | ifElse | «do» | «return» => cases hs
  · rintro ⟨condition, body, rfl⟩
    exact ⟨.while condition body, rfl, by simp [Statement.derivation]⟩

theorem told_doStatement : Told .doStatement := by
  intro es
  simp only [production, mem_mul, mem_keyword, mem_call, mem_symbol, mem_expressionList,
    existsAndEq, true_and, ← exists_and_right]
  constructor
  · rintro ⟨s, hs, rfl⟩
    cases s with
    | «do» called arguments => exact ⟨called, arguments, by simp [Statement.derivation]⟩
    | assign | store | ifThen | ifElse | «while» | «return» => cases hs
  · rintro ⟨called, arguments, rfl⟩
    exact ⟨.do called arguments, rfl, by simp [Statement.derivation]⟩

theorem told_returnStatement : Told .returnStatement := by
  intro es
  simp only [production, mem_add, mem_one, mem_mul, mem_keyword, mem_symbol, mem_expression,
    existsAndEq, true_and, ← exists_and_right, or_and_right, exists_or, exists_eq_left]
  constructor
  · rintro ⟨s, hs, rfl⟩
    cases s with
    | «return» value =>
      cases value with
      | none => exact .inl (by simp [Statement.derivation])
      | some value => exact .inr ⟨value, by simp [Statement.derivation]⟩
    | assign | store | ifThen | ifElse | «while» | «do» => cases hs
  · rintro (rfl | ⟨value, rfl⟩)
    · exact ⟨.return none, rfl, by simp [Statement.derivation]⟩
    · exact ⟨.return (some value), rfl, by simp [Statement.derivation]⟩

theorem told_expression : Told .expression := by
  intro es
  have hr (fs : List Event) :
      fs ∈ expand (fill derivations) (Production.operator * Production.rule .term) ↔
        ∃ p : BinaryOp × Term, .symbol p.1.symbol :: p.2.derivation = fs := by
    simp only [mem_mul, mem_operator, mem_term, existsAndEq, true_and,
      ← exists_and_right, Prod.exists]
    rfl
  simp only [production, mem_mul, mem_term, mem_star_iff hr, existsAndEq, true_and,
    ← exists_and_right]
  constructor
  · rintro ⟨⟨first, rest⟩, rfl⟩
    exact ⟨first, rest, by rw [Expression.derivation, Expression.derivationRest_eq]⟩
  · rintro ⟨first, rest, rfl⟩
    exact ⟨.chain first rest, by rw [Expression.derivation, Expression.derivationRest_eq]⟩

theorem told_term : Told .term := by
  intro es
  simp only [production, mem_add, mem_mul, mem_integer, mem_string,
    mem_constant, mem_identifier, mem_bracketed, mem_parenthesized, mem_call, mem_unaryOperator,
    mem_term, mem_expression, mem_expressionList, existsAndEq, true_and, ← exists_and_right,
    or_and_right, exists_or, or_assoc]
  constructor
  · rintro ⟨t, rfl⟩
    cases t with
    | integer n => exact .inl ⟨n, rfl⟩
    | string x => exact .inr (.inl ⟨x, rfl⟩)
    | constant c => exact .inr (.inr (.inl ⟨c, rfl⟩))
    | name x => exact .inr (.inr (.inr (.inl ⟨x, rfl⟩)))
    | element x index => exact .inr (.inr (.inr (.inr (.inl ⟨x, index, rfl⟩))))
    | call called arguments => exact .inr (.inr (.inr (.inr (.inr (.inl ⟨called, arguments, rfl⟩)))))
    | group inner => exact .inr (.inr (.inr (.inr (.inr (.inr (.inl ⟨inner, rfl⟩))))))
    | unary op operand => exact .inr (.inr (.inr (.inr (.inr (.inr (.inr ⟨op, operand, rfl⟩))))))
  · rintro (⟨n, rfl⟩ | ⟨x, rfl⟩ | ⟨c, rfl⟩ | ⟨x, rfl⟩ | ⟨x, index, rfl⟩ | ⟨called, arguments, rfl⟩ |
      ⟨inner, rfl⟩ | ⟨op, operand, rfl⟩)
    exacts [⟨.integer n, rfl⟩, ⟨.string x, rfl⟩, ⟨.constant c, rfl⟩, ⟨.name x, rfl⟩,
      ⟨.element x index, rfl⟩, ⟨.call called arguments, rfl⟩, ⟨.group inner, rfl⟩,
      ⟨.unary op operand, rfl⟩]

theorem told_expressionList : Told .expressionList := by
  intro es
  have hm (fs : List Event) :
      fs ∈ expand (fill derivations) (Production.symbol .comma * Production.rule .expression) ↔
        ∃ e : Expression, .symbol .comma :: e.derivation = fs := by
    simp only [mem_mul, mem_symbol, mem_expression, existsAndEq, true_and]
    rfl
  simp only [production, mem_add, mem_one, mem_mul, mem_expression, mem_star_iff hm, existsAndEq,
    true_and, ← exists_and_right, or_and_right, exists_or, exists_eq_left,
    ← Expression.derivationMore_eq]
  constructor
  · rintro ⟨as, rfl⟩
    cases as with
    | nil => exact .inl rfl
    | cons a as => exact .inr ⟨a, as, rfl⟩
  · rintro (rfl | ⟨a, as, rfl⟩)
    · exact ⟨[], rfl⟩
    · exact ⟨a :: as, rfl⟩

end Rules

/-- What the rules are read from is what the productions tell. -/
theorem solves_derivations : Solves derivations := by
  intro r
  cases r with
  | «class» => exact told_class
  | classVarDec => exact told_classVarDec
  | subroutineDec => exact told_subroutineDec
  | parameterList => exact told_parameterList
  | subroutineBody => exact told_subroutineBody
  | varDec => exact told_varDec
  | statements => exact told_statements
  | letStatement => exact told_letStatement
  | ifStatement => exact told_ifStatement
  | whileStatement => exact told_whileStatement
  | doStatement => exact told_doStatement
  | returnStatement => exact told_returnStatement
  | expression => exact told_expression
  | term => exact told_term
  | expressionList => exact told_expressionList

end Jack.Grammar
