import Jack.Parse.Rules
import Jack.Proofs.Grammar.Tree

namespace Jack

/-- The declaration of one name. -/
structure Entry where
  kind : VariableKind
  type : String
  name : String

namespace Scopes

def enter? (s : Scopes) (e : Entry) : Option Scopes :=
  if s.refusal? e.name e.kind = none then some (s.insert e.name e.type e.kind) else none

def enterAll (s : Scopes) : List Entry → Option Scopes
  | [] => some s
  | e :: es => (s.enter? e).bind (·.enterAll es)

@[simp] theorem enterAll_nil (s : Scopes) : s.enterAll [] = some s := rfl

@[simp] theorem enterAll_cons (s : Scopes) (e : Entry) (es : List Entry) :
    s.enterAll (e :: es) = (s.enter? e).bind (·.enterAll es) := rfl

@[simp] theorem enterAll_append (s : Scopes) (es fs : List Entry) :
    s.enterAll (es ++ fs) = (s.enterAll es).bind (·.enterAll fs) := by
  induction es generalizing s with
  | nil => rfl
  | cons e es ih =>
    cases h : s.enter? e with
    | none => simp [h]
    | some t => simp [h, ih]

end Scopes

namespace Grammar

section

variable {α β γ δ : Type} {a : Option α} {b : Option β} {c : Option γ}

theorem bind₂_eq_some_iff {f : α → β → γ} {r : γ} :
    (do let x ← a; let y ← b; some (f x y) : Option γ) = some r ↔
      ∃ x, a = some x ∧ ∃ y, b = some y ∧ f x y = r := by
  simp only [Option.bind_eq_bind, Option.bind_eq_some_iff, Option.some.injEq]

theorem bind₃_eq_some_iff {f : α → β → γ → δ} {r : δ} :
    (do let x ← a; let y ← b; let z ← c; some (f x y z) : Option δ) = some r ↔
      ∃ x, a = some x ∧ ∃ y, b = some y ∧ ∃ z, c = some z ∧ f x y z = r := by
  simp only [Option.bind_eq_bind, Option.bind_eq_some_iff, Option.some.injEq]

theorem isSome_bind₂ {f : α → β → γ} :
    (do let x ← a; let y ← b; some (f x y) : Option γ).isSome ↔ a.isSome ∧ b.isSome := by
  cases a <;> cases b <;> simp

theorem isSome_bind₃ {f : α → β → γ → δ} :
    (do let x ← a; let y ← b; let z ← c; some (f x y z) : Option δ).isSome ↔
      a.isSome ∧ b.isSome ∧ c.isSome := by
  cases a <;> cases b <;> cases c <;> simp

end

def Called.resolve (names : Names) : Called → Callee
  | .plain x => .own names.className x
  | .dotted x y =>
    match names.scopes.resolve? x with
    | some v => .method v y
    | none => .function x y

mutual

def Term.resolve (names : Names) : Term → Option Jack.Term
  | .integer value => if value ≤ maxConstant then some (.integer value) else none
  | .string text => if Parse.stringFault? text = none then some (.string text) else none
  | .constant value => some (.constant value)
  | .name x => (names.scopes.resolve? x).map .variable
  | .element x index => do
    let v ← names.scopes.resolve? x
    let i ← index.resolve names
    some (.element v i)
  | .call called arguments =>
    (Expression.resolveAll names arguments).map (.call (called.resolve names))
  | .group inner => (inner.resolve names).map .group
  | .unary op operand => (operand.resolve names).map (.unary op)
termination_by structural t => t

def Expression.resolve (names : Names) : Expression → Option Jack.Expression
  | .chain first rest => do
    let t ← first.resolve names
    let ts ← Expression.resolveRest names rest
    some (.chain t ts)
termination_by structural e => e

def Expression.resolveRest (names : Names) :
    List (BinaryOp × Term) → Option (List (BinaryOp × Jack.Term))
  | [] => some []
  | (op, operand) :: rest => do
    let t ← operand.resolve names
    let ts ← Expression.resolveRest names rest
    some ((op, t) :: ts)
termination_by structural rest => rest

def Expression.resolveAll (names : Names) : List Expression → Option (List Jack.Expression)
  | [] => some []
  | e :: es => do
    let r ← e.resolve names
    let rs ← Expression.resolveAll names es
    some (r :: rs)
termination_by structural es => es

end

mutual

def Statement.resolve (names : Names) : Statement → Option Jack.Statement
  | .assign x value => do
    let v ← names.scopes.resolve? x
    let e ← value.resolve names
    some (.assign v e)
  | .store x index value => do
    let v ← names.scopes.resolve? x
    let i ← index.resolve names
    let e ← value.resolve names
    some (.store v i e)
  | .ifThen condition yes => do
    let e ← condition.resolve names
    let ys ← Statement.resolveAll names yes
    some (.ifThen e ys)
  | .ifElse condition yes no => do
    let e ← condition.resolve names
    let ys ← Statement.resolveAll names yes
    let ns ← Statement.resolveAll names no
    some (.ifElse e ys ns)
  | .while condition body => do
    let e ← condition.resolve names
    let ss ← Statement.resolveAll names body
    some (.while e ss)
  | .do called arguments =>
    (Expression.resolveAll names arguments).map (.do (called.resolve names))
  | .return none => some (.return none)
  | .return (some value) => (value.resolve names).map fun e => .return (some e)

def Statement.resolveAll (names : Names) : List Statement → Option (List Jack.Statement)
  | [] => some []
  | s :: ss => do
    let r ← s.resolve names
    let rs ← Statement.resolveAll names ss
    some (r :: rs)

end

def Variables.entries (kind : VariableKind) (d : Variables) : List Entry :=
  d.names.map (⟨kind, d.type.name, ·⟩)

def Variables.declaration (kind : VariableKind) (d : Variables) : Declaration :=
  ⟨kind, d.type, d.first, d.more⟩

def ClassVariable.kind : ClassVariable → VariableKind
  | .static => .static
  | .field => .field

/-- The object that a method is called on is declared before its parameters. -/
def receiverEntry (className : String) : SubroutineKind → List Entry
  | .method => [⟨.argument, className, "this"⟩]
  | .constructor | .function => []

def parameterEntry (p : Parameter) : Entry :=
  ⟨.argument, p.type.name, p.name⟩

namespace Subroutine

def entries (className : String) (s : Subroutine) : List Entry :=
  receiverEntry className s.kind ++ s.parameters.map parameterEntry ++
    s.locals.flatMap (·.entries .local)

def resolve (className : String) (scopes : Scopes) (s : Subroutine) : Option Jack.Subroutine := do
  let scopes ← scopes.leaveSubroutine.enterAll (s.entries className)
  let body ← Statement.resolveAll ⟨className, scopes⟩ s.body
  some ⟨s.kind, s.returnType, s.name, s.parameters, s.locals.map (·.declaration .local), body⟩

theorem resolve_eq_some_iff {className : String} {scopes : Scopes} {s : Subroutine}
    {r : Jack.Subroutine} :
    s.resolve className scopes = some r ↔
      ∃ scopes', scopes.leaveSubroutine.enterAll (s.entries className) = some scopes' ∧
        ∃ body, Statement.resolveAll ⟨className, scopes'⟩ s.body = some body ∧
          ⟨s.kind, s.returnType, s.name, s.parameters, s.locals.map (·.declaration .local), body⟩ =
            r := by
  simp only [resolve, Option.bind_eq_bind, Option.bind_eq_some_iff, Option.some.injEq]

end Subroutine

namespace Class

def entries (c : Class) : List Entry :=
  c.declarations.flatMap fun d => d.2.entries d.1.kind

def resolve (c : Class) : Option Jack.Class := do
  let scopes ← Scopes.empty.enterAll c.entries
  let subroutines ← c.subroutines.mapM (·.resolve c.name scopes)
  some ⟨c.name, c.declarations.map fun d => d.2.declaration d.1.kind, subroutines⟩

theorem resolve_eq_some_iff {c : Class} {r : Jack.Class} :
    c.resolve = some r ↔
      ∃ scopes, Scopes.empty.enterAll c.entries = some scopes ∧
        ∃ subroutines, c.subroutines.mapM (·.resolve c.name scopes) = some subroutines ∧
          ⟨c.name, c.declarations.map fun d => d.2.declaration d.1.kind, subroutines⟩ = r := by
  simp only [resolve, Option.bind_eq_bind, Option.bind_eq_some_iff, Option.some.injEq]

end Class

end Grammar

end Jack
