import Jack.Code.Class

namespace Jack

/-- The object that a method is called on counts as an argument. -/
def Callee.arity (callee : Callee) (n : Nat) : Nat :=
  match callee with
  | .own _ _ | .method _ _ => n + 1
  | .function _ _ => n

mutual

/-- How many arguments each of the calls in a term has. -/
def Term.arities : Term → List Nat
  | .integer _ | .string _ | .constant _ | .variable _ => []
  | .element _ index => index.arities
  | .call callee arguments => callee.arity arguments.length :: Expression.aritiesAll arguments
  | .group inner => inner.arities
  | .unary _ operand => operand.arities
termination_by structural t => t

def Expression.arities : Expression → List Nat
  | .chain first rest => first.arities ++ Expression.aritiesRest rest
termination_by structural e => e

def Expression.aritiesRest : List (BinaryOp × Term) → List Nat
  | [] => []
  | (_, operand) :: rest => operand.arities ++ Expression.aritiesRest rest
termination_by structural rest => rest

def Expression.aritiesAll : List Expression → List Nat
  | [] => []
  | e :: es => e.arities ++ Expression.aritiesAll es
termination_by structural es => es

end

mutual

def Statement.arities : Statement → List Nat
  | .assign _ value => value.arities
  | .store _ index value => index.arities ++ value.arities
  | .ifThen condition yes => condition.arities ++ Statement.aritiesAll yes
  | .ifElse condition yes no =>
    condition.arities ++ Statement.aritiesAll yes ++ Statement.aritiesAll no
  | .while condition body => condition.arities ++ Statement.aritiesAll body
  | .do callee arguments => (Term.call callee arguments).arities
  | .return none => []
  | .return (some value) => value.arities

def Statement.aritiesAll : List Statement → List Nat
  | [] => []
  | s :: ss => s.arities ++ Statement.aritiesAll ss

end

def Subroutine.arities (s : Subroutine) : List Nat :=
  Statement.aritiesAll s.body

def Class.arities (c : Class) : List Nat :=
  c.subroutines.flatMap (·.arities)

/-- All of the numbers can be told in 16 bits. -/
def Fit (arities : List Nat) : Prop :=
  ∀ n ∈ arities, n < 65536

instance (arities : List Nat) : Decidable (Fit arities) :=
  inferInstanceAs (Decidable (∀ n ∈ arities, n < 65536))

section Fit

variable {n : Nat} {ns ms : List Nat}

@[simp] theorem fit_nil : Fit [] :=
  List.forall_mem_nil _

@[simp] theorem fit_cons : Fit (n :: ns) ↔ n < 65536 ∧ Fit ns :=
  List.forall_mem_cons

@[simp] theorem fit_append : Fit (ns ++ ms) ↔ Fit ns ∧ Fit ms :=
  List.forall_mem_append

theorem Expression.fit_all {es : List Expression} :
    Fit (Expression.aritiesAll es) ↔ ∀ e ∈ es, Fit e.arities := by
  induction es with
  | nil => simp [aritiesAll]
  | cons e es ih => simp [aritiesAll, ih]

theorem Expression.fit_rest {rest : List (BinaryOp × Term)} :
    Fit (Expression.aritiesRest rest) ↔ ∀ p ∈ rest, Fit p.2.arities := by
  induction rest with
  | nil => simp [aritiesRest]
  | cons p rest ih => simp [aritiesRest, ih]

theorem Statement.fit_all {ss : List Statement} :
    Fit (Statement.aritiesAll ss) ↔ ∀ s ∈ ss, Fit s.arities := by
  induction ss with
  | nil => simp [aritiesAll]
  | cons s ss ih => simp [aritiesAll, ih]

end Fit

theorem Callee.arity_eq (callee : Callee) (n : Nat) :
    callee.arity n = n + callee.receiver.length := by
  cases callee <;> rfl

theorem Callee.call_of_lt {callee : Callee} {n : Nat} (h : callee.arity n < 65536) :
    callee.call n = .call callee.target (callee.arity n) := by
  rw [Callee.call, ← callee.arity_eq, Nat.mod_eq_of_lt h]

end Jack
