import Jack.Proofs.Grammar.Bound

namespace Jack.Grammar

open VM (Command)

variable (names : Names)

def Term.code? (t : Term) : Option (List Command) :=
  (t.resolve names).map (·.code)

def Expression.code? (e : Expression) : Option (List Command) :=
  (e.resolve names).map (·.code)

/-- The code of the terms behind the first, each followed by its operator. -/
def Expression.codeRest? (rest : List (BinaryOp × Term)) : Option (List Command) :=
  (Expression.resolveRest names rest).map (·.flatMap fun p => p.2.code ++ [p.1.code])

def Expression.codeAll? (es : List Expression) : Option (List Command) :=
  (Expression.resolveAll names es).map (·.flatMap (·.code))

def Statement.code? (k : LabelCount) (s : Statement) : Option (List Command × LabelCount) :=
  (s.resolve names).map (·.code k)

def Statement.codeAll? (k : LabelCount) (ss : List Statement) : Option (List Command × LabelCount) :=
  (Statement.resolveAll names ss).map (Jack.Statement.codeAll k)

def Called.codeWith (called : Called) (n : Nat) (q : List Command) : List Command :=
  (called.resolve names).receiver ++ q ++ [(called.resolve names).call n]

variable {names} {k : LabelCount}

theorem length_of_resolveAll {es : List Expression} {rs : List Jack.Expression}
    (h : Expression.resolveAll names es = some rs) : rs.length = es.length := by
  induction es generalizing rs with
  | nil =>
    cases h
    rfl
  | cons e es ih =>
    obtain ⟨r, -, rs, hrs, rfl⟩ := bind₂_eq_some_iff.mp h
    rw [List.length_cons, List.length_cons, ih hrs]

namespace Term

theorem code?_name (x : String) :
    (Term.name x).code? names = (names.scopes.resolve? x).map fun v => [v.push] := by
  rw [code?, resolve, Option.map_map]
  congr 1
  funext v
  simp [Jack.Term.code]

theorem code?_element (x : String) (index : Expression) :
    (Term.element x index).code? names = (do
      let v ← names.scopes.resolve? x
      let q ← index.code? names
      some (q ++ [v.push, .arithmetic .add] ++ loadElement)) := by
  rw [code?, resolve, Expression.code?]
  cases names.scopes.resolve? x with
  | none => rfl
  | some v => cases index.resolve names <;> simp [Jack.Term.code]

theorem code?_call (called : Called) (arguments : List Expression) :
    (Term.call called arguments).code? names =
      (Expression.codeAll? names arguments).map (called.codeWith names arguments.length) := by
  rw [code?, resolve, Expression.codeAll?]
  cases h : Expression.resolveAll names arguments with
  | none => rfl
  | some rs => simp [Jack.Term.code, Called.codeWith, length_of_resolveAll h]

theorem code?_group (inner : Expression) : (Term.group inner).code? names = inner.code? names := by
  rw [code?, resolve, Expression.code?, Option.map_map]
  congr 1
  funext r
  simp [Jack.Term.code]

theorem code?_unary (op : UnaryOp) (operand : Term) :
    (Term.unary op operand).code? names = (operand.code? names).map (· ++ [op.code]) := by
  rw [code?, resolve, code?, Option.map_map, Option.map_map]
  congr 1
  funext r
  simp [Jack.Term.code]

end Term

namespace Expression

theorem code?_chain (first : Term) (rest : List (BinaryOp × Term)) :
    (Expression.chain first rest).code? names = (do
      let a ← first.code? names
      let b ← codeRest? names rest
      some (a ++ b)) := by
  rw [code?, resolve, Term.code?, codeRest?]
  cases first.resolve names with
  | none => rfl
  | some t => cases resolveRest names rest <;> simp [Jack.Expression.code]

theorem codeRest?_nil : codeRest? names [] = some [] := rfl

theorem codeRest?_cons (op : BinaryOp) (operand : Term) (rest : List (BinaryOp × Term)) :
    codeRest? names ((op, operand) :: rest) = (do
      let a ← operand.code? names
      let b ← codeRest? names rest
      some (a ++ [op.code] ++ b)) := by
  rw [codeRest?, resolveRest, Term.code?, codeRest?]
  cases operand.resolve names with
  | none => rfl
  | some t => cases resolveRest names rest <;> simp

theorem codeAll?_nil : codeAll? names [] = some [] := rfl

theorem codeAll?_cons (e : Expression) (es : List Expression) :
    codeAll? names (e :: es) = (do
      let a ← e.code? names
      let b ← codeAll? names es
      some (a ++ b)) := by
  rw [codeAll?, resolveAll, code?, codeAll?]
  cases e.resolve names with
  | none => rfl
  | some r => cases resolveAll names es <;> simp

end Expression

namespace Statement

theorem code?_assign (x : String) (value : Expression) :
    (Statement.assign x value).code? names k = (do
      let v ← names.scopes.resolve? x
      let q ← value.code? names
      some (q ++ [v.pop], k)) := by
  rw [code?, resolve, Expression.code?]
  cases names.scopes.resolve? x with
  | none => rfl
  | some v => cases value.resolve names <;> simp [Jack.Statement.code]

theorem code?_store (x : String) (index value : Expression) :
    (Statement.store x index value).code? names k = (do
      let v ← names.scopes.resolve? x
      let i ← index.code? names
      let q ← value.code? names
      some (i ++ [v.push, .arithmetic .add] ++ q ++ storeElement, k)) := by
  rw [code?, resolve, Expression.code?, Expression.code?]
  cases names.scopes.resolve? x with
  | none => rfl
  | some v =>
    cases index.resolve names with
    | none => rfl
    | some i => cases value.resolve names <;> simp [Jack.Statement.code]

theorem code?_ifThen (condition : Expression) (yes : List Statement) :
    (Statement.ifThen condition yes).code? names k = (do
      let q ← condition.code? names
      let (ys, k') ← codeAll? names k.forIf.2 yes
      let l := k.forIf.1
      some (q ++ [.ifGoto l.onTrue, .goto l.onFalse, .label l.onTrue] ++ ys ++ [.label l.onFalse], k')) := by
  rw [code?, resolve, Expression.code?, codeAll?]
  cases condition.resolve names with
  | none => rfl
  | some e => cases resolveAll names yes <;> simp [Jack.Statement.code]

theorem code?_ifElse (condition : Expression) (yes no : List Statement) :
    (Statement.ifElse condition yes no).code? names k = (do
      let q ← condition.code? names
      let (ys, k₁) ← codeAll? names k.forIf.2 yes
      let (ns, k₂) ← codeAll? names k₁ no
      let l := k.forIf.1
      some (q ++ [.ifGoto l.onTrue, .goto l.onFalse, .label l.onTrue] ++ ys ++
        [.goto l.done, .label l.onFalse] ++ ns ++ [.label l.done], k₂)) := by
  simp only [code?, resolve, Expression.code?, codeAll?]
  cases condition.resolve names with
  | none => rfl
  | some e =>
    cases resolveAll names yes with
    | none => rfl
    | some ys => cases resolveAll names no <;> simp [Jack.Statement.code]

theorem code?_while (condition : Expression) (body : List Statement) :
    (Statement.while condition body).code? names k = (do
      let q ← condition.code? names
      let (ss, k') ← codeAll? names k.forWhile.2 body
      let l := k.forWhile.1
      some ([.label l.condition] ++ q ++ [.arithmetic .not, .ifGoto l.done] ++ ss ++
        [.goto l.condition, .label l.done], k')) := by
  rw [code?, resolve, Expression.code?, codeAll?]
  cases condition.resolve names with
  | none => rfl
  | some e => cases resolveAll names body <;> simp [Jack.Statement.code]

theorem code?_do (called : Called) (arguments : List Expression) :
    (Statement.do called arguments).code? names k = (Expression.codeAll? names arguments).map fun q =>
      (called.codeWith names arguments.length q ++ [.pop .temp 0], k) := by
  rw [code?, resolve, Expression.codeAll?]
  cases h : Expression.resolveAll names arguments with
  | none => rfl
  | some rs => simp [Jack.Statement.code, Jack.Term.code, Called.codeWith, length_of_resolveAll h]

theorem code?_return (value : Expression) :
    (Statement.return (some value)).code? names k =
      (value.code? names).map fun q => (q ++ [.return], k) := by
  rw [code?, resolve, Expression.code?, Option.map_map, Option.map_map]
  simp only [Function.comp_def, Jack.Statement.code]

theorem codeAll?_nil : codeAll? names k [] = some ([], k) := rfl

theorem codeAll?_cons (s : Statement) (ss : List Statement) :
    codeAll? names k (s :: ss) = (do
      let (a, k₁) ← s.code? names k
      let (b, k₂) ← codeAll? names k₁ ss
      some (a ++ b, k₂)) := by
  simp only [codeAll?, resolveAll, code?]
  cases s.resolve names with
  | none => rfl
  | some r => cases resolveAll names ss <;> simp [Jack.Statement.codeAll]

end Statement

/-- What the names in the body of a subroutine of the class stand for, if they can all be declared. -/
def Class.scope? (c : Class) (s : Subroutine) : Option Names := do
  let scopes ← Scopes.empty.enterAll c.entries
  let scopes ← scopes.leaveSubroutine.enterAll (s.entries c.name)
  some ⟨c.name, scopes⟩

def Class.fields (c : Class) : Nat :=
  c.entries.countP (·.kind = .field)

def Class.codeOf? (c : Class) (s : Subroutine) : Option (List Command) := do
  let names ← c.scope? s
  let (q, _) ← Statement.codeAll? names .zero s.body
  some (.function (c.name ++ "." ++ s.name) (Declaration.total (s.locals.map (·.declaration .local))) ::
    (s.kind.prologue c.fields ++ q))

theorem Class.codeOf?_eq_some_iff {c : Class} {s : Subroutine} {q : List Command} :
    c.codeOf? s = some q ↔ ∃ names, c.scope? s = some names ∧
      ∃ p, Statement.codeAll? names .zero s.body = some p ∧
        .function (c.name ++ "." ++ s.name) (Declaration.total (s.locals.map (·.declaration .local))) ::
          (s.kind.prologue c.fields ++ p.1) = q := by
  simp only [codeOf?, Option.bind_eq_bind, Option.bind_eq_some_iff, Option.some.injEq]

def Class.code? (c : Class) : Option (List Command) :=
  c.resolve.map (·.code)

theorem Class.map_code_resolve {c : Class} {scopes : Scopes}
    (hc : Scopes.empty.enterAll c.entries = some scopes) (s : Subroutine) :
    (s.resolve c.name scopes).map (·.code c.name c.fields) = c.codeOf? s := by
  simp only [Class.codeOf?, Class.scope?, hc, Option.bind_eq_bind, Option.bind_some, Subroutine.resolve]
  cases scopes.leaveSubroutine.enterAll (s.entries c.name) with
  | none => rfl
  | some scopes' =>
    simp only [Option.bind_some, Statement.codeAll?]
    cases Statement.resolveAll ⟨c.name, scopes'⟩ s.body <;> rfl

theorem mapM_map {α β γ : Type} (f : α → Option β) (g : β → γ) (xs : List α) :
    xs.mapM (fun x => (f x).map g) = (xs.mapM f).map (·.map g) := by
  induction xs with
  | nil => rfl
  | cons x xs ih =>
    rw [List.mapM_cons, List.mapM_cons, ih]
    cases f x with
    | none => rfl
    | some y => cases xs.mapM f <;> rfl

/-- The code of a class is that of its subroutines, one after the other. -/
theorem Class.code?_eq_some_iff {c : Class} {q : List Command} :
    c.code? = some q ↔ (Scopes.empty.enterAll c.entries).isSome ∧
      ∃ qs, c.subroutines.mapM c.codeOf? = some qs ∧ q = qs.flatten := by
  rw [code?, resolve]
  cases hc : Scopes.empty.enterAll c.entries with
  | none => simp
  | some scopes =>
    rw [← funext (c.map_code_resolve hc), mapM_map]
    simp only [Option.bind_eq_bind, Option.bind_some, Option.isSome_some, true_and]
    cases c.subroutines.mapM (·.resolve c.name scopes) with
    | none => simp
    | some rs =>
      have hf : Declaration.total ((c.declarations.map fun d => d.2.declaration d.1.kind).filter
          (·.kind = .field)) = c.fields := total_declaration .field c.declarations
      simp only [Option.bind_some, Option.map_some, Jack.Class.code, Jack.Class.fields, hf,
        List.flatMap_def, Option.some.injEq, exists_eq_left']
      exact eq_comm

def Class.withSubroutines (c : Class) (ss : List Subroutine) : Class := ⟨c.name, c.declarations, ss⟩

/-- A subroutine may be replaced by one with the same code. -/
theorem Class.code?_replace {c : Class} {s s' : Subroutine} {before behind : List Subroutine}
    {q : List Command} (h : c.code? = some q) (hc : c.subroutines = before ++ s :: behind)
    (hs : c.codeOf? s' = c.codeOf? s) :
    (c.withSubroutines (before ++ s' :: behind)).code? = some q := by
  obtain ⟨hd, qs, hqs, rfl⟩ := Class.code?_eq_some_iff.mp h
  refine Class.code?_eq_some_iff.mpr ⟨hd, qs, ?_, rfl⟩
  rw [hc, List.mapM_append, List.mapM_cons] at hqs
  -- The code of a subroutine depends on the declarations of the class alone.
  change (before ++ s' :: behind).mapM c.codeOf? = some qs
  rw [List.mapM_append, List.mapM_cons, hs, hqs]

theorem Class.exists_codeOf? {c : Class} {s : Subroutine} {q : List Command} (h : c.code? = some q)
    (hs : s ∈ c.subroutines) : ∃ o, c.codeOf? s = some o ∧ o <:+: q := by
  obtain ⟨-, qs, hqs, rfl⟩ := Class.code?_eq_some_iff.mp h
  obtain ⟨o, ho⟩ := Option.isSome_iff_exists.mp (isSome_mapM.mp (Option.isSome_of_eq_some hqs) s hs)
  exact ⟨o, ho, List.infix_of_mem_flatten ((mem_mapM_iff hqs).mpr ⟨s, hs, ho⟩)⟩

end Jack.Grammar
