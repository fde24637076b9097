import Jack.Code.Class

/-!
The ends of a tree: constants, variables and callees, which are what the declarations decide on.
Every command of the code either belongs to an end of the tree or is one of a few that any expression
or statement may need.
-/

namespace Jack

open VM (Command)

theorem tree_induction {P : Term → Prop} {Q : Expression → Prop}
    (integer : ∀ value, P (.integer value))
    (string : ∀ text, P (.string text))
    (constant : ∀ value, P (.constant value))
    (var : ∀ v, P (.variable v))
    (element : ∀ array index, Q index → P (.element array index))
    (call : ∀ callee arguments, (∀ e ∈ arguments, Q e) → P (.call callee arguments))
    (group : ∀ inner, Q inner → P (.group inner))
    (unary : ∀ op operand, P operand → P (.unary op operand))
    (chain : ∀ first rest, P first → (∀ p ∈ rest, P p.2) → Q (.chain first rest)) :
    (∀ t, P t) ∧ ∀ e, Q e := by
  have below (n : Nat) :
      (∀ t : Term, sizeOf t < n → P t) ∧ ∀ e : Expression, sizeOf e < n → Q e := by
    induction n with
    | zero => exact ⟨fun _ h => absurd h (Nat.not_lt_zero _), fun _ h => absurd h (Nat.not_lt_zero _)⟩
    | succ n ih =>
      constructor
      · intro t h
        cases t with
        | integer value => exact integer value
        | string text => exact string text
        | constant value => exact constant value
        | «variable» v => exact var v
        | element array index =>
          simp only [Term.element.sizeOf_spec] at h
          exact element array index (ih.2 index (by omega))
        | call callee arguments =>
          simp only [Term.call.sizeOf_spec] at h
          refine call callee arguments fun e he => ih.2 e ?_
          have := List.sizeOf_lt_of_mem he
          omega
        | group inner =>
          simp only [Term.group.sizeOf_spec] at h
          exact group inner (ih.2 inner (by omega))
        | unary op operand =>
          simp only [Term.unary.sizeOf_spec] at h
          exact unary op operand (ih.1 operand (by omega))
      · intro e h
        cases e with
        | chain first rest =>
          simp only [Expression.chain.sizeOf_spec] at h
          refine chain first rest (ih.1 first (by omega)) fun p hp => ih.1 p.2 ?_
          have := sizeOf_snd_lt_of_mem hp
          omega
  exact ⟨fun t => (below _).1 t (Nat.lt_succ_self _), fun e => (below _).2 e (Nat.lt_succ_self _)⟩

inductive Leaf where
  | integer (value : Nat)
  | string (text : String)
  | variable (v : Variable)
  | callee (callee : Callee)

mutual

def Term.leaves : Term → List Leaf
  | .integer value => [.integer value]
  | .string text => [.string text]
  | .constant _ => []
  | .variable v => [.variable v]
  | .element array index => .variable array :: index.leaves
  | .call callee arguments => .callee callee :: arguments.flatMap (·.leaves)
  | .group inner => inner.leaves
  | .unary _ operand => operand.leaves
termination_by t => sizeOf t

def Expression.leaves : Expression → List Leaf
  | .chain first rest => first.leaves ++ rest.flatMap (·.2.leaves)
termination_by e => sizeOf e
decreasing_by
  · decreasing_tactic
  · have := sizeOf_snd_lt_of_mem ‹_ ∈ rest›
    decreasing_tactic

end

mutual

def Statement.leaves : Statement → List Leaf
  | .assign target value => .variable target :: value.leaves
  | .store array index value => .variable array :: index.leaves ++ value.leaves
  | .ifThen condition yes => condition.leaves ++ Statement.leavesAll yes
  | .ifElse condition yes no =>
    condition.leaves ++ Statement.leavesAll yes ++ Statement.leavesAll no
  | .while condition body => condition.leaves ++ Statement.leavesAll body
  | .do callee arguments => .callee callee :: arguments.flatMap (·.leaves)
  | .return none => []
  | .return (some value) => value.leaves

def Statement.leavesAll : List Statement → List Leaf
  | [] => []
  | s :: ss => s.leaves ++ Statement.leavesAll ss

end

/-- The commands that an end brings. The number of arguments of a call is not told by its callee. -/
def Leaf.Brings (c : Command) : Leaf → Prop
  | .integer value => c = .push .constant value
  | .string text => c ∈ stringCode text
  | .variable v => c = v.push
  | .callee f => c ∈ f.receiver ∨ ∃ n, c = f.call n

def glue : List Command :=
  [.push .constant 0, .push .pointer 0, .pop .pointer 1, .push .that 0, .call "Math.multiply" 2,
    .call "Math.divide" 2, .arithmetic .add, .arithmetic .sub, .arithmetic .neg, .arithmetic .not,
    .arithmetic .and, .arithmetic .or, .arithmetic .lt, .arithmetic .gt, .arithmetic .eq]

theorem BinaryOp.code_mem_glue (op : BinaryOp) : op.code ∈ glue := by
  cases op <;> decide

theorem UnaryOp.code_mem_glue (op : UnaryOp) : op.code ∈ glue := by
  cases op <;> decide

theorem NamedConstant.code_subset_glue (c : NamedConstant) : c.code ⊆ glue := by
  cases c <;> decide

theorem mem_code : (∀ t : Term, ∀ c ∈ t.code, c ∈ glue ∨ ∃ l ∈ t.leaves, l.Brings c) ∧
    ∀ e : Expression, ∀ c ∈ e.code, c ∈ glue ∨ ∃ l ∈ e.leaves, l.Brings c := by
  refine tree_induction ?integer ?string ?constant ?var ?element ?call ?group ?unary ?chain
  case integer =>
    intro value c hc
    rw [Term.code, List.mem_singleton] at hc
    exact .inr ⟨.integer value, by simp [Term.leaves], hc⟩
  case string =>
    intro text c hc
    rw [Term.code] at hc
    exact .inr ⟨.string text, by simp [Term.leaves], hc⟩
  case constant =>
    intro value c hc
    rw [Term.code] at hc
    exact .inl (value.code_subset_glue hc)
  case var =>
    intro v c hc
    rw [Term.code, List.mem_singleton] at hc
    exact .inr ⟨.variable v, by simp [Term.leaves], hc⟩
  case element =>
    intro array index ih c hc
    simp only [Term.code, loadElement, List.mem_append, List.mem_cons, List.not_mem_nil, or_false] at hc
    obtain (hc | rfl | rfl) | rfl | rfl := hc
    · obtain hg | ⟨l, hl, hb⟩ := ih c hc
      · exact .inl hg
      · exact .inr ⟨l, by simp [Term.leaves, hl], hb⟩
    · exact .inr ⟨.variable array, by simp [Term.leaves], rfl⟩
    · exact .inl (by decide)
    · exact .inl (by decide)
    · exact .inl (by decide)
  case call =>
    intro callee arguments ih c hc
    simp only [Term.code, List.mem_append, List.mem_flatMap, List.mem_singleton] at hc
    obtain (hc | ⟨e, he, hc⟩) | rfl := hc
    · exact .inr ⟨.callee callee, by simp [Term.leaves], .inl hc⟩
    · obtain hg | ⟨l, hl, hb⟩ := ih e he c hc
      · exact .inl hg
      · refine .inr ⟨l, ?_, hb⟩
        rw [Term.leaves]
        exact List.mem_cons_of_mem _ (List.mem_flatMap.mpr ⟨e, he, hl⟩)
    · exact .inr ⟨.callee callee, by simp [Term.leaves], .inr ⟨_, rfl⟩⟩
  case group =>
    intro inner ih c hc
    rw [Term.code] at hc
    rw [Term.leaves]
    exact ih c hc
  case unary =>
    intro op operand ih c hc
    rw [Term.code, List.mem_append, List.mem_singleton] at hc
    rw [Term.leaves]
    obtain hc | rfl := hc
    · exact ih c hc
    · exact .inl op.code_mem_glue
  case chain =>
    intro first rest ihf ihr c hc
    simp only [Expression.code, List.mem_append, List.mem_flatMap, List.mem_singleton] at hc
    simp only [Expression.leaves, List.mem_append, List.mem_flatMap]
    obtain hc | ⟨p, hp, hc | rfl⟩ := hc
    · obtain hg | ⟨l, hl, hb⟩ := ihf c hc
      · exact .inl hg
      · exact .inr ⟨l, .inl hl, hb⟩
    · obtain hg | ⟨l, hl, hb⟩ := ihr p hp c hc
      · exact .inl hg
      · exact .inr ⟨l, .inr ⟨p, hp, hl⟩, hb⟩
    · exact .inl p.1.code_mem_glue

/-- What the code of an expression is made of: pushes, operations, calls, and array elements made
accessible through `pointer 1`. Nothing else is popped. -/
def VM.Command.IsQuiet : Command → Prop
  | .push _ _ | .arithmetic _ | .call _ _ | .pop .pointer 1 => True
  | _ => False

theorem quiet_glue : ∀ c ∈ glue, c.IsQuiet := by
  simp [glue, Command.IsQuiet]

theorem quiet_stringCode (text : String) : ∀ c ∈ stringCode text, c.IsQuiet := by
  intro c hc
  simp only [stringCode, List.mem_cons, List.mem_flatMap, List.not_mem_nil, or_false] at hc
  obtain rfl | rfl | ⟨_, _, rfl | rfl⟩ := hc <;> trivial

theorem Leaf.quiet_of_brings {l : Leaf} {c : Command} (h : l.Brings c) : c.IsQuiet := by
  cases l with
  | integer value =>
    cases h
    trivial
  | string text => exact quiet_stringCode text c h
  | «variable» v =>
    cases h
    trivial
  | callee callee =>
    obtain h | ⟨n, rfl⟩ := h
    · cases callee <;> simp [Callee.receiver] at h <;> subst h <;> trivial
    · trivial

theorem Term.quiet_code (t : Term) : ∀ c ∈ t.code, c.IsQuiet := by
  intro c hc
  obtain hg | ⟨l, -, hb⟩ := mem_code.1 t c hc
  · exact quiet_glue c hg
  · exact l.quiet_of_brings hb

theorem Expression.quiet_code (e : Expression) : ∀ c ∈ e.code, c.IsQuiet := by
  intro c hc
  obtain hg | ⟨l, -, hb⟩ := mem_code.2 e c hc
  · exact quiet_glue c hg
  · exact l.quiet_of_brings hb

/-- The commands that statements add of their own: they throw a value away, store one in an element,
jump and return. -/
def VM.Command.IsJoint : Command → Prop
  | .pop .temp 0 | .pop .pointer 1 | .push .temp 0 | .pop .that 0 => True
  | .arithmetic .not | .label _ | .goto _ | .ifGoto _ | .return => True
  | _ => False

/-- Does the command belong to one of the leaves, or is it one that any code may need? -/
def Leaf.Explain (ls : List Leaf) (c : Command) : Prop :=
  c ∈ glue ∨ c.IsJoint ∨ ∃ l ∈ ls, l.Brings c ∨ ∃ v, l = .variable v ∧ c = v.pop

namespace Leaf

variable {ls ls' : List Leaf} {c : Command}

theorem Explain.mono (h : Explain ls c) (hs : ls ⊆ ls') : Explain ls' c := by
  obtain hg | hj | ⟨l, hl, hc⟩ := h
  · exact .inl hg
  · exact .inr (.inl hj)
  · exact .inr (.inr ⟨l, hs hl, hc⟩)

theorem explain_of_joint (h : c.IsJoint) : Explain ls c :=
  .inr (.inl h)

theorem explain_of_glue (h : c ∈ glue) : Explain ls c :=
  .inl h

theorem explain_push {v : Variable} (h : .variable v ∈ ls) : Explain ls v.push :=
  .inr (.inr ⟨_, h, .inl rfl⟩)

theorem explain_pop {v : Variable} (h : .variable v ∈ ls) : Explain ls v.pop :=
  .inr (.inr ⟨_, h, .inr ⟨v, rfl, rfl⟩⟩)

end Leaf

theorem Expression.leaves_explain (e : Expression) : ∀ c ∈ e.code, Leaf.Explain e.leaves c := by
  intro c hc
  obtain hg | ⟨l, hl, hb⟩ := mem_code.2 e c hc
  · exact .inl hg
  · exact .inr (.inr ⟨l, hl, .inl hb⟩)

theorem explain_call (f : Callee) (es : List Expression) :
    ∀ c ∈ (Term.call f es).code, Leaf.Explain (.callee f :: es.flatMap (·.leaves)) c := by
  intro c hc
  obtain hg | ⟨l, hl, hb⟩ := mem_code.1 (.call f es) c hc
  · exact .inl hg
  · rw [Term.leaves] at hl
    exact .inr (.inr ⟨l, hl, .inl hb⟩)

theorem explain_storeElement {ls : List Leaf} : ∀ c ∈ storeElement, Leaf.Explain ls c := by
  simp [storeElement, Leaf.Explain, Command.IsJoint]

mutual

theorem Statement.leaves_explain (k : LabelCount) (s : Statement) :
    ∀ c ∈ (s.code k).1, Leaf.Explain s.leaves c := by
  intro c hc
  cases s with
  | assign target value =>
    simp only [Statement.code, List.mem_append, List.mem_singleton] at hc
    rw [Statement.leaves]
    obtain hc | rfl := hc
    · exact (value.leaves_explain c hc).mono (List.subset_cons_self _ _)
    · exact Leaf.explain_pop List.mem_cons_self
  | store array index value =>
    simp only [Statement.code, List.mem_append, List.mem_cons, List.not_mem_nil, or_false] at hc
    rw [Statement.leaves]
    obtain ((hc | rfl | rfl) | hc) | hc := hc
    · exact (index.leaves_explain c hc).mono (by simp)
    · exact Leaf.explain_push (by simp)
    · exact Leaf.explain_of_glue (by decide)
    · exact (value.leaves_explain c hc).mono (by simp)
    · exact explain_storeElement c hc
  | ifThen condition yes =>
    simp only [Statement.code, List.mem_append, List.mem_cons, List.not_mem_nil, or_false] at hc
    rw [Statement.leaves]
    obtain ((hc | rfl | rfl | rfl) | hc) | rfl := hc
    · exact (condition.leaves_explain c hc).mono (List.subset_append_left _ _)
    · exact Leaf.explain_of_joint trivial
    · exact Leaf.explain_of_joint trivial
    · exact Leaf.explain_of_joint trivial
    · exact (Statement.leaves_explain_all _ yes c hc).mono (List.subset_append_right _ _)
    · exact Leaf.explain_of_joint trivial
  | ifElse condition yes no =>
    simp only [Statement.code, List.mem_append, List.mem_cons, List.not_mem_nil, or_false] at hc
    rw [Statement.leaves]
    obtain ((((hc | rfl | rfl | rfl) | hc) | rfl | rfl) | hc) | rfl := hc
    · exact (condition.leaves_explain c hc).mono (by simp)
    · exact Leaf.explain_of_joint trivial
    · exact Leaf.explain_of_joint trivial
    · exact Leaf.explain_of_joint trivial
    · exact (Statement.leaves_explain_all _ yes c hc).mono (by simp)
    · exact Leaf.explain_of_joint trivial
    · exact Leaf.explain_of_joint trivial
    · exact (Statement.leaves_explain_all _ no c hc).mono (by simp)
    · exact Leaf.explain_of_joint trivial
  | «while» condition body =>
    simp only [Statement.code, List.mem_append, List.mem_cons, List.not_mem_nil, or_false] at hc
    rw [Statement.leaves]
    obtain (((rfl | hc) | rfl | rfl) | hc) | rfl | rfl := hc
    · exact Leaf.explain_of_joint trivial
    · exact (condition.leaves_explain c hc).mono (List.subset_append_left _ _)
    · exact Leaf.explain_of_joint trivial
    · exact Leaf.explain_of_joint trivial
    · exact (Statement.leaves_explain_all _ body c hc).mono (List.subset_append_right _ _)
    · exact Leaf.explain_of_joint trivial
    · exact Leaf.explain_of_joint trivial
  | «do» callee arguments =>
    rw [Statement.code, List.mem_append, List.mem_singleton] at hc
    rw [Statement.leaves]
    obtain hc | rfl := hc
    · exact explain_call callee arguments c hc
    · exact Leaf.explain_of_joint trivial
  | «return» value => cases value with
    | none =>
      simp only [Statement.code, List.mem_cons, List.not_mem_nil, or_false] at hc
      obtain rfl | rfl := hc
      · exact Leaf.explain_of_glue (by decide)
      · exact Leaf.explain_of_joint trivial
    | some value =>
      simp only [Statement.code, List.mem_append, List.mem_singleton] at hc
      rw [Statement.leaves]
      obtain hc | rfl := hc
      · exact value.leaves_explain c hc
      · exact Leaf.explain_of_joint trivial

theorem Statement.leaves_explain_all (k : LabelCount) (ss : List Statement) :
    ∀ c ∈ (Statement.codeAll k ss).1, Leaf.Explain (Statement.leavesAll ss) c := by
  intro c hc
  match ss with
  | [] => cases hc
  | s :: ss =>
    simp only [Statement.codeAll, List.mem_append] at hc
    rw [Statement.leavesAll]
    obtain hc | hc := hc
    · exact (s.leaves_explain k c hc).mono (List.subset_append_left _ _)
    · exact (Statement.leaves_explain_all _ ss c hc).mono (List.subset_append_right _ _)

end

end Jack
