import Jack.Proofs.Grammar.Code
import Jack.Proofs.Grammar.Slots
import Mathlib.Data.List.Forall2
import Mathlib.Data.List.Nodup

namespace Jack

def substitute (x y z : String) : String := if z = x then y else z

/-- What the code knows of a variable: all but its name. -/
def Variable.place (v : Variable) : String × VariableKind × Nat := (v.type, v.kind, v.slot)

namespace Grammar

def Called.rename (x y : String) : Called → Called
  | .plain name => .plain name
  | .dotted owner name => .dotted (substitute x y owner) name

mutual

def Term.rename (x y : String) : Term → Term
  | .integer value => .integer value
  | .string text => .string text
  | .constant value => .constant value
  | .name z => .name (substitute x y z)
  | .element z index => .element (substitute x y z) (index.rename x y)
  | .call called arguments => .call (called.rename x y) (Expression.renameAll x y arguments)
  | .group inner => .group (inner.rename x y)
  | .unary op operand => .unary op (operand.rename x y)
termination_by structural t => t

def Expression.rename (x y : String) : Expression → Expression
  | .chain first rest => .chain (first.rename x y) (Expression.renameRest x y rest)
termination_by structural e => e

def Expression.renameRest (x y : String) : List (BinaryOp × Term) → List (BinaryOp × Term)
  | [] => []
  | (op, operand) :: rest => (op, operand.rename x y) :: Expression.renameRest x y rest
termination_by structural rest => rest

def Expression.renameAll (x y : String) : List Expression → List Expression
  | [] => []
  | e :: es => e.rename x y :: Expression.renameAll x y es
termination_by structural es => es

end

mutual

def Statement.rename (x y : String) : Statement → Statement
  | .assign z value => .assign (substitute x y z) (value.rename x y)
  | .store z index value => .store (substitute x y z) (index.rename x y) (value.rename x y)
  | .ifThen condition yes => .ifThen (condition.rename x y) (Statement.renameAll x y yes)
  | .ifElse condition yes no =>
    .ifElse (condition.rename x y) (Statement.renameAll x y yes) (Statement.renameAll x y no)
  | .while condition body => .while (condition.rename x y) (Statement.renameAll x y body)
  | .do called arguments => .do (called.rename x y) (Expression.renameAll x y arguments)
  | .return none => .return none
  | .return (some value) => .return (some (value.rename x y))

def Statement.renameAll (x y : String) : List Statement → List Statement
  | [] => []
  | s :: ss => s.rename x y :: Statement.renameAll x y ss

end

def Variables.rename (x y : String) (d : Variables) : Variables :=
  ⟨d.type, substitute x y d.first, d.more.map (substitute x y)⟩

/-- The variable `x` of a subroutine is called `y`. Types and the names of subroutines are left alone. -/
def Subroutine.rename (x y : String) (s : Subroutine) : Subroutine where
  kind := s.kind
  returnType := s.returnType
  name := s.name
  parameters := s.parameters.map fun p => ⟨p.type, substitute x y p.name⟩
  locals := s.locals.map (·.rename x y)
  body := Statement.renameAll x y s.body

def Subroutine.declared (s : Subroutine) : List String :=
  s.parameters.map (·.name) ++ s.locals.flatMap (·.names)

section Events

open Event (word span parenthesized bracketed braced)

variable {x y : String}

/-- The lists are the same, but for places where there is `x` in the one and `y` in the other. -/
def Renames (x y : String) : List Event → List Event → Prop :=
  List.Forall₂ fun e f => f = e ∨ e = word x ∧ f = word y

namespace Renames

variable {es es' fs fs' : List Event}

theorem refl (es : List Event) : Renames x y es es :=
  List.forall₂_same.mpr fun _ _ => .inl rfl

theorem same (e : Event) (h : Renames x y es es') : Renames x y (e :: es) (e :: es') :=
  .cons (.inl rfl) h

theorem word (z : String) (h : Renames x y es es') :
    Renames x y (Event.word z :: es) (Event.word (substitute x y z) :: es') := by
  refine .cons ?_ h
  unfold substitute
  split
  next hz => exact .inr ⟨by rw [hz], rfl⟩
  next => exact .inl rfl

theorem append (h : Renames x y es es') (h' : Renames x y fs fs') :
    Renames x y (es ++ fs) (es' ++ fs') :=
  List.rel_append h h'

theorem span (r : Rule) (h : Renames x y es es') : Renames x y (span r es) (span r es') :=
  (h.append (refl _)).same _

theorem parenthesized (h : Renames x y es es') : Renames x y (parenthesized es) (parenthesized es') :=
  (h.append (refl _)).same _

theorem bracketed (h : Renames x y es es') : Renames x y (bracketed es) (bracketed es') :=
  (h.append (refl _)).same _

theorem braced (h : Renames x y es es') : Renames x y (braced es) (braced es') :=
  (h.append (refl _)).same _

theorem flatMap {α : Type} {f g : α → List Event} {h : α → α} {as : List α}
    (hf : ∀ a ∈ as, Renames x y (f a) (g (h a))) : Renames x y (as.flatMap f) ((as.map h).flatMap g) := by
  induction as with
  | nil => exact .nil
  | cons a as ih =>
    rw [List.forall_mem_cons] at hf
    exact hf.1.append (ih hf.2)

theorem tokens (h : Renames x y es es') : List.Forall₂
    (fun t u => u = t ∨ t = Token.identifier x ∧ u = .identifier y) (Event.tokens es) (Event.tokens es') := by
  induction h with
  | nil => exact .nil
  | @cons e f es fs he _ ih =>
    obtain rfl | ⟨rfl, rfl⟩ := he
    · cases f with
      | enter r | leave r => exact ih
      | consumed t => exact .cons (.inl rfl) ih
    · exact .cons (.inr ⟨rfl, rfl⟩) ih

end Renames

variable (x y)

theorem Called.renames (called : Called) :
    Renames x y called.derivation (called.rename x y).derivation := by
  cases called with
  | plain name => exact .refl _
  | dotted owner name => exact .word owner (.refl _)

mutual

theorem Term.renames (t : Term) : Renames x y t.derivation (t.rename x y).derivation := by
  cases t with
  | integer | string | constant => exact .refl _
  | name z => exact .span _ (.word z .nil)
  | element z index => exact .span _ (.word z index.renames.bracketed)
  | call called arguments =>
    exact .span _ ((called.renames x y).append (.parenthesized (.span _ (Expression.renamesAll arguments))))
  | group inner => exact .span _ inner.renames.parenthesized
  | unary op operand => exact .span _ (operand.renames.same _)

theorem Expression.renames (e : Expression) : Renames x y e.derivation (e.rename x y).derivation := by
  obtain ⟨first, rest⟩ := e
  exact .span _ (first.renames.append (Expression.renamesRest rest))

theorem Expression.renamesRest (rest : List (BinaryOp × Term)) :
    Renames x y (Expression.derivationRest rest) (Expression.derivationRest (Expression.renameRest x y rest)) := by
  match rest with
  | [] => exact .nil
  | (op, operand) :: rest => exact .same _ (operand.renames.append (Expression.renamesRest rest))

theorem Expression.renamesAll (es : List Expression) :
    Renames x y (Expression.derivationAll es) (Expression.derivationAll (Expression.renameAll x y es)) := by
  match es with
  | [] => exact .nil
  | e :: es => exact e.renames.append (Expression.renamesMore es)

theorem Expression.renamesMore (es : List Expression) :
    Renames x y (Expression.derivationMore es) (Expression.derivationMore (Expression.renameAll x y es)) := by
  match es with
  | [] => exact .nil
  | e :: es => exact .same _ (e.renames.append (Expression.renamesMore es))

end

mutual

theorem Statement.renames (s : Statement) : Renames x y s.derivation (s.rename x y).derivation := by
  cases s with
  | assign z value =>
    exact .span _ (.same _ (.word z (.same _ ((value.renames x y).append (.refl _)))))
  | store z index value =>
    exact .span _ (.same _ (.word z ((index.renames x y).bracketed.append
      (.same _ ((value.renames x y).append (.refl _))))))
  | ifThen condition yes =>
    exact .span _ (.same _ ((condition.renames x y).parenthesized.append
      (.braced (.span _ (Statement.renamesAll yes)))))
  | ifElse condition yes no =>
    exact .span _ (.same _ (((condition.renames x y).parenthesized.append
      (.braced (.span _ (Statement.renamesAll yes)))).append
        (.same _ (.braced (.span _ (Statement.renamesAll no))))))
  | «while» condition body =>
    exact .span _ (.same _ ((condition.renames x y).parenthesized.append
      (.braced (.span _ (Statement.renamesAll body)))))
  | «do» called arguments =>
    exact .span _ (.same _ (((called.renames x y).append
      (.parenthesized (.span _ (Expression.renamesAll x y arguments)))).append (.refl _)))
  | «return» value => cases value with
    | none => exact .refl _
    | some value => exact .span _ (.same _ ((value.renames x y).append (.refl _)))

theorem Statement.renamesAll (ss : List Statement) :
    Renames x y (Statement.derivationAll ss) (Statement.derivationAll (Statement.renameAll x y ss)) := by
  match ss with
  | [] => exact .nil
  | s :: ss => exact s.renames.append (Statement.renamesAll ss)

end

theorem Variables.renames (d : Variables) : Renames x y d.derivation (d.rename x y).derivation :=
  .same _ (.word d.first (.append (.flatMap fun z _ => .same _ (.word z .nil)) (.refl _)))

theorem renames_parameters (ps : List Parameter) : Renames x y (parameterDerivations ps)
    (parameterDerivations (ps.map fun p => ⟨p.type, substitute x y p.name⟩)) := by
  have hp (p : Parameter) : Renames x y (parameterDerivation p)
      (parameterDerivation ⟨p.type, substitute x y p.name⟩) := .same _ (.word p.name .nil)
  cases ps with
  | nil => exact .nil
  | cons p ps => exact (hp p).append (.flatMap fun q _ => (hp q).same _)

theorem Subroutine.renames (s : Subroutine) : Renames x y s.derivation (s.rename x y).derivation :=
  .span _ (.same _ (.same _ (.same _ ((Renames.parenthesized (.span _ (renames_parameters x y s.parameters))).append
    (.span _ (.braced (.append (.flatMap fun d _ => .span _ ((d.renames x y).same _))
      (.span _ (Statement.renamesAll x y s.body)))))))))

end Events

section Code

open Event (tokens)

variable {x y : String} {names names' : Names}

/-- Under `names'` the name in the place of `z` stands for a variable in the same place as the one that
`z` stands for under `names`. -/
structure Renamed (x y : String) (names names' : Names) : Prop where
  className_eq : names'.className = names.className
  known : names.Knows x
  place_eq : ∀ z, z ≠ y → (names'.scopes.resolve? (substitute x y z)).map Variable.place =
    (names.scopes.resolve? z).map Variable.place

theorem bind_eq_of_place {β : Type} {o o' : Option Variable} {f : Variable → Option β}
    (h : o'.map Variable.place = o.map Variable.place)
    (hf : ∀ v v' : Variable, v'.place = v.place → f v' = f v) : o'.bind f = o.bind f := by
  cases o with
  | none =>
    rw [Option.map_none, Option.map_eq_none_iff] at h
    rw [h]
  | some v =>
    obtain ⟨v', rfl, hv⟩ := Option.map_eq_some_iff.mp h
    exact hf v v' hv

theorem segment_eq_of_place {v v' : Variable} (h : v'.place = v.place) :
    v'.segment = v.segment ∧ v'.slot = v.slot := by
  obtain ⟨-, hk, hs⟩ : v'.type = v.type ∧ v'.kind = v.kind ∧ v'.slot = v.slot := by
    simpa [Variable.place] using h
  rw [Variable.segment, Variable.segment, hk]
  exact ⟨rfl, hs⟩

theorem push_eq_of_place {v v' : Variable} (h : v'.place = v.place) : v'.push = v.push := by
  obtain ⟨hv, hs⟩ := segment_eq_of_place h
  rw [Variable.push, Variable.push, hv, hs]

theorem pop_eq_of_place {v v' : Variable} (h : v'.place = v.place) : v'.pop = v.pop := by
  obtain ⟨hv, hs⟩ := segment_eq_of_place h
  rw [Variable.pop, Variable.pop, hv, hs]

namespace Renamed

variable (h : Renamed x y names names')

include h

theorem codeWith_eq {called : Called} (hc : Words (· ≠ y) (tokens called.derivation)) (n : Nat) :
    (called.rename x y).codeWith names' n = called.codeWith names n := by
  have hcode {f f' : Callee} (hr : f'.receiver = f.receiver) (ht : f'.target = f.target) :
      (fun q => f'.receiver ++ q ++ [f'.call n]) = fun q => f.receiver ++ q ++ [f.call n] := by
    rw [Callee.call, Callee.call, hr, ht]
  cases called with
  | plain name =>
    refine hcode rfl ?_
    simp [Called.rename, Called.resolve, Callee.target, h.className_eq]
  | dotted owner name =>
    rw [Called.words, Called.names, List.forall_mem_cons] at hc
    have hp := h.place_eq owner hc.1
    cases ho : names.scopes.resolve? owner with
    | none =>
      -- No variable is called so, and `x` is one: the name is that of a class and stays.
      have hne : owner ≠ x := fun he => by
        have hk := h.known
        rw [Names.Knows, ← he, ho] at hk
        cases hk
      rw [ho, substitute, if_neg hne, Option.map_none, Option.map_eq_none_iff] at hp
      refine hcode ?_ ?_ <;> simp [Called.rename, Called.resolve, substitute, hne, ho, hp]
    | some v =>
      rw [ho] at hp
      obtain ⟨v', hv', hv⟩ := Option.map_eq_some_iff.mp hp
      have ht : v'.type = v.type := congrArg Prod.fst hv
      refine hcode ?_ ?_ <;>
        simp [Called.rename, Called.resolve, hv', ho, Callee.receiver, Callee.target, push_eq_of_place hv, ht]

theorem bind_eq {β : Type} {z : String} (hz : z ≠ y) {f : Variable → Option β}
    (hf : ∀ v v' : Variable, v'.place = v.place → f v' = f v) :
    (names'.scopes.resolve? (substitute x y z)).bind f = (names.scopes.resolve? z).bind f :=
  bind_eq_of_place (h.place_eq z hz) hf

end Renamed

theorem Expression.length_renameAll (x y : String) (es : List Expression) :
    (Expression.renameAll x y es).length = es.length := by
  induction es with
  | nil => rfl
  | cons e es ih => rw [Expression.renameAll, List.length_cons, List.length_cons, ih]

mutual

theorem Term.code?_rename (h : Renamed x y names names') {t : Term}
    (ht : Words (· ≠ y) (tokens t.derivation)) : (t.rename x y).code? names' = t.code? names := by
  cases t with
  | integer | string | constant => rfl
  | name z =>
    simp only [Term.derivation, Event.tokens_span, Event.tokens_consumed, words_cons] at ht
    rw [Term.rename, Term.code?_name, Term.code?_name, Option.map_eq_bind, Option.map_eq_bind]
    exact h.bind_eq (ht.1 z rfl) fun v v' hv => by simp [push_eq_of_place hv]
  | element z index =>
    simp only [Term.derivation, Event.bracketed, Event.tokens_span, Event.tokens_consumed,
      Event.tokens_append, words_cons, words_append] at ht
    rw [Term.rename, Term.code?_element, Term.code?_element, Expression.code?_rename h ht.2.2.1]
    exact h.bind_eq (ht.1 z rfl) fun v v' hv => by rw [push_eq_of_place hv]
  | call called arguments =>
    simp only [Term.derivation, Event.parenthesized, Event.tokens_span, Event.tokens_consumed,
      Event.tokens_append, words_cons, words_append] at ht
    rw [Term.rename, Term.code?_call, Term.code?_call, Expression.codeAll?_rename h ht.2.2.1,
      Expression.length_renameAll, h.codeWith_eq ht.1]
  | group inner =>
    simp only [Term.derivation, Event.parenthesized, Event.tokens_span, Event.tokens_consumed,
      Event.tokens_append, words_cons, words_append] at ht
    rw [Term.rename, Term.code?_group, Term.code?_group, Expression.code?_rename h ht.2.1]
  | unary op operand =>
    simp only [Term.derivation, Event.tokens_span, Event.tokens_consumed, words_cons] at ht
    rw [Term.rename, Term.code?_unary, Term.code?_unary, Term.code?_rename h ht.2]

theorem Expression.code?_rename (h : Renamed x y names names') {e : Expression}
    (he : Words (· ≠ y) (tokens e.derivation)) : (e.rename x y).code? names' = e.code? names := by
  obtain ⟨first, rest⟩ := e
  simp only [Expression.derivation, Event.tokens_span, Event.tokens_append, words_append] at he
  rw [Expression.rename, Expression.code?_chain, Expression.code?_chain, Term.code?_rename h he.1,
    Expression.codeRest?_rename h he.2]

theorem Expression.codeRest?_rename (h : Renamed x y names names') {rest : List (BinaryOp × Term)}
    (hr : Words (· ≠ y) (tokens (Expression.derivationRest rest))) :
    Expression.codeRest? names' (Expression.renameRest x y rest) = Expression.codeRest? names rest := by
  match rest with
  | [] => rfl
  | (op, operand) :: rest =>
    simp only [Expression.derivationRest, Event.tokens_consumed, Event.tokens_append, words_cons,
      words_append] at hr
    rw [Expression.renameRest, Expression.codeRest?_cons, Expression.codeRest?_cons,
      Term.code?_rename h hr.2.1, Expression.codeRest?_rename h hr.2.2]

theorem Expression.codeAll?_rename (h : Renamed x y names names') {es : List Expression}
    (he : Words (· ≠ y) (tokens (Expression.derivationAll es))) :
    Expression.codeAll? names' (Expression.renameAll x y es) = Expression.codeAll? names es := by
  match es with
  | [] => rfl
  | e :: es =>
    simp only [Expression.derivationAll, Event.tokens_append, words_append] at he
    rw [Expression.renameAll, Expression.codeAll?_cons, Expression.codeAll?_cons,
      Expression.code?_rename h he.1, Expression.codeAll?_rename h (Expression.words_more.mp he.2)]

end

mutual

theorem Statement.code?_rename (h : Renamed x y names names') {s : Statement}
    (hs : Words (· ≠ y) (tokens s.derivation)) (k : LabelCount) :
    (s.rename x y).code? names' k = s.code? names k := by
  cases s with
  | assign z value =>
    simp only [Statement.derivation, Event.tokens_span, Event.tokens_consumed, Event.tokens_append,
      words_cons, words_append] at hs
    rw [Statement.rename, Statement.code?_assign, Statement.code?_assign,
      Expression.code?_rename h hs.2.2.2.1]
    exact h.bind_eq (hs.2.1 z rfl) fun v v' hv => by rw [pop_eq_of_place hv]
  | store z index value =>
    simp only [Statement.derivation, Event.bracketed, Event.tokens_span, Event.tokens_consumed,
      Event.tokens_append, List.cons_append, List.append_assoc, words_cons, words_append] at hs
    obtain ⟨-, hz, -, hindex, -, -, -, hvalue, -⟩ := hs
    rw [Statement.rename, Statement.code?_store, Statement.code?_store,
      Expression.code?_rename h hindex, Expression.code?_rename h hvalue]
    exact h.bind_eq (hz z rfl) fun v v' hv => by rw [push_eq_of_place hv]
  | ifThen condition yes =>
    simp only [Statement.derivation, Event.parenthesized, Event.braced, Event.tokens_span,
      Event.tokens_consumed, Event.tokens_append, List.cons_append, List.append_assoc, words_cons,
      words_append] at hs
    obtain ⟨-, -, hc, -, -, -, hyes, -⟩ := hs
    rw [Statement.rename, Statement.code?_ifThen, Statement.code?_ifThen, Expression.code?_rename h hc,
      Statement.codeAll?_rename h hyes]
  | ifElse condition yes no =>
    simp only [Statement.derivation, Event.parenthesized, Event.braced, Event.tokens_span,
      Event.tokens_consumed, Event.tokens_append, List.cons_append, List.append_assoc, words_cons,
      words_append] at hs
    obtain ⟨-, -, hc, -, -, -, hyes, -, -, -, -, hno, -⟩ := hs
    simp only [Statement.rename, Statement.code?_ifElse, Expression.code?_rename h hc,
      Statement.codeAll?_rename h hyes, Statement.codeAll?_rename h hno]
  | «while» condition body =>
    simp only [Statement.derivation, Event.parenthesized, Event.braced, Event.tokens_span,
      Event.tokens_consumed, Event.tokens_append, List.cons_append, List.append_assoc, words_cons,
      words_append] at hs
    obtain ⟨-, -, hc, -, -, -, hbody, -⟩ := hs
    rw [Statement.rename, Statement.code?_while, Statement.code?_while, Expression.code?_rename h hc,
      Statement.codeAll?_rename h hbody]
  | «do» called arguments =>
    simp only [Statement.derivation, Event.parenthesized, Event.tokens_span, Event.tokens_consumed,
      Event.tokens_append, List.append_assoc, List.cons_append, words_cons, words_append] at hs
    obtain ⟨-, hcalled, -, ha, -⟩ := hs
    rw [Statement.rename, Statement.code?_do, Statement.code?_do, Expression.codeAll?_rename h ha,
      Expression.length_renameAll, h.codeWith_eq hcalled]
  | «return» value => cases value with
    | none => rfl
    | some value =>
      simp only [Statement.derivation, Event.tokens_span, Event.tokens_consumed, Event.tokens_append,
        words_cons, words_append] at hs
      rw [Statement.rename, Statement.code?_return, Statement.code?_return,
        Expression.code?_rename h hs.2.1]

theorem Statement.codeAll?_rename (h : Renamed x y names names') {ss : List Statement}
    (hs : Words (· ≠ y) (tokens (Statement.derivationAll ss))) (k : LabelCount) :
    Statement.codeAll? names' k (Statement.renameAll x y ss) = Statement.codeAll? names k ss := by
  match ss with
  | [] => rfl
  | s :: ss =>
    simp only [Statement.derivationAll, Event.tokens_append, words_append] at hs
    simp only [Statement.renameAll, Statement.codeAll?_cons, Statement.code?_rename h hs.1,
      Statement.codeAll?_rename h hs.2]

end

end Code

section Scope

variable {x y : String}

theorem substitute_inj {a b : String} (ha : a ≠ y) (hb : b ≠ y) :
    substitute x y a = substitute x y b ↔ a = b := by
  unfold substitute
  by_cases hax : a = x <;> by_cases hbx : b = x
  · simp [hax, hbx]
  · simp [hax, hbx, Ne.symm hb, Ne.symm hbx]
  · simp [hax, hbx, ha]
  · simp [hax, hbx]

def renameEntry (x y : String) (e : Entry) : Entry :=
  ⟨e.kind, e.type, substitute x y e.name⟩

theorem countP_renameEntry (k : VariableKind) (es : List Entry) :
    (es.map (renameEntry x y)).countP (·.kind = k) = es.countP (·.kind = k) := by
  rw [List.countP_map]
  rfl

theorem find?_rename {before before' es : List Entry} (hy : y ∉ es.map (·.name))
    (hb : ∀ k : VariableKind, before'.countP (·.kind = k) = before.countP (·.kind = k)) {z : String}
    (hz : z ≠ y) :
    (Entry.find? before' (es.map (renameEntry x y)) (substitute x y z)).map Variable.place =
      (Entry.find? before es z).map Variable.place := by
  induction es generalizing before before' with
  | nil => rfl
  | cons e es ih =>
    rw [List.map_cons, List.mem_cons, not_or] at hy
    have hb' (k : VariableKind) : (before' ++ [renameEntry x y e]).countP (·.kind = k) =
        (before ++ [e]).countP (·.kind = k) := by
      rw [List.countP_append, List.countP_append, hb k]
      rfl
    have hn : (renameEntry x y e).name = substitute x y z ↔ e.name = z :=
      substitute_inj (Ne.symm hy.1) hz
    rw [List.map_cons, Entry.find?, Entry.find?, ite_congr (propext hn) (fun _ => rfl) fun _ => rfl,
      apply_ite (Option.map _), apply_ite (Option.map _), ih hy.2 hb', hb]
    rfl

variable {c : Class} {s : Subroutine} {names : Names}

theorem Subroutine.entries_rename (h : s.kind = .method → x ≠ "this") (className : String) :
    (s.rename x y).entries className = (s.entries className).map (renameEntry x y) := by
  have hr : (receiverEntry className s.kind).map (renameEntry x y) = receiverEntry className s.kind := by
    cases hk : s.kind with
    | method => simp [receiverEntry, renameEntry, substitute, Ne.symm (h hk)]
    | constructor | function => rfl
  simp [entries, rename, hr, parameterEntry, renameEntry, Variables.entries, Variables.rename,
    Variables.names, List.flatMap_map, List.map_flatMap, Function.comp_def]

theorem Subroutine.names_entries (className : String) (s : Subroutine) :
    (s.entries className).map (·.name) =
      (receiverEntry className s.kind).map (·.name) ++ s.declared := by
  simp [entries, declared, parameterEntry, Variables.entries, List.map_flatMap, Function.comp_def]

theorem Subroutine.ne_this_of_nodup {className : String} (h : ((s.entries className).map (·.name)).Nodup)
    (hx : x ∈ s.declared) (hk : s.kind = .method) : x ≠ "this" := by
  rintro rfl
  rw [names_entries, hk] at h
  exact (List.nodup_cons.mp h).1 hx

theorem Class.scope?_eq_some_iff : c.scope? s = some names ↔
    ∃ scopes, Scopes.empty.enterAll c.entries = some scopes ∧
      ∃ scopes', scopes.leaveSubroutine.enterAll (s.entries c.name) = some scopes' ∧
        ⟨c.name, scopes'⟩ = names := by
  simp only [scope?, Option.bind_eq_bind, Option.bind_eq_some_iff, Option.some.injEq]

section Declared

variable {scopes scopes' scopes'' : Scopes} {className : String}

/-- What is declared under other names finds as much room. -/
theorem Subroutine.exists_enterAll_rename
    (hs : scopes.leaveSubroutine.enterAll (s.entries className) = some scopes') (hx : x ∈ s.declared)
    (hy : y ∉ (s.entries className).map (·.name)) :
    ∃ scopes'', scopes.leaveSubroutine.enterAll ((s.rename x y).entries className) = some scopes'' := by
  obtain ⟨hnodup, hroom⟩ := (s.isSome_enterAll_entries scopes className).mp (Option.isSome_of_eq_some hs)
  refine Option.isSome_iff_exists.mp (((s.rename x y).isSome_enterAll_entries scopes className).mpr ?_)
  rw [s.entries_rename (Subroutine.ne_this_of_nodup hnodup hx)]
  refine ⟨?_, fun k => ?_⟩
  · have hmap : ((s.entries className).map (renameEntry x y)).map (·.name) =
        ((s.entries className).map (·.name)).map (substitute x y) := by
      simp [renameEntry, Function.comp_def]
    rw [hmap]
    have hne : ∀ a ∈ (s.entries className).map (·.name), a ≠ y := fun a ha he => hy (he ▸ ha)
    exact List.Nodup.map_on (fun a ha b hb => (substitute_inj (hne a ha) (hne b hb)).mp) hnodup
  · rw [countP_renameEntry]
    exact hroom k

theorem Class.place_eq_rename (hc : Scopes.empty.enterAll c.entries = some scopes)
    (hs : scopes.leaveSubroutine.enterAll (s.entries c.name) = some scopes')
    (hs' : scopes.leaveSubroutine.enterAll ((s.rename x y).entries c.name) = some scopes'')
    (he : (s.rename x y).entries c.name = (s.entries c.name).map (renameEntry x y))
    (hx : x ∈ (s.entries c.name).map (·.name)) (hy : y ∉ (s.entries c.name).map (·.name)) {z : String}
    (hz : z ≠ y) : (scopes''.resolve? (substitute x y z)).map Variable.place =
      (scopes'.resolve? z).map Variable.place := by
  have hfind : (Entry.find? [] ((s.rename x y).entries c.name) (substitute x y z)).map Variable.place =
      (Entry.find? [] (s.entries c.name) z).map Variable.place :=
    he ▸ find?_rename hy (fun _ => rfl) hz
  rw [Subroutine.resolve?_eq_find? hc hs', Subroutine.resolve?_eq_find? hc hs, Class.find?, Class.find?,
    Entry.find?_append, Entry.find?_append, Option.map_or, Option.map_or, hfind, List.nil_append,
    List.nil_append]
  by_cases hzx : z = x
  · obtain ⟨v, hv⟩ := Entry.exists_find? [] (hzx ▸ hx)
    rw [hv]
    rfl
  · rw [substitute, if_neg hzx, he,
      Entry.find?_congr fun e _ => countP_renameEntry e.kind (s.entries c.name)]

end Declared

/-- All names can still be declared, and stand for what they stood for. -/
theorem Class.exists_renamed (h : c.scope? s = some names) (hx : x ∈ s.declared) (hthis : y ≠ "this")
    (hy : y ∉ s.declared) : ∃ names', c.scope? (s.rename x y) = some names' ∧ Renamed x y names names' := by
  obtain ⟨scopes, hc, scopes', hs, rfl⟩ := scope?_eq_some_iff.mp h
  have hnodup := ((s.isSome_enterAll_entries scopes c.name).mp (Option.isSome_of_eq_some hs)).1
  have hentries := s.entries_rename (y := y) (Subroutine.ne_this_of_nodup hnodup hx) c.name
  have hy' : y ∉ (s.entries c.name).map (·.name) := by
    rw [s.names_entries, List.mem_append, not_or]
    refine ⟨?_, hy⟩
    cases s.kind <;> simp [receiverEntry, hthis]
  have hx' : x ∈ (s.entries c.name).map (·.name) := by
    rw [s.names_entries]
    exact List.mem_append_right _ hx
  obtain ⟨scopes'', hs'⟩ := Subroutine.exists_enterAll_rename hs hx hy'
  refine ⟨⟨c.name, scopes''⟩, scope?_eq_some_iff.mpr ⟨scopes, hc, scopes'', hs', rfl⟩, rfl, ?_, fun z hz => ?_⟩
  · rw [Subroutine.knows_iff hc hs]
    exact .inl hx'
  · exact place_eq_rename hc hs hs' hentries hx' hy' hz

theorem Subroutine.words_declared {P : String → Prop} (h : Words P (Event.tokens s.derivation)) :
    ∀ z ∈ s.declared, P z := by
  obtain ⟨-, -, hp, hl, -⟩ := words_derivation.mp h
  rw [declared, List.forall_mem_append]
  constructor
  · rw [List.forall_mem_map]
    exact fun p hm => (words_parameters hp p hm).2
  · rw [List.forall_mem_flatMap]
    exact fun d hd => Variables.words_names (hl d hd)

theorem Class.codeOf?_rename {q : List VM.Command} (h : c.codeOf? s = some q) (hx : x ∈ s.declared)
    (hthis : y ≠ "this") (hy : Words (· ≠ y) (Event.tokens s.derivation)) :
    c.codeOf? (s.rename x y) = some q := by
  obtain ⟨names, hs, p, hp, hq⟩ := codeOf?_eq_some_iff.mp h
  obtain ⟨names', hs', hr⟩ := exists_renamed hs hx hthis fun hm => Subroutine.words_declared hy y hm rfl
  refine codeOf?_eq_some_iff.mpr ⟨names', hs', p, ?_, ?_⟩
  · obtain ⟨-, -, -, -, hbody⟩ := Subroutine.words_derivation.mp hy
    rw [Subroutine.rename, Statement.codeAll?_rename hr hbody, hp]
  · rw [← hq]
    simp [Subroutine.rename, Declaration.total, Declaration.names, Variables.declaration, Variables.rename,
      List.flatMap_map]

end Scope

end Grammar

end Jack
