import Jack.Proofs.Code.Leaves
import Jack.Proofs.Grammar.Static

namespace Jack

/-- The variables and callees are what some names refer to, and the machine has room for the
constants. -/
def Leaf.Bound (names : Names) : Leaf → Prop
  | .integer value => value ≤ maxConstant
  | .string text => Parse.stringFault? text = none
  | .variable v => ∃ x, names.scopes.resolve? x = some v
  | .callee f => ∃ called : Grammar.Called, called.resolve names = f

def Grammar.Called.names : Called → List String
  | .plain x => [x]
  | .dotted x y => [x, y]

/-- The end is bound, and the names that it has been made of are some that `P` holds of. -/
def Leaf.Spelled (names : Names) (P : String → Prop) : Leaf → Prop
  | .integer value => value ≤ maxConstant
  | .string text => Parse.stringFault? text = none
  | .variable v => ∃ x, P x ∧ names.scopes.resolve? x = some v
  | .callee f => ∃ called : Grammar.Called, (∀ x ∈ called.names, P x) ∧ called.resolve names = f

theorem Leaf.Spelled.bound {names : Names} {P : String → Prop} {l : Leaf} (h : l.Spelled names P) :
    l.Bound names := by
  cases l with
  | integer | string => exact h
  | «variable» v =>
    obtain ⟨x, -, hx⟩ := h
    exact ⟨x, hx⟩
  | callee f =>
    obtain ⟨called, -, hf⟩ := h
    exact ⟨called, hf⟩

namespace Grammar

open Event (tokens)

def Words (P : String → Prop) (ts : List Token) : Prop :=
  ∀ x, .identifier x ∈ ts → P x

variable {names : Names} {P : String → Prop}

theorem words_nil : Words P [] := fun _ h => nomatch h

theorem words_cons {t : Token} {ts : List Token} :
    Words P (t :: ts) ↔ (∀ x, t = .identifier x → P x) ∧ Words P ts := by
  simp only [Words, List.mem_cons, or_imp, forall_and, @eq_comm _ (Token.identifier _)]

theorem words_append {ts us : List Token} : Words P (ts ++ us) ↔ Words P ts ∧ Words P us := by
  simp only [Words, List.mem_append, or_imp, forall_and]

theorem words_flatMap {α : Type} {xs : List α} {f : α → List Token} :
    Words P (xs.flatMap f) ↔ ∀ x ∈ xs, Words P (f x) := by
  simp only [Words, List.mem_flatMap]
  exact ⟨fun h x hx y hy => h y ⟨x, hx, hy⟩, fun h y ⟨x, hx, hy⟩ => h x hx y hy⟩

theorem Called.words {called : Called} :
    Words P (tokens called.derivation) ↔ ∀ x ∈ called.names, P x := by
  cases called <;> simp [Called.derivation, Called.names, words_cons, words_nil]

theorem Expression.words_more {ss : List Expression} :
    Words P (tokens (Expression.derivationMore ss)) ↔
      Words P (tokens (Expression.derivationAll ss)) := by
  cases ss <;>
    simp [Expression.derivationMore, Expression.derivationAll, words_cons]

mutual

theorem Term.spelled {s : Term} {t : Jack.Term} (h : s.resolve names = some t)
    (hP : Words P (tokens s.derivation)) : ∀ l ∈ t.leaves, l.Spelled names P := by
  cases s with
  | integer value =>
    simp only [Term.resolve, Option.ite_none_right_eq_some, Option.some.injEq] at h
    obtain ⟨hv, rfl⟩ := h
    simp [Jack.Term.leaves, Leaf.Spelled, hv]
  | string text =>
    simp only [Term.resolve, Option.ite_none_right_eq_some, Option.some.injEq] at h
    obtain ⟨hf, rfl⟩ := h
    simp [Jack.Term.leaves, Leaf.Spelled, hf]
  | constant value =>
    cases h
    simp [Jack.Term.leaves]
  | name x =>
    obtain ⟨v, hv, rfl⟩ := Option.map_eq_some_iff.mp h
    simp only [Term.derivation, Event.tokens_span, Event.tokens_consumed, words_cons] at hP
    rw [Jack.Term.leaves, List.forall_mem_singleton]
    exact ⟨x, hP.1 x rfl, hv⟩
  | element x index =>
    obtain ⟨v, hv, i, hi, rfl⟩ := bind₂_eq_some_iff.mp h
    simp only [Term.derivation, Event.bracketed, Event.tokens_span, Event.tokens_consumed,
      Event.tokens_append, words_cons, words_append] at hP
    rw [Jack.Term.leaves, List.forall_mem_cons]
    exact ⟨⟨x, hP.1 x rfl, hv⟩, Expression.spelled hi hP.2.2.1⟩
  | call called arguments =>
    obtain ⟨es, hes, rfl⟩ := Option.map_eq_some_iff.mp h
    simp only [Term.derivation, Event.parenthesized, Event.tokens_span, Event.tokens_consumed,
      Event.tokens_append, words_cons, words_append] at hP
    rw [Jack.Term.leaves, List.forall_mem_cons]
    exact ⟨⟨called, Called.words.mp hP.1, rfl⟩, Expression.spelled_all hes hP.2.2.1⟩
  | group inner =>
    obtain ⟨e, he, rfl⟩ := Option.map_eq_some_iff.mp h
    simp only [Term.derivation, Event.parenthesized, Event.tokens_span, Event.tokens_consumed,
      Event.tokens_append, words_cons, words_append] at hP
    rw [Jack.Term.leaves]
    exact Expression.spelled he hP.2.1
  | unary op operand =>
    obtain ⟨t, ht, rfl⟩ := Option.map_eq_some_iff.mp h
    simp only [Term.derivation, Event.tokens_span, Event.tokens_consumed, words_cons] at hP
    rw [Jack.Term.leaves]
    exact Term.spelled ht hP.2

theorem Expression.spelled {s : Expression} {e : Jack.Expression} (h : s.resolve names = some e)
    (hP : Words P (tokens s.derivation)) : ∀ l ∈ e.leaves, l.Spelled names P := by
  obtain ⟨first, rest⟩ := s
  obtain ⟨t, ht, ts, hts, rfl⟩ := bind₂_eq_some_iff.mp h
  simp only [Expression.derivation, Event.tokens_span, Event.tokens_append, words_append] at hP
  rw [Jack.Expression.leaves, List.forall_mem_append]
  exact ⟨Term.spelled ht hP.1, Expression.spelled_rest hts hP.2⟩

theorem Expression.spelled_rest {ss : List (BinaryOp × Term)} {ts : List (BinaryOp × Jack.Term)}
    (h : Expression.resolveRest names ss = some ts)
    (hP : Words P (tokens (Expression.derivationRest ss))) :
    ∀ l ∈ ts.flatMap (·.2.leaves), l.Spelled names P := by
  match ss with
  | [] =>
    cases h
    simp
  | (op, s) :: ss =>
    obtain ⟨t, ht, ts, hts, rfl⟩ := bind₂_eq_some_iff.mp h
    simp only [Expression.derivationRest, Event.tokens_consumed, Event.tokens_append, words_cons,
      words_append] at hP
    rw [List.flatMap_cons, List.forall_mem_append]
    exact ⟨Term.spelled ht hP.2.1, Expression.spelled_rest hts hP.2.2⟩

theorem Expression.spelled_all {ss : List Expression} {es : List Jack.Expression}
    (h : Expression.resolveAll names ss = some es)
    (hP : Words P (tokens (Expression.derivationAll ss))) :
    ∀ l ∈ es.flatMap (·.leaves), l.Spelled names P := by
  match ss with
  | [] =>
    cases h
    simp
  | s :: ss =>
    obtain ⟨e, he, es, hes, rfl⟩ := bind₂_eq_some_iff.mp h
    simp only [Expression.derivationAll, Event.tokens_append, words_append] at hP
    rw [List.flatMap_cons, List.forall_mem_append]
    exact ⟨Expression.spelled he hP.1, Expression.spelled_all hes (Expression.words_more.mp hP.2)⟩

end

mutual

theorem Statement.spelled {s : Statement} {r : Jack.Statement} (h : s.resolve names = some r)
    (hP : Words P (tokens s.derivation)) : ∀ l ∈ r.leaves, l.Spelled names P := by
  cases s with
  | assign x value =>
    obtain ⟨v, hv, e, he, rfl⟩ := bind₂_eq_some_iff.mp h
    simp only [Statement.derivation, Event.tokens_span, Event.tokens_consumed, Event.tokens_append,
      words_cons, words_append] at hP
    rw [Jack.Statement.leaves, List.forall_mem_cons]
    exact ⟨⟨x, hP.2.1 x rfl, hv⟩, Expression.spelled he hP.2.2.2.1⟩
  | store x index value =>
    obtain ⟨v, hv, i, hi, e, he, rfl⟩ := bind₃_eq_some_iff.mp h
    simp only [Statement.derivation, Event.bracketed, Event.tokens_span, Event.tokens_consumed,
      Event.tokens_append, List.cons_append, List.append_assoc, words_cons, words_append] at hP
    rw [Jack.Statement.leaves, List.cons_append, List.forall_mem_cons, List.forall_mem_append]
    obtain ⟨-, hx, -, hin, -, -, -, hval, -⟩ := hP
    exact ⟨⟨x, hx x rfl, hv⟩, Expression.spelled hi hin, Expression.spelled he hval⟩
  | ifThen condition yes =>
    obtain ⟨e, he, ys, hys, rfl⟩ := bind₂_eq_some_iff.mp h
    simp only [Statement.derivation, Event.parenthesized, Event.braced, Event.tokens_span,
      Event.tokens_consumed, Event.tokens_append, List.cons_append, List.append_assoc, words_cons,
      words_append] at hP
    obtain ⟨-, -, hc, -, -, -, hy, -⟩ := hP
    rw [Jack.Statement.leaves, List.forall_mem_append]
    exact ⟨Expression.spelled he hc, Statement.spelled_all hys hy⟩
  | ifElse condition yes no =>
    obtain ⟨e, he, ys, hys, ns, hns, rfl⟩ := bind₃_eq_some_iff.mp h
    simp only [Statement.derivation, Event.parenthesized, Event.braced, Event.tokens_span,
      Event.tokens_consumed, Event.tokens_append, List.cons_append, List.append_assoc, words_cons,
      words_append] at hP
    obtain ⟨-, -, hc, -, -, -, hy, -, -, -, -, hn, -⟩ := hP
    rw [Jack.Statement.leaves, List.forall_mem_append, List.forall_mem_append]
    exact ⟨⟨Expression.spelled he hc, Statement.spelled_all hys hy⟩, Statement.spelled_all hns hn⟩
  | «while» condition body =>
    obtain ⟨e, he, ss, hss, rfl⟩ := bind₂_eq_some_iff.mp h
    simp only [Statement.derivation, Event.parenthesized, Event.braced, Event.tokens_span,
      Event.tokens_consumed, Event.tokens_append, List.cons_append, List.append_assoc, words_cons,
      words_append] at hP
    obtain ⟨-, -, hc, -, -, -, hb, -⟩ := hP
    rw [Jack.Statement.leaves, List.forall_mem_append]
    exact ⟨Expression.spelled he hc, Statement.spelled_all hss hb⟩
  | «do» called arguments =>
    obtain ⟨es, hes, rfl⟩ := Option.map_eq_some_iff.mp h
    simp only [Statement.derivation, Event.parenthesized, Event.tokens_span, Event.tokens_consumed,
      Event.tokens_append, List.append_assoc, List.cons_append, words_cons, words_append] at hP
    obtain ⟨-, hf, -, ha, -⟩ := hP
    rw [Jack.Statement.leaves, List.forall_mem_cons]
    exact ⟨⟨called, Called.words.mp hf, rfl⟩, Expression.spelled_all hes ha⟩
  | «return» value => cases value with
    | none =>
      cases h
      simp [Jack.Statement.leaves]
    | some value =>
      obtain ⟨e, he, rfl⟩ := Option.map_eq_some_iff.mp h
      simp only [Statement.derivation, Event.tokens_span, Event.tokens_consumed, Event.tokens_append,
        words_cons, words_append] at hP
      rw [Jack.Statement.leaves]
      exact Expression.spelled he hP.2.1

theorem Statement.spelled_all {ss : List Statement} {rs : List Jack.Statement}
    (h : Statement.resolveAll names ss = some rs)
    (hP : Words P (tokens (Statement.derivationAll ss))) :
    ∀ l ∈ Jack.Statement.leavesAll rs, l.Spelled names P := by
  match ss with
  | [] =>
    cases h
    simp [Jack.Statement.leavesAll]
  | s :: ss =>
    obtain ⟨r, hr, rs, hrs, rfl⟩ := bind₂_eq_some_iff.mp h
    simp only [Statement.derivationAll, Event.tokens_append, words_append] at hP
    rw [Jack.Statement.leavesAll, List.forall_mem_append]
    exact ⟨Statement.spelled hr hP.1, Statement.spelled_all hrs hP.2⟩

end

theorem Statement.bound_all {ss : List Statement} {rs : List Jack.Statement}
    (h : Statement.resolveAll names ss = some rs) : ∀ l ∈ Jack.Statement.leavesAll rs, l.Bound names :=
  fun l hl => (Statement.spelled_all (P := fun _ => True) h (fun _ _ => trivial) l hl).bound

section Words

variable {c : Class} {s : Subroutine}

theorem Class.words_tokens : Words P c.tokens ↔
    P c.name ∧ (∀ d ∈ c.declarations, Words P (Event.tokens d.2.derivation)) ∧
      ∀ s ∈ c.subroutines, Words P (Event.tokens s.derivation) := by
  simp [Class.tokens, Class.derivation, classVarDec, Event.braced, words_cons, words_append, words_nil,
    words_flatMap, Event.tokens_flatMap]

theorem Subroutine.words_derivation : Words P (tokens s.derivation) ↔
    Words P [s.returnType.token] ∧ P s.name ∧ Words P (tokens (parameterDerivations s.parameters)) ∧
      (∀ d ∈ s.locals, Words P (tokens d.derivation)) ∧
        Words P (tokens (Statement.derivationAll s.body)) := by
  simp [Subroutine.derivation, varDec, Event.parenthesized, Event.braced, words_cons, words_append,
    words_nil, words_flatMap, Event.tokens_flatMap]

theorem words_parameters {ps : List Parameter} (h : Words P (tokens (parameterDerivations ps))) :
    ∀ p ∈ ps, Words P [p.type.token] ∧ P p.name := by
  have hp {p : Parameter} (h : Words P (p.type.token :: [.identifier p.name])) :
      Words P [p.type.token] ∧ P p.name := by
    rw [words_cons, words_cons] at h
    exact ⟨words_cons.mpr ⟨h.1, words_nil⟩, h.2.1 _ rfl⟩
  cases ps with
  | nil => exact List.forall_mem_nil _
  | cons p ps =>
    simp only [parameterDerivations, parameterDerivation, Event.tokens_append, Event.tokens_consumed,
      Event.tokens_flatMap, Event.tokens_nil, words_append, words_flatMap] at h
    rw [List.forall_mem_cons]
    exact ⟨hp h.1, fun q hq => hp (words_cons.mp (h.2 q hq)).2⟩

theorem Variables.words_names {d : Variables} (h : Words P (tokens d.derivation)) : ∀ x ∈ d.names, P x := by
  simp only [Variables.derivation, Event.tokens_consumed, Event.tokens_append, Event.tokens_flatMap,
    words_cons, words_append, words_flatMap] at h
  obtain ⟨-, hfirst, hmore, -⟩ := h
  rw [Variables.names, List.forall_mem_cons]
  exact ⟨hfirst _ rfl, fun x hx => (hmore x hx).2.1 x rfl⟩

end Words

theorem mem_mapM_iff {α β : Type} {f : α → Option β} {xs : List α} {ys : List β}
    (h : xs.mapM f = some ys) {y : β} : y ∈ ys ↔ ∃ x ∈ xs, f x = some y := by
  induction xs generalizing ys with
  | nil =>
    cases h
    simp
  | cons x xs ih =>
    rw [List.mapM_cons] at h
    obtain ⟨z, hz, zs, hzs, rfl⟩ := bind₂_eq_some_iff.mp h
    simp [ih hzs, hz, eq_comm]

theorem Variables.countP_entries (kind k : VariableKind) (d : Variables) :
    (d.entries kind).countP (·.kind = k) = if kind = k then d.names.length else 0 := by
  by_cases hk : kind = k <;> simp [Variables.entries, hk, Function.comp_def]

theorem total_declaration (k : VariableKind) (ds : List (ClassVariable × Variables)) :
    Declaration.total ((ds.map fun d => d.2.declaration d.1.kind).filter (·.kind = k)) =
      (ds.flatMap fun d => d.2.entries d.1.kind).countP (·.kind = k) := by
  induction ds with
  | nil => rfl
  | cons d ds ih =>
    rw [List.flatMap_cons, List.countP_append, ← ih, Variables.countP_entries, List.map_cons]
    by_cases hk : d.1.kind = k
    · have hd : (d.2.declaration d.1.kind).kind = k := hk
      rw [List.filter_cons_of_pos (by simpa using hd), if_pos hk]
      exact List.length_append
    · have hd : ¬ (d.2.declaration d.1.kind).kind = k := hk
      rw [List.filter_cons_of_neg (by simpa using hd), if_neg hk, Nat.zero_add]

namespace Class

variable {c : Class} {r : Jack.Class}

theorem exists_kind_of_resolve (h : c.resolve = some r) {s : Subroutine} (hs : s ∈ c.subroutines) :
    ∃ s' ∈ r.subroutines, s'.kind = s.kind := by
  obtain ⟨scopes, -, ss, hss, rfl⟩ := resolve_eq_some_iff.mp h
  obtain ⟨s', hs'⟩ := Option.isSome_iff_exists.mp
    (isSome_mapM.mp (Option.isSome_of_eq_some hss) s hs)
  refine ⟨s', (mem_mapM_iff hss).mpr ⟨s, hs, hs'⟩, ?_⟩
  obtain ⟨-, -, -, -, rfl⟩ := Subroutine.resolve_eq_some_iff.mp hs'
  rfl

/-- The size of the objects is the number of fields that are declared. -/
theorem fields_of_resolve (h : c.resolve = some r) : r.fields = c.entries.countP (·.kind = .field) := by
  obtain ⟨scopes, -, ss, -, rfl⟩ := resolve_eq_some_iff.mp h
  exact total_declaration .field c.declarations

theorem fields_le (h : c.resolve = some r) : r.fields ≤ maxSlots := by
  have hc : c.Static := c.isSome_resolve.mp (Option.isSome_of_eq_some h)
  rw [fields_of_resolve h]
  exact hc.room .field

end Class

end Grammar

end Jack
