import Jack.Proofs.Grammar.Code
import Jack.Proofs.Grammar.Unambiguous

namespace Jack.Grammar

open VM (Command)
open Event (Balanced span parenthesized bracketed braced)

section Keeps

variable {ρ σ α : Type} {code : Option (List Command)} {emit : ρ → List Command} {emit' : σ → List Command}
  {f f' : Option ρ}

/-- If there is a result, the other is the same, and in what it emits the code is one piece. -/
def Keeps (code : Option (List Command)) (emit : ρ → List Command) (f f' : Option ρ) : Prop :=
  ∀ r, f = some r → f' = some r ∧ ∃ q, code = some q ∧ q <:+: emit r

theorem Keeps.bind {g : ρ → Option σ} (h : Keeps code emit f f')
    (hg : ∀ r u, g r = some u → emit r <:+: emit' u) :
    Keeps code emit' (f.bind g) (f'.bind g) := by
  intro u hu
  obtain ⟨r, rfl, hr⟩ := Option.bind_eq_some_iff.mp hu
  obtain ⟨rfl, q, hq, hin⟩ := h r rfl
  exact ⟨hr, q, hq, hin.trans (hg r u hr)⟩

theorem Keeps.map {g : ρ → σ} (h : Keeps code emit f f') (hg : ∀ r, emit r <:+: emit' (g r)) :
    Keeps code emit' (f.map g) (f'.map g) := by
  rw [Option.map_eq_bind, Option.map_eq_bind]
  refine h.bind fun r u hu => ?_
  cases hu
  exact hg r

/-- It makes no difference what has been computed before. -/
theorem Keeps.under {o : Option α} {g g' : α → Option ρ} (h : ∀ v, Keeps code emit (g v) (g' v)) :
    Keeps code emit (o.bind g) (o.bind g') := by
  intro r hr
  obtain ⟨v, rfl, hv⟩ := Option.bind_eq_some_iff.mp hr
  exact h v r hv

variable {names : Names} {e e' : Expression} {es es' : List Expression}

theorem Keeps.head (h : Keeps code id (e.code? names) (e'.code? names)) :
    Keeps code id (Expression.codeAll? names (e :: es)) (Expression.codeAll? names (e' :: es)) := by
  rw [Expression.codeAll?_cons, Expression.codeAll?_cons]
  refine h.bind fun q u hu => ?_
  obtain ⟨p, -, hu⟩ := Option.bind_eq_some_iff.mp hu
  cases hu
  exact List.infix_append_left

theorem Keeps.tail (h : Keeps code id (Expression.codeAll? names es) (Expression.codeAll? names es')) :
    Keeps code id (Expression.codeAll? names (e :: es)) (Expression.codeAll? names (e :: es')) := by
  rw [Expression.codeAll?_cons, Expression.codeAll?_cons]
  refine .under fun p => h.bind fun q u hu => ?_
  cases hu
  exact List.infix_append_right

end Keeps

/-- What a term or an expression is exchanged for. -/
structure Exchange where
  rule : Rule
  inner : List Event
  new : List Event
  code? : Names → Option (List Command)
  balanced : Balanced inner
  rule_eq : rule = .term ∨ rule = .expression
  term (t : Term) : t.derivation = span rule inner → ∃ t' : Term, t'.derivation = new ∧
    ∀ names, t.code? names = code? names ∧ t'.code? names = code? names
  expression (e : Expression) : e.derivation = span rule inner → ∃ e' : Expression, e'.derivation = new ∧
    ∀ names, e.code? names = code? names ∧ e'.code? names = code? names

namespace Exchange

variable (x : Exchange) {front behind es : List Event} {r : Rule}

def old : List Event := span x.rule x.inner

variable {x}

theorem exists_of_term {t t' : Term} (h : ∀ names, t'.code? names = t.code? names) :
    ∃ x : Exchange, x.old = t.derivation ∧ x.new = t'.derivation ∧ x.code? = fun names => t.code? names := by
  obtain ⟨es, hes, ht⟩ := t.exists_span
  refine ⟨⟨.term, es, t'.derivation, fun names => t.code? names, hes, .inl rfl, fun u hu => ?_,
    fun e he => ?_⟩, ht.symm, rfl, rfl⟩
  · cases Term.eq_of_derivation (hu.trans ht.symm)
    exact ⟨t', rfl, fun names => ⟨rfl, h names⟩⟩
  · obtain ⟨fs, -, he'⟩ := e.exists_span
    cases he'.symm.trans he

theorem exists_of_expression {e e' : Expression} (h : ∀ names, e'.code? names = e.code? names) :
    ∃ x : Exchange, x.old = e.derivation ∧ x.new = e'.derivation ∧ x.code? = fun names => e.code? names := by
  obtain ⟨es, hes, he⟩ := e.exists_span
  refine ⟨⟨.expression, es, e'.derivation, fun names => e.code? names, hes, .inr rfl, fun t ht => ?_,
    fun f hf => ?_⟩, he.symm, rfl, rfl⟩
  · obtain ⟨fs, -, ht'⟩ := t.exists_span
    cases ht'.symm.trans ht
  · cases Expression.eq_of_derivation (hf.trans he.symm)
    exact ⟨e', rfl, fun names => ⟨rfl, h names⟩⟩

theorem split_span (hr : r ≠ .term ∧ r ≠ .expression) (h : Balanced es)
    (he : span r es = front ++ (x.old ++ behind)) :
    ∃ front' behind', front = .enter r :: front' ∧ behind = behind' ++ [.leave r] ∧
      es = front' ++ (x.old ++ behind') := by
  obtain ⟨-, -, rfl, -⟩ | h := Event.split_span x.balanced h he
  · exact (x.rule_eq.elim hr.1 hr.2).elim
  · exact h

theorem not_split_tokens (ts : List Token) : ts.map .consumed ≠ front ++ (x.old ++ behind) := by
  intro h
  have hm : Event.enter x.rule ∈ ts.map .consumed := h ▸ by simp [old, span]
  simp at hm

theorem keeps_same {o : Option (List Command)} : Keeps o id o o :=
  fun q hq => ⟨hq, q, hq, List.infix_rfl⟩

theorem split_call {called : Called} {arguments : List Expression}
    (he : called.derivation ++ parenthesized (span .expressionList (Expression.derivationAll arguments)) =
      front ++ (x.old ++ behind)) :
    ∃ front' behind', Expression.derivationAll arguments = front' ++ (x.old ++ behind') ∧
      ∀ arguments', Expression.derivationAll arguments' = front' ++ (x.new ++ behind') →
        called.derivation ++ parenthesized (span .expressionList (Expression.derivationAll arguments')) =
          front ++ (x.new ++ behind) := by
  have hall := Expression.balanced_all arguments
  obtain ⟨more, -, hm⟩ | ⟨more, rfl, hm⟩ := Event.split_append x.balanced called.balanced he
  · cases called with
    | plain name => exact (not_split_tokens [.identifier name] hm).elim
    | dotted owner name =>
      exact (not_split_tokens [.identifier owner, .symbol .dot, .identifier name] hm).elim
  · obtain ⟨f, b, rfl, rfl, hes⟩ := Event.split_enclosed x.balanced (hall.span _) hm
    obtain ⟨f, b, rfl, rfl, hin⟩ := split_span (by decide) hall hes
    exact ⟨f, b, hin, fun arguments' ha => by simp [ha, parenthesized, span]⟩

theorem split_block {ss : List Statement}
    (he : braced (span .statements (Statement.derivationAll ss)) = front ++ (x.old ++ behind)) :
    ∃ front' behind', Statement.derivationAll ss = front' ++ (x.old ++ behind') ∧
      ∀ ss', Statement.derivationAll ss' = front' ++ (x.new ++ behind') →
        braced (span .statements (Statement.derivationAll ss')) = front ++ (x.new ++ behind) := by
  have hss := Statement.balanced_all ss
  obtain ⟨f, b, rfl, rfl, hes⟩ := Event.split_enclosed x.balanced (hss.span _) he
  obtain ⟨f, b, rfl, rfl, hin⟩ := split_span (by decide) hss hes
  exact ⟨f, b, hin, fun ss' ha => by simp [ha, braced, span]⟩

theorem term_of {t : Term} (ht : t.derivation = span .term es) (hes : Balanced es)
    (he : t.derivation = front ++ (x.old ++ behind))
    (h : ∀ {front' behind'}, es = front' ++ (x.old ++ behind') →
      ∃ t' : Term, t'.derivation = span .term (front' ++ (x.new ++ behind')) ∧
        ∀ names, Keeps (x.code? names) id (t.code? names) (t'.code? names)) :
    ∃ t' : Term, t'.derivation = front ++ (x.new ++ behind) ∧
      ∀ names, Keeps (x.code? names) id (t.code? names) (t'.code? names) := by
  obtain ⟨rfl, rfl, hr, rfl⟩ | ⟨f, b, rfl, rfl, hin⟩ := Event.split_span x.balanced hes (ht.symm.trans he)
  · obtain ⟨t', hd, hc⟩ := x.term t (hr ▸ ht)
    refine ⟨t', by simp [hd], fun names => ?_⟩
    rw [(hc names).1, (hc names).2]
    exact keeps_same
  · obtain ⟨t', hd, hk⟩ := h hin
    exact ⟨t', by simp [hd, span], hk⟩

end Exchange

open Exchange

mutual

theorem Term.exchange (x : Exchange) {t : Term} {front behind : List Event}
    (he : t.derivation = front ++ (x.old ++ behind)) :
    ∃ t' : Term, t'.derivation = front ++ (x.new ++ behind) ∧
      ∀ names, Keeps (x.code? names) id (t.code? names) (t'.code? names) := by
  cases t with
  | integer value => exact term_of rfl rfl he fun h => (not_split_tokens [.integer value] h).elim
  | string text => exact term_of rfl rfl he fun h => (not_split_tokens [.string text] h).elim
  | constant value => exact term_of rfl rfl he fun h => (not_split_tokens [.keyword value.keyword] h).elim
  | name z => exact term_of rfl rfl he fun h => (not_split_tokens [.identifier z] h).elim
  | element z index =>
    refine term_of rfl (.consumed _ (index.balanced.enclosed _ _)) he fun h => ?_
    obtain ⟨f, rfl, hi⟩ := Event.split_consumed h
    obtain ⟨f, b, rfl, rfl, hindex⟩ := Event.split_enclosed x.balanced index.balanced hi
    obtain ⟨index', hd, hk⟩ := Expression.exchange x hindex
    refine ⟨.element z index', by simp [Term.derivation, hd, bracketed], fun names => ?_⟩
    rw [Term.code?_element, Term.code?_element]
    refine .under fun v => (hk names).bind fun q u hu => ?_
    cases hu
    exact List.infix_append_of_infix_left List.infix_append_left
  | call called arguments =>
    have hall := Expression.balanced_all arguments
    refine term_of rfl (called.balanced.append ((hall.span _).enclosed _ _)) he fun h => ?_
    obtain ⟨f, b, ha, hcall⟩ := split_call h
    obtain ⟨arguments', hl, hd, hk⟩ := Expression.exchange_all x ha
    refine ⟨.call called arguments', by rw [Term.derivation, hcall _ hd], fun names => ?_⟩
    rw [Term.code?_call, Term.code?_call, hl]
    exact (hk names).map fun q => List.infix_append _ _ _
  | group inner =>
    refine term_of rfl (inner.balanced.enclosed _ _) he fun h => ?_
    obtain ⟨f, b, rfl, rfl, hin⟩ := Event.split_enclosed x.balanced inner.balanced h
    obtain ⟨inner', hd, hk⟩ := Expression.exchange x hin
    refine ⟨.group inner', by simp [Term.derivation, hd, parenthesized], fun names => ?_⟩
    rw [Term.code?_group, Term.code?_group]
    exact hk names
  | unary op operand =>
    refine term_of rfl (.consumed _ operand.balanced) he fun h => ?_
    obtain ⟨f, rfl, hin⟩ := Event.split_consumed h
    obtain ⟨operand', hd, hk⟩ := Term.exchange x hin
    refine ⟨.unary op operand', by simp [Term.derivation, hd], fun names => ?_⟩
    rw [Term.code?_unary, Term.code?_unary]
    exact (hk names).map fun q => List.infix_append_left

theorem Expression.exchange (x : Exchange) {e : Expression} {front behind : List Event}
    (he : e.derivation = front ++ (x.old ++ behind)) :
    ∃ e' : Expression, e'.derivation = front ++ (x.new ++ behind) ∧
      ∀ names, Keeps (x.code? names) id (e.code? names) (e'.code? names) := by
  obtain ⟨first, rest⟩ := e
  have hrest := Expression.balanced_rest rest
  obtain ⟨rfl, rfl, hr, hin⟩ | ⟨f, b, rfl, rfl, hin⟩ :=
    Event.split_span x.balanced (first.balanced.append hrest) he
  · obtain ⟨e', hd, hc⟩ := x.expression (.chain first rest) (by rw [Expression.derivation, hin, hr])
    refine ⟨e', by simp [hd], fun names => ?_⟩
    rw [(hc names).1, (hc names).2]
    exact keeps_same
  obtain ⟨b, rfl, hfirst⟩ | ⟨f, rfl, hmore⟩ := Event.split_append x.balanced first.balanced hin
  · obtain ⟨first', hd, hk⟩ := Term.exchange x hfirst
    refine ⟨.chain first' rest, by simp [Expression.derivation, hd, span], fun names => ?_⟩
    rw [Expression.code?_chain, Expression.code?_chain]
    refine (hk names).bind fun q u hu => ?_
    obtain ⟨p, -, hu⟩ := Option.bind_eq_some_iff.mp hu
    cases hu
    exact List.infix_append_left
  · obtain ⟨rest', hd, hk⟩ := Expression.exchange_rest x hmore
    refine ⟨.chain first rest', by simp [Expression.derivation, hd, span], fun names => ?_⟩
    rw [Expression.code?_chain, Expression.code?_chain]
    refine .under fun p => (hk names).bind fun q u hu => ?_
    cases hu
    exact List.infix_append_right

theorem Expression.exchange_rest (x : Exchange) {rest : List (BinaryOp × Term)} {front behind : List Event}
    (he : Expression.derivationRest rest = front ++ (x.old ++ behind)) :
    ∃ rest', Expression.derivationRest rest' = front ++ (x.new ++ behind) ∧
      ∀ names, Keeps (x.code? names) id (Expression.codeRest? names rest) (Expression.codeRest? names rest') := by
  match rest with
  | [] => exact (Event.not_split_nil he).elim
  | (op, operand) :: rest =>
    obtain ⟨f, rfl, h⟩ := Event.split_consumed he
    obtain ⟨b, rfl, hoperand⟩ | ⟨f, rfl, hmore⟩ := Event.split_append x.balanced operand.balanced h
    · obtain ⟨operand', hd, hk⟩ := Term.exchange x hoperand
      refine ⟨(op, operand') :: rest, by simp [Expression.derivationRest, hd], fun names => ?_⟩
      rw [Expression.codeRest?_cons, Expression.codeRest?_cons]
      refine (hk names).bind fun q u hu => ?_
      obtain ⟨p, -, hu⟩ := Option.bind_eq_some_iff.mp hu
      cases hu
      exact List.infix_append_of_infix_left List.infix_append_left
    · obtain ⟨rest', hd, hk⟩ := Expression.exchange_rest x hmore
      refine ⟨(op, operand) :: rest', by simp [Expression.derivationRest, hd], fun names => ?_⟩
      rw [Expression.codeRest?_cons, Expression.codeRest?_cons]
      refine .under fun p => (hk names).bind fun q u hu => ?_
      cases hu
      exact List.infix_append_right

theorem Expression.exchange_all (x : Exchange) {es : List Expression} {front behind : List Event}
    (he : Expression.derivationAll es = front ++ (x.old ++ behind)) :
    ∃ es', es'.length = es.length ∧ Expression.derivationAll es' = front ++ (x.new ++ behind) ∧
      ∀ names, Keeps (x.code? names) id (Expression.codeAll? names es) (Expression.codeAll? names es') := by
  match es with
  | [] => exact (Event.not_split_nil he).elim
  | e :: es =>
    obtain ⟨b, rfl, hfirst⟩ | ⟨f, rfl, hmore⟩ := Event.split_append x.balanced e.balanced he
    · obtain ⟨e', hd, hk⟩ := Expression.exchange x hfirst
      exact ⟨e' :: es, rfl, by simp [Expression.derivationAll, hd], fun names => .head (hk names)⟩
    · obtain ⟨es', hl, hd, hk⟩ := Expression.exchange_more x hmore
      exact ⟨e :: es', congrArg (· + 1) hl, by simp [Expression.derivationAll, hd],
        fun names => .tail (hk names)⟩

theorem Expression.exchange_more (x : Exchange) {es : List Expression} {front behind : List Event}
    (he : Expression.derivationMore es = front ++ (x.old ++ behind)) :
    ∃ es', es'.length = es.length ∧ Expression.derivationMore es' = front ++ (x.new ++ behind) ∧
      ∀ names, Keeps (x.code? names) id (Expression.codeAll? names es) (Expression.codeAll? names es') := by
  match es with
  | [] => exact (Event.not_split_nil he).elim
  | e :: es =>
    obtain ⟨f, rfl, h⟩ := Event.split_consumed he
    obtain ⟨b, rfl, hfirst⟩ | ⟨f, rfl, hmore⟩ := Event.split_append x.balanced e.balanced h
    · obtain ⟨e', hd, hk⟩ := Expression.exchange x hfirst
      exact ⟨e' :: es, rfl, by simp [Expression.derivationMore, hd], fun names => .head (hk names)⟩
    · obtain ⟨es', hl, hd, hk⟩ := Expression.exchange_more x hmore
      exact ⟨e :: es', congrArg (· + 1) hl, by simp [Expression.derivationMore, hd],
        fun names => .tail (hk names)⟩

end

def guarded (k : Keyword) (condition : Expression) (ss : List Statement) : List Event :=
  .keyword k :: (parenthesized condition.derivation ++ braced (span .statements (Statement.derivationAll ss)))

theorem balanced_guarded (k : Keyword) (condition : Expression) (ss : List Statement) :
    Balanced (guarded k condition ss) :=
  .consumed _ ((condition.balanced.enclosed _ _).append (((Statement.balanced_all ss).span _).enclosed _ _))

theorem Exchange.split_guarded {x : Exchange} {k : Keyword} {condition : Expression} {ss : List Statement}
    {front behind : List Event} (he : guarded k condition ss = front ++ (x.old ++ behind)) :
    (∃ front' behind', condition.derivation = front' ++ (x.old ++ behind') ∧
      ∀ condition' : Expression, condition'.derivation = front' ++ (x.new ++ behind') →
        guarded k condition' ss = front ++ (x.new ++ behind)) ∨
    ∃ front' behind', Statement.derivationAll ss = front' ++ (x.old ++ behind') ∧
      ∀ ss', Statement.derivationAll ss' = front' ++ (x.new ++ behind') →
        guarded k condition ss' = front ++ (x.new ++ behind) := by
  obtain ⟨f, rfl, h₁⟩ := Event.split_consumed he
  obtain ⟨b, rfl, h₂⟩ | ⟨f, rfl, h₂⟩ := Event.split_append x.balanced (condition.balanced.enclosed _ _) h₁
  · obtain ⟨f, b, rfl, rfl, hin⟩ := Event.split_enclosed x.balanced condition.balanced h₂
    exact .inl ⟨f, b, hin, fun condition' hd => by simp [guarded, hd, parenthesized]⟩
  · obtain ⟨f, b, hin, hblock⟩ := split_block h₂
    exact .inr ⟨f, b, hin, fun ss' hd => by rw [guarded, hblock ss' hd]; simp [parenthesized]⟩

section Statements

variable {x : Exchange}

/-- Whatever is exchanged in a statement, its code stays as it is. -/
def Statement.Exchanges (x : Exchange) (s : Statement) : Prop :=
  ∀ {front behind}, s.derivation = front ++ (x.old ++ behind) →
    ∃ s' : Statement, s'.derivation = front ++ (x.new ++ behind) ∧
      ∀ names k, Keeps (x.code? names) Prod.fst (s.code? names k) (s'.code? names k)

def Statement.AllExchange (x : Exchange) (ss : List Statement) : Prop :=
  ∀ {front behind}, Statement.derivationAll ss = front ++ (x.old ++ behind) →
    ∃ ss', Statement.derivationAll ss' = front ++ (x.new ++ behind) ∧
      ∀ names k, Keeps (x.code? names) Prod.fst (Statement.codeAll? names k ss) (Statement.codeAll? names k ss')

namespace Statement

theorem exchanges_assign (z : String) (value : Expression) : (assign z value).Exchanges x := by
  intro front behind he
  obtain ⟨f, b, rfl, rfl, h₁⟩ := split_span (by decide)
    (.consumed _ (.consumed _ (value.balanced.enclosed _ _))) he
  obtain ⟨f, rfl, h₂⟩ := Event.split_consumed h₁
  obtain ⟨f, rfl, h₃⟩ := Event.split_consumed h₂
  obtain ⟨f, b, rfl, rfl, hvalue⟩ := Event.split_enclosed x.balanced value.balanced h₃
  obtain ⟨value', hd, hk⟩ := value.exchange x hvalue
  refine ⟨assign z value', by simp [derivation, hd, span], fun names k => ?_⟩
  rw [code?_assign, code?_assign]
  refine .under fun v => (hk names).bind fun q u hu => ?_
  cases hu
  exact List.infix_append_left

theorem exchanges_store (z : String) (index value : Expression) : (store z index value).Exchanges x := by
  intro front behind he
  obtain ⟨f, b, rfl, rfl, h₁⟩ := split_span (by decide) (.consumed _ (.consumed _
    ((index.balanced.enclosed _ _).append (value.balanced.enclosed _ _)))) he
  obtain ⟨f, rfl, h₂⟩ := Event.split_consumed h₁
  obtain ⟨f, rfl, h₃⟩ := Event.split_consumed h₂
  obtain ⟨b, rfl, h₄⟩ | ⟨f, rfl, h₄⟩ := Event.split_append x.balanced (index.balanced.enclosed _ _) h₃
  · obtain ⟨f, b, rfl, rfl, hindex⟩ := Event.split_enclosed x.balanced index.balanced h₄
    obtain ⟨index', hd, hk⟩ := index.exchange x hindex
    refine ⟨store z index' value, by simp [derivation, hd, span, bracketed], fun names k => ?_⟩
    rw [code?_store, code?_store]
    refine .under fun v => (hk names).bind fun i u hu => ?_
    obtain ⟨q, -, hu⟩ := Option.bind_eq_some_iff.mp hu
    cases hu
    exact List.infix_append_of_infix_left (List.infix_append_of_infix_left List.infix_append_left)
  · obtain ⟨f, b, rfl, rfl, hvalue⟩ := Event.split_enclosed x.balanced value.balanced h₄
    obtain ⟨value', hd, hk⟩ := value.exchange x hvalue
    refine ⟨store z index value', by simp [derivation, hd, span, bracketed], fun names k => ?_⟩
    rw [code?_store, code?_store]
    refine .under fun v => .under fun i => (hk names).bind fun q u hu => ?_
    cases hu
    exact List.infix_append _ _ _

theorem derivation_ifThen (condition : Expression) (yes : List Statement) :
    (ifThen condition yes).derivation = span .ifStatement (guarded .if condition yes) := rfl

theorem derivation_ifElse (condition : Expression) (yes no : List Statement) :
    (ifElse condition yes no).derivation = span .ifStatement
      (guarded .if condition yes ++ .keyword .else :: braced (span .statements (derivationAll no))) := rfl

theorem derivation_while (condition : Expression) (body : List Statement) :
    (Statement.while condition body).derivation = span .whileStatement (guarded .while condition body) := rfl

theorem exchanges_ifThen {condition : Expression} {yes : List Statement} (hyes : AllExchange x yes) :
    (ifThen condition yes).Exchanges x := by
  intro front behind he
  obtain ⟨f, b, rfl, rfl, h⟩ := split_span (by decide) (balanced_guarded .if condition yes) he
  obtain ⟨f, b, hin, hguarded⟩ | ⟨f, b, hin, hguarded⟩ := split_guarded h
  · obtain ⟨condition', hd, hk⟩ := condition.exchange x hin
    refine ⟨ifThen condition' yes, by rw [derivation_ifThen, hguarded _ hd]; simp [span], fun names k => ?_⟩
    rw [code?_ifThen, code?_ifThen]
    refine (hk names).bind fun q u hu => ?_
    obtain ⟨⟨ys, k'⟩, -, hu⟩ := Option.bind_eq_some_iff.mp hu
    cases hu
    exact List.infix_append_of_infix_left (List.infix_append_of_infix_left List.infix_append_left)
  · obtain ⟨yes', hd, hk⟩ := hyes hin
    refine ⟨ifThen condition yes', by rw [derivation_ifThen, hguarded _ hd]; simp [span], fun names k => ?_⟩
    rw [code?_ifThen, code?_ifThen]
    refine .under fun q => (hk names _).bind fun ⟨ys, k'⟩ u hu => ?_
    cases hu
    exact List.infix_append _ _ _

theorem exchanges_ifElse {condition : Expression} {yes no : List Statement} (hyes : AllExchange x yes)
    (hno : AllExchange x no) : (ifElse condition yes no).Exchanges x := by
  intro front behind he
  have hblock : Balanced (braced (span .statements (derivationAll no))) :=
    ((balanced_all no).span _).enclosed _ _
  have hguard := balanced_guarded .if condition yes
  obtain ⟨f, b, rfl, rfl, h₁⟩ := split_span (by decide) (hguard.append (hblock.consumed _)) he
  obtain ⟨b, rfl, h₂⟩ | ⟨f, rfl, h₂⟩ := Event.split_append x.balanced hguard h₁
  · obtain ⟨f, b, hin, hguarded⟩ | ⟨f, b, hin, hguarded⟩ := split_guarded h₂
    · obtain ⟨condition', hd, hk⟩ := condition.exchange x hin
      refine ⟨ifElse condition' yes no, by rw [derivation_ifElse, hguarded _ hd]; simp [span], fun names k => ?_⟩
      rw [code?_ifElse, code?_ifElse]
      refine (hk names).bind fun q u hu => ?_
      obtain ⟨⟨ys, k₁⟩, -, hu⟩ := Option.bind_eq_some_iff.mp hu
      obtain ⟨⟨ns, k₂⟩, -, hu⟩ := Option.bind_eq_some_iff.mp hu
      cases hu
      exact List.infix_append_of_infix_left (List.infix_append_of_infix_left (List.infix_append_of_infix_left
        (List.infix_append_of_infix_left List.infix_append_left)))
    · obtain ⟨yes', hd, hk⟩ := hyes hin
      refine ⟨ifElse condition yes' no, by rw [derivation_ifElse, hguarded _ hd]; simp [span], fun names k => ?_⟩
      rw [code?_ifElse, code?_ifElse]
      refine .under fun q => (hk names _).bind fun ⟨ys, k₁⟩ u hu => ?_
      obtain ⟨⟨ns, k₂⟩, -, hu⟩ := Option.bind_eq_some_iff.mp hu
      cases hu
      exact List.infix_append_of_infix_left (List.infix_append_of_infix_left (List.infix_append _ _ _))
  · obtain ⟨f, rfl, h₃⟩ := Event.split_consumed h₂
    obtain ⟨f, b, hin, hblock⟩ := split_block h₃
    obtain ⟨no', hd, hk⟩ := hno hin
    refine ⟨ifElse condition yes no', by rw [derivation_ifElse, hblock _ hd]; simp [span], fun names k => ?_⟩
    rw [code?_ifElse, code?_ifElse]
    refine .under fun q => .under fun ⟨ys, k₁⟩ => (hk names _).bind fun ⟨ns, k₂⟩ u hu => ?_
    cases hu
    exact List.infix_append _ _ _

theorem exchanges_while {condition : Expression} {body : List Statement} (hbody : AllExchange x body) :
    (Statement.while condition body).Exchanges x := by
  intro front behind he
  obtain ⟨f, b, rfl, rfl, h⟩ := split_span (by decide) (balanced_guarded .while condition body) he
  obtain ⟨f, b, hin, hguarded⟩ | ⟨f, b, hin, hguarded⟩ := split_guarded h
  · obtain ⟨condition', hd, hk⟩ := condition.exchange x hin
    refine ⟨.while condition' body, by rw [derivation_while, hguarded _ hd]; simp [span], fun names k => ?_⟩
    rw [code?_while, code?_while]
    refine (hk names).bind fun q u hu => ?_
    obtain ⟨⟨ss, k'⟩, -, hu⟩ := Option.bind_eq_some_iff.mp hu
    cases hu
    exact List.infix_append_of_infix_left (List.infix_append_of_infix_left (List.infix_append_of_infix_left
      List.infix_append_right))
  · obtain ⟨body', hd, hk⟩ := hbody hin
    refine ⟨.while condition body', by rw [derivation_while, hguarded _ hd]; simp [span], fun names k => ?_⟩
    rw [code?_while, code?_while]
    refine .under fun q => (hk names _).bind fun ⟨ss, k'⟩ u hu => ?_
    cases hu
    exact List.infix_append _ _ _

theorem exchanges_do (called : Called) (arguments : List Expression) :
    (Statement.do called arguments).Exchanges x := by
  intro front behind he
  have ha : Balanced (called.derivation ++
      parenthesized (span .expressionList (Expression.derivationAll arguments))) :=
    called.balanced.append (((Expression.balanced_all arguments).span _).enclosed _ _)
  obtain ⟨f, b, rfl, rfl, h₁⟩ := split_span (by decide) (ha.enclosed _ _) he
  obtain ⟨f, b, rfl, rfl, h₂⟩ := Event.split_enclosed x.balanced ha h₁
  obtain ⟨f, b, hin, hcall⟩ := split_call h₂
  obtain ⟨arguments', hl, hd, hk⟩ := Expression.exchange_all x hin
  refine ⟨.do called arguments', ?_, fun names k => ?_⟩
  · rw [derivation, hcall _ hd]
    simp [span]
  · rw [code?_do, code?_do, hl]
    exact (hk names).map fun q => List.infix_append_of_infix_left (List.infix_append _ _ _)

theorem exchanges_return (value : Option Expression) : (Statement.return value).Exchanges x := by
  intro front behind he
  cases value with
  | none =>
    have hr : Balanced [Event.keyword .return, Event.symbol .semicolon] := rfl
    obtain ⟨f, b, rfl, rfl, h⟩ := split_span (by decide) hr he
    exact (not_split_tokens [.keyword .return, .symbol .semicolon] h).elim
  | some value =>
    obtain ⟨f, b, rfl, rfl, h⟩ := split_span (by decide) (value.balanced.enclosed _ _) he
    obtain ⟨f, b, rfl, rfl, hvalue⟩ := Event.split_enclosed x.balanced value.balanced h
    obtain ⟨value', hd, hk⟩ := value.exchange x hvalue
    refine ⟨.return (some value'), by simp [derivation, hd, span], fun names k => ?_⟩
    rw [code?_return, code?_return]
    exact (hk names).map fun q => List.infix_append_left

mutual

theorem exchanges (x : Exchange) (s : Statement) : s.Exchanges x := by
  cases s with
  | assign z value => exact exchanges_assign z value
  | store z index value => exact exchanges_store z index value
  | ifThen condition yes => exact exchanges_ifThen (all_exchange x yes)
  | ifElse condition yes no => exact exchanges_ifElse (all_exchange x yes) (all_exchange x no)
  | «while» condition body => exact exchanges_while (all_exchange x body)
  | «do» called arguments => exact exchanges_do called arguments
  | «return» value => exact exchanges_return value

theorem all_exchange (x : Exchange) (ss : List Statement) : AllExchange x ss := by
  intro front behind he
  match ss with
  | [] => exact (Event.not_split_nil he).elim
  | s :: ss =>
    obtain ⟨b, rfl, hs⟩ | ⟨f, rfl, hmore⟩ := Event.split_append x.balanced s.balanced he
    · obtain ⟨s', hd, hk⟩ := exchanges x s hs
      refine ⟨s' :: ss, by simp [derivationAll, hd], fun names k => ?_⟩
      rw [codeAll?_cons, codeAll?_cons]
      refine (hk names k).bind fun ⟨a, k₁⟩ u hu => ?_
      obtain ⟨⟨b, k₂⟩, -, hu⟩ := Option.bind_eq_some_iff.mp hu
      cases hu
      exact List.infix_append_left
    · obtain ⟨ss', hd, hk⟩ := all_exchange x ss hmore
      refine ⟨s :: ss', by simp [derivationAll, hd], fun names k => ?_⟩
      rw [codeAll?_cons, codeAll?_cons]
      refine .under fun ⟨a, k₁⟩ => (hk names _).bind fun ⟨b, k₂⟩ u hu => ?_
      cases hu
      exact List.infix_append_right

end

end Statement

end Statements

theorem Subroutine.exchange (x : Exchange) {s : Subroutine} {front behind : List Event}
    (he : s.derivation = front ++ (x.old ++ behind)) :
    ∃ body', ({ s with body := body' } : Subroutine).derivation = front ++ (x.new ++ behind) ∧
      ∀ names k, Keeps (x.code? names) Prod.fst (Statement.codeAll? names k s.body)
        (Statement.codeAll? names k body') := by
  have hp : Balanced (parenthesized (span .parameterList (parameterDerivations s.parameters))) :=
    ((balanced_parameters s.parameters).span _).enclosed _ _
  have hl : Balanced (s.locals.flatMap varDec) := .flatMap fun d _ => .span _ (d.balanced.consumed _)
  have hs := Statement.balanced_all s.body
  have hb : Balanced (braced (s.locals.flatMap varDec ++ span .statements (Statement.derivationAll s.body))) :=
    (hl.append (hs.span _)).enclosed _ _
  obtain ⟨f, b, rfl, rfl, h₁⟩ := split_span (by decide)
    (.consumed _ (.consumed _ (.consumed _ (hp.append (hb.span _))))) he
  obtain ⟨f, rfl, h₂⟩ := Event.split_consumed h₁
  obtain ⟨f, rfl, h₃⟩ := Event.split_consumed h₂
  obtain ⟨f, rfl, h₄⟩ := Event.split_consumed h₃
  obtain ⟨b, rfl, h₅⟩ | ⟨f, rfl, h₅⟩ := Event.split_append x.balanced hp h₄
  · -- There are only tokens among the parameters.
    obtain ⟨f, b, rfl, rfl, h₆⟩ :=
      Event.split_enclosed x.balanced ((balanced_parameters s.parameters).span _) h₅
    obtain ⟨f, b, rfl, rfl, h₇⟩ := split_span (by decide) (balanced_parameters s.parameters) h₆
    obtain ⟨ts, ht⟩ := parameterDerivations_eq s.parameters
    exact (not_split_tokens ts (ht ▸ h₇)).elim
  obtain ⟨f, b, rfl, rfl, h₆⟩ := split_span (by decide) hb h₅
  obtain ⟨f, b, rfl, rfl, h₇⟩ := Event.split_enclosed x.balanced (hl.append (hs.span _)) h₆
  obtain ⟨b, rfl, h₈⟩ | ⟨f, rfl, h₈⟩ := Event.split_append x.balanced hl h₇
  · -- And so it is in the declarations.
    obtain ⟨_, d, _, f, b, -, -, -, h₉⟩ :=
      Event.split_flatMap x.balanced (fun d _ => .span _ (d.balanced.consumed _)) h₈
    obtain ⟨f, b, rfl, rfl, h₁₀⟩ := split_span (by decide) (d.balanced.consumed _) h₉
    rw [d.derivation_eq, ← List.map_cons] at h₁₀
    exact (not_split_tokens _ h₁₀).elim
  obtain ⟨f, b, rfl, rfl, h₉⟩ := split_span (by decide) hs h₈
  obtain ⟨body', hd, hk⟩ := Statement.all_exchange x s.body h₉
  exact ⟨body', by simp [Subroutine.derivation, hd, span, braced], hk⟩

/-- In a class something is exchanged in the body of one of the subroutines, whose code does not change. -/
theorem Class.exchange (x : Exchange) {c : Class} {front behind : List Event}
    (he : c.derivation = front ++ (x.old ++ behind)) :
    ∃ before s after body' above front' behind' below, c.subroutines = before ++ s :: after ∧
      front = above ++ front' ∧ behind = behind' ++ below ∧ s.derivation = front' ++ (x.old ++ behind') ∧
      (c.withSubroutines (before ++ { s with body := body' } :: after)).derivation =
        front ++ (x.new ++ behind) ∧
      ∀ q, c.codeOf? s = some q → c.codeOf? { s with body := body' } = some q ∧
        ∃ names o, c.scope? s = some names ∧ x.code? names = some o ∧ o <:+: q := by
  have hd : Balanced (c.declarations.flatMap classVarDec) :=
    .flatMap fun d _ => .span _ (d.2.balanced.consumed _)
  have hs : Balanced (c.subroutines.flatMap (·.derivation)) := .flatMap fun s _ => s.balanced
  obtain ⟨f, b, rfl, rfl, h₁⟩ := split_span (by decide)
    (.consumed _ (.consumed _ ((hd.append hs).enclosed _ _))) he
  obtain ⟨f, rfl, h₂⟩ := Event.split_consumed h₁
  obtain ⟨f, rfl, h₃⟩ := Event.split_consumed h₂
  obtain ⟨f, b, rfl, rfl, h₄⟩ := Event.split_enclosed x.balanced (hd.append hs) h₃
  obtain ⟨b, rfl, h₅⟩ | ⟨f, rfl, h₅⟩ := Event.split_append x.balanced hd h₄
  · obtain ⟨_, d, _, f, b, -, -, -, h₆⟩ :=
      Event.split_flatMap x.balanced (fun d _ => .span _ (d.2.balanced.consumed _)) h₅
    obtain ⟨f, b, rfl, rfl, h₇⟩ := split_span (by decide) (d.2.balanced.consumed _) h₆
    rw [d.2.derivation_eq, ← List.map_cons] at h₇
    exact (not_split_tokens _ h₇).elim
  obtain ⟨before, s, after, f', b', hsub, rfl, rfl, hin⟩ :=
    Event.split_flatMap x.balanced (fun s _ => s.balanced) h₅
  obtain ⟨body', hb, hk⟩ := Subroutine.exchange x hin
  refine ⟨before, s, after, body', .enter .class :: .keyword .class :: .word c.name ::
    .symbol .leftBrace :: (c.declarations.flatMap classVarDec ++ before.flatMap (·.derivation)), f', b',
    after.flatMap (·.derivation) ++ [.symbol .rightBrace, .leave .class], hsub, by simp, by simp, hin, ?_,
    fun q hq => ?_⟩
  · simp [withSubroutines, Class.derivation, hb, span, braced]
  · obtain ⟨names, hn, p, hp, rfl⟩ := codeOf?_eq_some_iff.mp hq
    obtain ⟨hp', o, ho, hin'⟩ := hk names .zero p hp
    refine ⟨codeOf?_eq_some_iff.mpr ⟨names, hn, p, hp', rfl⟩, names, o, hn, ho, ?_⟩
    exact List.infix_cons (List.infix_append_of_infix_right hin')

end Jack.Grammar
