import Jack.Proofs.Parse.Expression
import Jack.Proofs.Reading.Steady

namespace Jack.Parse

open Reading

section Equations

variable (names : Names)

theorem reading_resolve (x : String) : reading (resolve names x) = resolving names x := by
  funext w
  unfold reading resolve resolving
  cases names.scopes.resolve? x <;> rfl

def calleeOf (x y : String) : Callee :=
  match names.scopes.resolve? x with
  | some v => .method v y
  | none => .function x y

theorem reading_callee (x : String) :
    reading (callee names x) = choose [.symbol .dot] (do
        exactly (.symbol .dot)
        let y ← name
        return calleeOf names x y)
      (choose [.symbol .leftParen] (pure (.own names.className x))
        (refuse [.symbol .leftParen, .symbol .dot])) := by
  rw [← reading_symbol, ← reading_identifier]
  funext w
  rw [reading, callee]
  refine outcome_ite (outcome_bind rfl fun p => outcome_bind rfl fun q => ?_) (outcome_ite rfl rfl)
  unfold calleeOf
  cases names.scopes.resolve? x <;> rfl

theorem reading_expression :
    reading (expression names) = inRule .expression (do
      let first ← reading (term names)
      let rest ← repeated operators (operation names)
      return .chain first rest) := by
  funext w
  rw [reading, expression]
  exact outcome_within fun v hv => outcome_bind rfl fun p => outcome_bind (outcome_many _) fun q => rfl

theorem reading_operation :
    reading (operation names) = (do
      let op ← take operators operator?
      let operand ← reading (term names)
      return (op, operand)) := by
  funext w
  rw [reading, operation]
  exact outcome_bind (outcome_accept _ _ _ _) fun p => outcome_bind rfl fun q => rfl

theorem reading_term :
    reading (term names) = inRule .term (do
      let start ← take TermStart.kinds TermStart.ofToken?
      termBehind names start) := by
  funext w
  rw [reading, term]
  refine outcome_within fun v hv => outcome_bind (outcome_accept _ _ _ _) fun p => ?_
  obtain ⟨start, w₂, h₂⟩ := p
  cases start with
  | integer value =>
    rw [termBehind]
    dsimp only
    split <;> rfl
  | string text =>
    rw [termBehind]
    dsimp only
    cases stringFault? text <;> rfl
  | constant value => rfl
  | group =>
    rw [termBehind, ← reading_symbol]
    exact outcome_bind rfl fun p => outcome_bind rfl fun q => rfl
  | unary op => exact outcome_bind rfl fun p => rfl
  | named x =>
    rw [termBehind, ← reading_resolve]
    refine outcome_choose (outcome_bind rfl fun p => rfl) (outcome_bind rfl fun p => ?_)
    exact outcome_ite (outcome_bind rfl fun q => rfl) rfl

def enclosed (opening closing : Symbol) : Reading Expression := do
  exactly (.symbol opening)
  let e ← reading (expression names)
  exactly (.symbol closing)
  return e

theorem reading_subscript : reading (subscript names) = enclosed names .leftBracket .rightBracket := by
  rw [enclosed, ← reading_symbol, ← reading_symbol]
  funext w
  rw [reading, subscript]
  exact outcome_bind rfl fun p => outcome_bind rfl fun q => outcome_bind rfl fun q => rfl

theorem reading_call (x : String) :
    reading (call names x) = (do
      let callee ← reading (callee names x)
      exactly (.symbol .leftParen)
      let arguments ← reading (expressionList names)
      exactly (.symbol .rightParen)
      return (callee, arguments)) := by
  rw [← reading_symbol, ← reading_symbol]
  funext w
  rw [reading, call]
  exact outcome_bind rfl fun p => outcome_bind rfl fun q => outcome_bind rfl fun r =>
    outcome_bind rfl fun s => rfl

theorem reading_expressionList :
    reading (expressionList names) = inRule .expressionList (choose [.symbol .rightParen] (return []) (do
      let first ← reading (expression names)
      let more ← repeated [.symbol .comma] (nextExpression names)
      return first :: more)) := by
  funext w
  rw [reading, expressionList]
  refine outcome_within fun v hv => outcome_ite rfl ?_
  exact outcome_bind rfl fun p => outcome_bind (outcome_many _) fun q => rfl

theorem reading_nextExpression :
    reading (nextExpression names) = (do
      exactly (.symbol .comma)
      reading (expression names)) := by
  rw [← reading_symbol]
  funext w
  rw [reading, nextExpression]
  exact outcome_bind rfl fun p => outcome_relay fun q => rfl

end Equations

theorem stringFault?_blames {text : String} {fault : RangeFault} (h : stringFault? text = some fault) :
    (Fault.outOfRange fault).Blames (.string text) := by
  have hc : (∃ c, fault = .foreignCharacter c) ∨ fault = .longString := by
    unfold stringFault? at h
    split at h
    next c _ => exact .inl ⟨c, (Option.some.inj h).symm⟩
    next =>
      split at h
      next => exact .inr (Option.some.inj h).symm
      next => cases h
  obtain ⟨c, rfl⟩ | rfl := hc
  · exact ⟨text, rfl, h⟩
  · exact ⟨text, rfl, h⟩

theorem TermStart.ofToken?_isSome {t : Token} (h : t.kind ∈ kinds) : (ofToken? t).isSome := by
  cases t with
  | integer | string | identifier => rfl
  | keyword k => cases k <;> simp [kinds, Token.kind, ofToken?] at h ⊢
  | symbol s => cases s <;> simp [kinds, Token.kind, ofToken?] at h ⊢
  | eof => simp [kinds, Token.kind] at h

theorem operator?_isSome {t : Token} (h : t.kind ∈ operators) : (operator? t).isSome := by
  obtain ⟨op, -, hop⟩ := List.mem_map.mp h
  cases t with
  | symbol s =>
    have hs : op.symbol = s := TokenKind.symbol.inj hop
    rw [operator?, BinaryOp.ofSymbol?_eq_some_iff.mpr hs]
    rfl
  | _ => cases hop

section Steady

variable {β : Type} {names : Names} {r : Nat} {c : Place}

theorem Steady.resolving {x : String} {f : Variable → Reading β} (hc : c.Clear)
    (hl : ∀ t, c.last t → t = .identifier x) (hf : ∀ v, Steady r c (f v)) :
    Steady r c (Parse.resolving names x >>= f) := by
  unfold Parse.resolving
  split
  next v _ => exact hf v
  next => exact .fail hc hl

/-- The terms that are read of fewer tokens. -/
def Terms (names : Names) (r : Nat) : Prop := ∀ k < r, Reads k .anywhere (reading (term names))

theorem Terms.mono {k : Nat} (h : Terms names r) (hk : k ≤ r) : Terms names k :=
  fun j hj => h j (Nat.lt_of_lt_of_le hj hk)

theorem reads_operation {k : Nat} (h : Terms names k) :
    Reads k (.among .anywhere operators) (reading (operation names)) := by
  intro β f hf
  rw [reading_operation]
  simp only [bind_assoc, pure_bind]
  refine .take (fun t ht ho => ?_) rfl fun op => (Reads.steady h fun t => hf _).undue id
  exact operator?_isSome (ho.elim (fun _ => ht.2) id)

theorem reads_expression (h : Terms names (r + 1)) : Reads r .anywhere (reading (expression names)) := by
  intro β f hf
  rw [reading_expression, inRule_bind]
  simp only [bind_assoc, pure_bind]
  refine .mark rfl (h r (Nat.lt_succ_self r) _ fun first => ?_)
  refine .repeated (fun k hk => reads_operation (h.mono (by omega))) fun rest => ?_
  exact .mark rfl ((hf _).undue id)

theorem Terms.expressions (h : Terms names r) : ∀ k < r, Reads k .anywhere (reading (expression names)) :=
  fun _ hk => reads_expression (h.mono hk)

theorem reads_enclosed {opening closing : Symbol} (h : Terms names r) (hc : c.Expects [.symbol opening]) :
    Reads r c (enclosed names opening closing) := by
  intro β f hf
  simp only [enclosed, bind_assoc, pure_bind]
  exact .symbol hc (Reads.steady h.expressions fun e => (Steady.symbol (.of_not_due id) (hf e)).weaken)

theorem reads_subscript (h : Terms names r) (hc : c.Expects [.symbol .leftBracket]) :
    Reads r c (reading (subscript names)) :=
  reading_subscript names ▸ reads_enclosed h hc

theorem reads_nextExpression (h : Terms names r) :
    Reads r (.among .anywhere [.symbol .comma]) (reading (nextExpression names)) := by
  intro β f hf
  rw [reading_nextExpression, bind_assoc]
  exact .symbol (.among _ _) (Reads.steady h.expressions hf)

theorem Steady.arguments {f : List Expression → Reading β} (h : Terms names r)
    (hf : ∀ es, Steady r .anywhere (f es)) :
    Steady r .anywhere (do
      let es ← reading (expressionList names)
      exactly (.symbol .rightParen)
      f es) := by
  have close {c : Place} (hc : c.Expects [.symbol .rightParen]) (es : List Expression) :
      Steady r c (do Reading.mark (.leave .expressionList); exactly (.symbol .rightParen); f es) :=
    .mark rfl (Steady.symbol hc (hf es)).weaken
  rw [reading_expressionList, inRule_bind]
  simp only [choose_bind, bind_assoc, pure_bind]
  refine .mark rfl (.choose (close (.among _ _) []) ?_)
  refine (Reads.steady h.expressions fun first => ?_).undue id
  refine .repeated (fun k hk => reads_nextExpression (h.mono (Nat.le_of_lt hk))) fun more => ?_
  exact close (.of_not_due id) _

theorem reads_call {x : String} (h : Terms names r)
    (hc : c.Expects [.symbol .leftParen, .symbol .dot]) : Reads r c (reading (call names x)) := by
  intro β f hf
  have behind {c : Place} (hc : c.Expects [.symbol .leftParen]) (callee : Callee) :
      Steady (r + 1) c (do
        exactly (.symbol .leftParen)
        let es ← reading (expressionList names)
        exactly (.symbol .rightParen)
        f (callee, es)) :=
    .symbol hc (.arguments h fun es => hf _)
  have not_ahead {k : TokenKind} (hdot : k ∉ [.symbol .dot]) (hparen : k ∉ [.symbol .leftParen]) :
      k ∉ [.symbol .leftParen, .symbol .dot] :=
    fun hk => (List.mem_cons.mp hk).elim (fun h => hparen (List.mem_singleton.mpr h)) hdot
  rw [reading_call, reading_callee]
  simp only [choose_bind, refuse_bind, bind_assoc, pure_bind]
  refine .choose ?_ (.choose ?_ (.refuse ?_ ?_))
  · refine .symbol (.among _ _) ?_
    refine (Steady.name (.of_not_due id) fun y => ?_).weaken
    exact ((behind (.of_not_due id) _).weaken).undue id
  · exact behind (.among _ _) _
  · rintro hd k ⟨⟨hk, hdot⟩, hparen⟩
    exact not_ahead hdot hparen (hc hd k hk)
  · rintro k hk ⟨⟨-, hdot⟩, hparen⟩
    exact not_ahead hdot hparen hk

theorem reads_term_of (h : Terms names r) : Reads r .anywhere (reading (term names)) := by
  intro β f hf
  rw [reading_term, inRule_bind, bind_assoc]
  have done (t : Term) {c : Place} (hc : ¬ c.due) : Steady r c (do Reading.mark (.leave .term); f t) :=
    .mark rfl ((hf t).undue hc)
  refine .mark rfl (.take (fun t _ ht => ?_) rfl fun start => ?_)
  · exact TermStart.ofToken?_isSome (ht.elim False.elim id)
  cases start with
  | integer value =>
    rw [termBehind]
    split
    next hv =>
      exact .fail False.elim fun t ht => ⟨TermStart.ofToken?_eq_some_iff.mp ht, hv⟩
    next => exact done _ id
  | string text =>
    rw [termBehind]
    split
    next fault hs =>
      refine .fail False.elim fun t ht => ?_
      rw [TermStart.ofToken?_eq_some_iff.mp ht]
      exact stringFault?_blames hs
    next => exact done _ id
  | constant value => exact done _ id
  | group =>
    rw [termBehind]
    simp only [bind_assoc, pure_bind]
    refine (Reads.steady h.expressions fun inner => ?_).undue id
    exact (Steady.symbol (.of_not_due id) (done _ id)).weaken
  | unary op =>
    rw [termBehind]
    simp only [bind_assoc, pure_bind]
    exact (Reads.steady h fun operand => done _ id).undue id
  | named x =>
    rw [termBehind]
    simp only [choose_bind, bind_assoc, pure_bind]
    refine .choose ?_ (.resolving False.elim ?_ fun v => .choose ?_ (done _ id))
    · exact Reads.steady (fun k hk => reads_call (h.mono (Nat.le_of_lt hk)) (.among _ _))
        fun p => done _ id
    · exact fun t => TermStart.ofToken?_eq_some_iff.mp
    · exact Reads.steady (fun k hk => reads_subscript (h.mono (Nat.le_of_lt hk)) (.among _ _))
        fun p => done _ id

theorem terms (names : Names) (r : Nat) : Terms names r := by
  induction r with
  | zero => exact fun k hk => absurd hk (Nat.not_lt_zero k)
  | succ r ih => exact Nat.forall_lt_succ_right.mpr ⟨ih, reads_term_of ih⟩

end Steady

end Jack.Parse
