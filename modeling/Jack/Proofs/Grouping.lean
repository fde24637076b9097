import Jack.Proofs.Acceptance
import Jack.Proofs.Grammar.Exchange

namespace Jack

open Event (tokens)
open Jack.Stream (Tells)
open VM (Command)

/-- The tokens in parentheses. -/
def grouped (ts : List Token) : List Token := .symbol .leftParen :: (ts ++ [.symbol .rightParen])

/-- `((first op t) op t) op t`: all that is in front of the last operator is one term. -/
def leftNested (first : List Token) : List (BinaryOp × Grammar.Term) → List Token
  | [] => first
  | [(op, t)] => first ++ .symbol op.symbol :: tokens t.derivation
  | (op, t) :: next :: rest =>
    leftNested (grouped (first ++ .symbol op.symbol :: tokens t.derivation)) (next :: rest)

namespace Grammar

def Expression.nest (first : Term) : List (BinaryOp × Term) → Expression
  | [] => .chain first []
  | [p] => .chain first [p]
  | p :: next :: rest => Expression.nest (.group (.chain first [p])) (next :: rest)

variable {names : Names}

theorem Term.code?_grouped (t : Term) : (Term.group (.chain t [])).code? names = t.code? names := by
  rw [Term.code?_group, Expression.code?_chain, Expression.codeRest?_nil]
  cases t.code? names <;> simp

theorem Expression.code?_grouped (e : Expression) :
    (Expression.chain (.group e) []).code? names = e.code? names := by
  rw [Expression.code?_chain, Expression.codeRest?_nil, Term.code?_group]
  cases e.code? names <;> simp

theorem Expression.code?_nest (first : Term) (rest : List (BinaryOp × Term)) :
    (Expression.nest first rest).code? names = (Expression.chain first rest).code? names := by
  fun_induction Expression.nest first rest with
  | case1 | case2 => rfl
  | case3 first p next rest ih =>
    obtain ⟨op, t⟩ := p
    rw [ih, code?_chain, Term.code?_group, code?_chain, codeRest?_cons, codeRest?_nil, code?_chain,
      codeRest?_cons op t (next :: rest)]
    cases first.code? names <;> cases t.code? names <;> cases codeRest? names (next :: rest) <;> simp

theorem tokens_grouped (t : Term) :
    tokens (Term.group (.chain t [])).derivation = grouped (tokens t.derivation) := by
  simp [Term.derivation, Expression.derivation, Expression.derivationRest, Event.parenthesized, grouped]

theorem Expression.tokens_grouped (e : Expression) :
    tokens (Expression.chain (.group e) []).derivation = grouped (tokens e.derivation) := by
  simp [Term.derivation, Expression.derivation, Expression.derivationRest, Event.parenthesized, grouped]

theorem Expression.tokens_nest (first : Term) (rest : List (BinaryOp × Term)) :
    tokens (Expression.nest first rest).derivation = leftNested (tokens first.derivation) rest := by
  fun_induction Expression.nest first rest with
  | case1 first => simp [Expression.derivation, Expression.derivationRest, leftNested]
  | case2 first p => simp [Expression.derivation, Expression.derivationRest, leftNested]
  | case3 first p next rest ih =>
    obtain ⟨op, t⟩ := p
    rw [ih, leftNested]
    simp [Term.derivation, Expression.derivation, Expression.derivationRest, Event.parenthesized, grouped]

theorem Expression.exists_operand {operand : Term} {before after : List (BinaryOp × Term)} {op : BinaryOp}
    {q : List Command} (h : codeRest? names (before ++ (op, operand) :: after) = some q) :
    ∃ l r more, codeRest? names before = some l ∧ operand.code? names = some r ∧
      q = l ++ r ++ op.code :: more := by
  induction before generalizing q with
  | nil =>
    rw [List.nil_append, codeRest?_cons] at h
    obtain ⟨r, hr, more, -, rfl⟩ := bind₂_eq_some_iff.mp h
    exact ⟨[], r, more, rfl, hr, by simp⟩
  | cons p before ih =>
    obtain ⟨op', t⟩ := p
    rw [List.cons_append, codeRest?_cons] at h
    obtain ⟨a, ha, b, hb, rfl⟩ := bind₂_eq_some_iff.mp h
    obtain ⟨l, r, more, hl, hr, rfl⟩ := ih hb
    refine ⟨a ++ [op'.code] ++ l, r, more, ?_, hr, by simp⟩
    rw [codeRest?_cons, ha, hl]
    rfl

/-- The command of an operator stands behind the code of its second operand, which stands behind the code of
all that is in front of the operator. -/
theorem Expression.exists_operands {first operand : Term} {before after : List (BinaryOp × Term)}
    {op : BinaryOp} {q : List Command}
    (h : (Expression.chain first (before ++ (op, operand) :: after)).code? names = some q) :
    ∃ l r more, (Expression.chain first before).code? names = some l ∧ operand.code? names = some r ∧
      q = l ++ r ++ op.code :: more := by
  rw [code?_chain] at h
  obtain ⟨a, ha, b, hb, rfl⟩ := bind₂_eq_some_iff.mp h
  obtain ⟨l, r, more, hl, hr, rfl⟩ := exists_operand hb
  refine ⟨a ++ l, r, more, ?_, hr, by simp⟩
  rw [code?_chain, ha, hl]
  rfl

end Grammar

section Streams

variable {recorded : Bool} {items : Array Item} {p : Compiled} {c : Grammar.Class} {front behind : List Event}

theorem compilesTo_of_exchange (x : Grammar.Exchange) (h : compileItems recorded items = .ok p)
    (hc : Tells items (c.tokens ++ [.eof])) (he : c.derivation = front ++ (x.old ++ behind)) :
    CompilesTo recorded (tokens front ++ tokens x.new ++ tokens behind) p.commands := by
  have hcode := code?_of_compileItems h hc
  obtain ⟨before, s, after, body', -, -, -, -, hs, -, -, -, hd, hx⟩ := Grammar.Class.exchange x he
  obtain ⟨q, hq, -⟩ := Grammar.Class.exists_codeOf? hcode (hs ▸ List.mem_append_right _ List.mem_cons_self)
  have hcomp := compilesTo_of_code (Grammar.Class.code?_replace hcode hs ((hx q hq).1.trans hq.symm)) recorded
  rwa [Grammar.Class.tokens, hd, Event.tokens_append, Event.tokens_append, ← List.append_assoc] at hcomp

/-- The code of a term or an expression is one piece of the commands. It is the code that it has among the
names of the subroutine that it stands in. -/
theorem exists_code_of_exchange (x : Grammar.Exchange) (h : compileItems recorded items = .ok p)
    (hc : Tells items (c.tokens ++ [.eof])) (he : c.derivation = front ++ (x.old ++ behind)) :
    ∃ s ∈ c.subroutines, (∃ above front' behind' below, front = above ++ front' ∧ behind = behind' ++ below ∧
      s.derivation = front' ++ (x.old ++ behind')) ∧
      ∃ names q, c.scope? s = some names ∧ x.code? names = some q ∧ q <:+: p.commands := by
  obtain ⟨before, s, after, body', above, front', behind', below, hs, hf, hb, hd, -, hx⟩ :=
    Grammar.Class.exchange x he
  have hmem : s ∈ c.subroutines := hs ▸ List.mem_append_right _ List.mem_cons_self
  obtain ⟨q, hq, hin⟩ := Grammar.Class.exists_codeOf? (code?_of_compileItems h hc) hmem
  obtain ⟨-, names, o, hn, ho, hoq⟩ := hx q hq
  exact ⟨s, hmem, ⟨above, front', behind', below, hf, hb, hd⟩, names, o, hn, ho, hoq.trans hin⟩

end Streams

/-- In a stream that is compiled, a term or an expression may be put in parentheses anywhere, and those may be
written out that group a chain of operators from the left. The command of each operator stands directly behind
the code of its second operand, and that behind the code of all that is in front of the operator. -/
theorem parentheses_only_group {recorded : Bool} {items : Array Item} {p : Compiled}
    (h : compileItems recorded items = .ok p) :
    (∃ c : Grammar.Class, Tells items (c.tokens ++ [.eof])) ∧
    ∀ (c : Grammar.Class) front behind, Tells items (c.tokens ++ [.eof]) →
      (∀ t : Grammar.Term, c.derivation = front ++ (t.derivation ++ behind) →
        CompilesTo recorded (tokens front ++ grouped (tokens t.derivation) ++ tokens behind) p.commands) ∧
      ∀ (e : Grammar.Expression) first rest, e = .chain first rest →
        c.derivation = front ++ (e.derivation ++ behind) →
          CompilesTo recorded (tokens front ++ grouped (tokens e.derivation) ++ tokens behind) p.commands ∧
          CompilesTo recorded (tokens front ++ leftNested (tokens first.derivation) rest ++ tokens behind)
            p.commands ∧
          ∃ s ∈ c.subroutines, (∃ above front' behind' below, front = above ++ front' ∧
            behind = behind' ++ below ∧ s.derivation = front' ++ (e.derivation ++ behind')) ∧
            ∃ names q, c.scope? s = some names ∧ e.code? names = some q ∧ q <:+: p.commands ∧
              ∀ before op operand after, rest = before ++ (op, operand) :: after →
                ∃ l r more, (Grammar.Expression.chain first before).code? names = some l ∧
                  operand.code? names = some r ∧ q = l ++ r ++ op.code :: more := by
  obtain ⟨c₀, h₀, -⟩ := compileItems_eq_ok_iff_tells.mp h
  refine ⟨⟨c₀, h₀⟩, fun c front behind hc => ⟨fun t he => ?_, fun e first rest hchain he => ?_⟩⟩
  · obtain ⟨x, hold, hnew, -⟩ := Grammar.Exchange.exists_of_term fun _ => t.code?_grouped
    rw [← Grammar.tokens_grouped, ← hnew]
    exact compilesTo_of_exchange x h hc (hold ▸ he)
  · have hnest (names : Names) : (Grammar.Expression.nest first rest).code? names = e.code? names :=
      hchain ▸ Grammar.Expression.code?_nest first rest
    obtain ⟨x, hold, hnew, -⟩ := Grammar.Exchange.exists_of_expression fun _ => e.code?_grouped
    obtain ⟨x', hold', hnew', hcode'⟩ := Grammar.Exchange.exists_of_expression hnest
    refine ⟨?_, ?_, ?_⟩
    · rw [← Grammar.Expression.tokens_grouped, ← hnew]
      exact compilesTo_of_exchange x h hc (hold ▸ he)
    · rw [← Grammar.Expression.tokens_nest, ← hnew']
      exact compilesTo_of_exchange x' h hc (hold' ▸ he)
    · obtain ⟨s, hs, hplace, names, q, hn, hq, hin⟩ := exists_code_of_exchange x' h hc (hold' ▸ he)
      rw [hold'] at hplace
      rw [hcode'] at hq
      refine ⟨s, hs, hplace, names, q, hn, hq, hin, ?_⟩
      rintro before op operand after rfl
      exact Grammar.Expression.exists_operands (hchain ▸ hq)

namespace Grammar

def joined : Expression := .chain (.integer 2) [(.add, .integer 3), (.mul, .integer 4)]

/-- `class Main { function int main() { return 2 + 3 * 4; } }` -/
def sum : Class := ⟨"Main", [], [⟨.function, .value .int, "main", [], [], [.return (some joined)]⟩]⟩

theorem sum_static : sum.Static where
  distinct := by decide
  room kind := by cases kind <;> decide
  subroutines := by
    intro s hs
    rw [sum, List.mem_singleton] at hs
    subst hs
    refine ⟨by decide, fun kind => by cases kind <;> decide, ?_⟩
    simp [joined, Statement.leavesAll, Statement.leaves, Expression.leaves, Expression.leavesRest, Term.leaves,
      Leaf.Valid, maxConstant]

end Grammar

open Grammar in
/-- `2 + 3 * 4` has the code of `(2 + 3) * 4`. -/
theorem sum_is_grouped : ∃ p, compileItems false (sum.lexemes.map .ok).toArray = .ok p ∧
    ∃ front behind, sum.derivation = front ++ (joined.derivation ++ behind) ∧
      CompilesTo false (tokens front ++ leftNested [.integer 2] [(.add, .integer 3), (.mul, .integer 4)] ++
        tokens behind) p.commands := by
  obtain ⟨r, -, p, hp, -⟩ := sum_static.compiles
  have he : sum.derivation = sum.derivation.take 17 ++ (joined.derivation ++ sum.derivation.drop 30) := by decide
  obtain ⟨-, hnested, -⟩ := ((parentheses_only_group hp).2 sum _ _ sum.tells_lexemes).2 joined (.integer 2)
    [(.add, .integer 3), (.mul, .integer 4)] rfl he
  exact ⟨p, hp, _, _, he, hnested⟩

end Jack
