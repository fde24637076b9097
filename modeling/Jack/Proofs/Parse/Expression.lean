import Jack.Proofs.Grammar.Resolve
import Jack.Proofs.Parse.Run

namespace Jack

open Grammar (Called)

def Parse.TermStart.token : TermStart → Token
  | .integer value => .integer value
  | .string text => .string text
  | .named x => .identifier x
  | .constant value => .keyword value.keyword
  | .group => .symbol .leftParen
  | .unary op => .symbol op.symbol

theorem Parse.TermStart.token_ne_eof (start : TermStart) : start.token ≠ .eof := by
  cases start <;> simp [token]

namespace Grammar.Called

def first : Called → String
  | .plain x => x
  | .dotted x _ => x

def behind : Called → List Event
  | .plain _ => []
  | .dotted _ y => [.symbol .dot, .word y]

theorem derivation_eq (called : Called) : called.derivation = .word called.first :: called.behind := by
  cases called <;> rfl

end Grammar.Called

namespace Parse

theorem TermStart.ofToken?_eq_some_iff {t : Token} {start : TermStart} :
    ofToken? t = some start ↔ t = start.token := by
  constructor
  · intro h
    unfold ofToken? at h
    split at h <;> cases h <;> rfl
  · rintro rfl
    cases start with
    | integer | string | named | group => rfl
    | constant value => cases value <;> rfl
    | unary op => cases op <;> rfl

theorem yields_termStart {w v : Window} {start : TermStart} :
    Yields (accept TermStart.kinds TermStart.ofToken? w) start v ↔
      w.perform (.consumed start.token) = some v :=
  yields_accept.trans (by simp [TermStart.ofToken?_eq_some_iff])

theorem yields_operator {w v : Window} {op : BinaryOp} :
    Yields (accept operators operator? w) op v ↔ w.perform (.symbol op.symbol) = some v := by
  have ho (t : Token) : operator? t = some op ↔ t = .symbol op.symbol := by
    cases t with
    | symbol s =>
      rw [operator?, BinaryOp.ofSymbol?_eq_some_iff, Token.symbol.injEq]
      exact eq_comm
    | keyword | integer | string | identifier | eof => simp [operator?]
  exact yields_accept.trans (by simp [ho])

theorem yields_resolve {names : Names} {x : String} {w v : Window} {a : Variable} :
    Yields (resolve names x w) a v ↔ names.scopes.resolve? x = some a ∧ w = v := by
  unfold resolve
  split
  next b hb => simp [hb]
  next hb => simp [hb]

end Parse

namespace Grammar

open Parse
open Event (parenthesized bracketed)

section Soundness

variable {names : Names} {w v : Window}

/-- Between the windows lies a term, of which `t` is made. -/
def ReadsTerm (names : Names) (w : Window) (t : Jack.Term) (v : Window) : Prop :=
  ∃ s : Term, w.follow s.derivation = some v ∧ s.resolve names = some t

def ReadsExpression (names : Names) (w : Window) (e : Jack.Expression) (v : Window) : Prop :=
  ∃ s : Expression, w.follow s.derivation = some v ∧ s.resolve names = some e

/-- The parser is right about the terms that fewer than `n` lexemes are left for. -/
def TermsSound (names : Names) (n : Nat) : Prop :=
  ∀ w : Window, w.remaining < n → ∀ t v, Yields (term names w) t v → ReadsTerm names w t v

def ExpressionsSound (names : Names) (n : Nat) : Prop :=
  ∀ w : Window, w.remaining < n → ∀ e v, Yields (expression names w) e v → ReadsExpression names w e v

theorem TermsSound.mono {k n : Nat} (h : TermsSound names n) (hk : k ≤ n) : TermsSound names k :=
  fun w hw => h w (Nat.lt_of_lt_of_le hw hk)

theorem ExpressionsSound.mono {k n : Nat} (h : ExpressionsSound names n) (hk : k ≤ n) :
    ExpressionsSound names k :=
  fun w hw => h w (Nat.lt_of_lt_of_le hw hk)

theorem callee_sound {x : String} {f : Callee} (h : Yields (callee names x w) f v) :
    ∃ called : Called, called.first = x ∧ w.follow called.behind = some v ∧
      called.resolve names = f := by
  unfold callee at h
  split at h
  next =>
    simp only [yields_bind, yields_symbol, yields_identifier] at h
    obtain ⟨_, w₁, h₁, y, w₂, h₂, h⟩ := h
    refine ⟨.dotted x y, rfl, ?_⟩
    simp only [Called.resolve]
    split at h <;> obtain ⟨rfl, rfl⟩ := yields_pure.mp h <;> simp [Called.behind, *]
  next =>
    split at h
    next =>
      obtain ⟨rfl, rfl⟩ := yields_pure.mp h
      exact ⟨.plain x, rfl, rfl, rfl⟩
    next => exact (not_yields_unexpected h).elim

theorem subscript_sound {e : Jack.Expression}
    (hE : ExpressionsSound names w.remaining)
    (h : Yields (subscript names w) e v) :
    ∃ s : Expression, w.follow (bracketed s.derivation) = some v ∧ s.resolve names = some e := by
  unfold subscript at h
  simp only [yields_bind, yields_symbol, yields_pure] at h
  obtain ⟨_, w₁, h₁, e, w₂, h₂, _, w₃, h₃, rfl, rfl⟩ := h
  obtain ⟨s, hs, he⟩ := hE w₁ (Window.remaining_perform h₁ (by simp)) e w₂ h₂
  exact ⟨s, by simp [bracketed, h₁, hs, h₃], he⟩

theorem nextExpressions_sound {es : List Jack.Expression}
    (hE : ExpressionsSound names w.remaining)
    (h : Many [.symbol .comma] (fun e (_ : Unit) w _ v => Yields (nextExpression names w) e v)
      es () w () v) :
    ∃ ss, w.follow (Expression.derivationMore ss) = some v ∧
      Expression.resolveAll names ss = some es := by
  induction es generalizing w with
  | nil =>
    obtain ⟨-, -, rfl⟩ := h
    exact ⟨[], rfl, rfl⟩
  | cons e es ih =>
    obtain ⟨-, _, w₁, hx, h⟩ := h
    have hw₁ := hx.bound
    obtain ⟨ss, hss, hes⟩ := ih (hE.mono (Nat.le_of_lt hw₁)) h
    unfold nextExpression at hx
    simp only [yields_bind, yields_symbol, yields_pure] at hx
    obtain ⟨_, w₂, h₂, e, w₃, h₃, rfl, rfl⟩ := hx
    obtain ⟨s, hs, he⟩ := hE w₂ (Window.remaining_perform h₂ (by simp)) e w₃ h₃
    refine ⟨s :: ss, ?_, ?_⟩
    · simp [Expression.derivationMore, h₂, hs, hss]
    · simp [Expression.resolveAll, he, hes]

theorem expressionList_sound {es : List Jack.Expression}
    (hE : ExpressionsSound names (w.remaining + 1))
    (h : Yields (expressionList names w) es v) :
    ∃ ss, w.follow (Event.span .expressionList (Expression.derivationAll ss)) = some v ∧
      Expression.resolveAll names ss = some es := by
  rw [expressionList, yields_within] at h
  obtain ⟨v, h, rfl⟩ := h
  split at h
  next =>
    obtain ⟨rfl, rfl⟩ := yields_pure.mp h
    exact ⟨[], rfl, rfl⟩
  next =>
    simp only [yields_bind, yields_many, yields_pure] at h
    obtain ⟨e, w₁, h₁, es, w₂, h₂, rfl, rfl⟩ := h
    have hw₁ : w₁.remaining ≤ w.remaining + 1 := Nat.le_succ_of_le (Nat.le_of_lt h₁.bound)
    obtain ⟨s, hs, he⟩ := hE (w.enter .expressionList) (Nat.lt_succ_self _) e w₁ h₁
    obtain ⟨ss, hss, hes⟩ := nextExpressions_sound (hE.mono hw₁) h₂
    refine ⟨s :: ss, ?_, ?_⟩
    · simp [Event.span, Expression.derivationAll, hs, hss]
    · simp [Expression.resolveAll, he, hes]

theorem call_sound {x : String} {f : Callee} {es : List Jack.Expression}
    (hE : ExpressionsSound names w.remaining)
    (h : Yields (call names x w) (f, es) v) :
    ∃ (called : Called) (ss : List Expression), called.first = x ∧
      w.follow (called.behind ++
        parenthesized (Event.span .expressionList (Expression.derivationAll ss))) = some v ∧
      called.resolve names = f ∧ Expression.resolveAll names ss = some es := by
  unfold call at h
  simp only [yields_bind, yields_symbol, yields_pure] at h
  obtain ⟨f, w₁, h₁, _, w₂, h₂, es, w₃, h₃, _, w₄, h₄, hfe, rfl⟩ := h
  cases hfe
  obtain ⟨called, hx, hw₁, hf⟩ := callee_sound h₁
  have hw₂ : w₂.remaining < w.remaining :=
    Nat.lt_of_lt_of_le (Window.remaining_perform h₂ (by simp)) (Nat.le_of_lt_succ h₁.bound)
  obtain ⟨ss, hss, hes⟩ := expressionList_sound (hE.mono hw₂) h₃
  exact ⟨called, ss, hx, by simp [parenthesized, hw₁, h₂, hss, h₄], hf, hes⟩

theorem operation_sound {op : BinaryOp} {t : Jack.Term}
    (hT : TermsSound names w.remaining)
    (h : Yields (operation names w) (op, t) v) :
    ∃ s : Term, w.follow (.symbol op.symbol :: s.derivation) = some v ∧ s.resolve names = some t := by
  unfold operation at h
  simp only [yields_bind, yields_operator, yields_pure] at h
  obtain ⟨o, w₁, h₁, t, w₂, h₂, ho, rfl⟩ := h
  cases ho
  obtain ⟨s, hs, ht⟩ := hT w₁ (Window.remaining_perform h₁ (by simp)) t w₂ h₂
  exact ⟨s, by simp [h₁, hs], ht⟩

theorem operations_sound {ts : List (BinaryOp × Jack.Term)}
    (hT : TermsSound names w.remaining)
    (h : Many operators (fun p (_ : Unit) w _ v => Yields (operation names w) p v) ts () w () v) :
    ∃ ss, w.follow (Expression.derivationRest ss) = some v ∧
      Expression.resolveRest names ss = some ts := by
  induction ts generalizing w with
  | nil =>
    obtain ⟨-, -, rfl⟩ := h
    exact ⟨[], rfl, rfl⟩
  | cons p ts ih =>
    obtain ⟨-, _, w₁, hx, h⟩ := h
    have hw₁ := hx.bound
    obtain ⟨ss, hss, hts⟩ := ih (hT.mono (Nat.le_of_lt hw₁)) h
    obtain ⟨s, hs, ht⟩ := operation_sound hT hx
    refine ⟨(p.1, s) :: ss, ?_, ?_⟩
    · rw [Expression.derivationRest, ← List.cons_append, Window.follow_append, hs]
      exact hss
    · simp [Expression.resolveRest, ht, hts]

theorem expression_sound_of {e : Jack.Expression}
    (hT : TermsSound names (w.remaining + 1))
    (h : Yields (expression names w) e v) : ReadsExpression names w e v := by
  rw [expression, yields_within] at h
  obtain ⟨v, h, rfl⟩ := h
  simp only [yields_bind, yields_many, yields_pure] at h
  obtain ⟨t, w₁, h₁, ts, w₂, h₂, rfl, rfl⟩ := h
  have hw₁ : w₁.remaining ≤ w.remaining + 1 := Nat.le_succ_of_le (Nat.le_of_lt h₁.bound)
  obtain ⟨s, hs, ht⟩ := hT (w.enter .expression) (Nat.lt_succ_self _) t w₁ h₁
  obtain ⟨ss, hss, hts⟩ := operations_sound (hT.mono hw₁) h₂
  refine ⟨.chain s ss, ?_, ?_⟩
  · simp [Expression.derivation, Event.span, hs, hss]
  · simp [Expression.resolve, ht, hts]

theorem term_sound_of {t : Jack.Term}
    (hT : TermsSound names w.remaining)
    (hE : ExpressionsSound names w.remaining)
    (h : Yields (term names w) t v) : ReadsTerm names w t v := by
  rw [term, yields_within] at h
  obtain ⟨v, h, rfl⟩ := h
  simp only [yields_bind, yields_termStart] at h
  obtain ⟨start, w₁, h₁, h⟩ := h
  have hw₁ := Window.remaining_perform h₁ start.token_ne_eof
  rw [Window.remaining_enter] at hw₁
  cases start with
  | integer value =>
    dsimp only at h
    split at h
    next => exact (not_yields_reject h).elim
    next hv =>
      obtain ⟨rfl, rfl⟩ := yields_pure.mp h
      refine ⟨.integer value, Window.follow_span ?_, ?_⟩
      · exact Window.follow_cons_of h₁ rfl
      · simp [Term.resolve, Nat.not_lt.mp hv]
  | string text =>
    dsimp only at h
    split at h
    next => exact (not_yields_reject h).elim
    next hf =>
      obtain ⟨rfl, rfl⟩ := yields_pure.mp h
      refine ⟨.string text, Window.follow_span ?_, ?_⟩
      · exact Window.follow_cons_of h₁ rfl
      · simp [Term.resolve, hf]
  | constant value =>
    obtain ⟨rfl, rfl⟩ := yields_pure.mp h
    exact ⟨.constant value, Window.follow_span (Window.follow_cons_of h₁ rfl), rfl⟩
  | group =>
    simp only [yields_bind, yields_symbol, yields_pure] at h
    obtain ⟨e, w₂, h₂, _, w₃, h₃, rfl, rfl⟩ := h
    obtain ⟨s, hs, he⟩ := hE w₁ hw₁ e w₂ h₂
    refine ⟨.group s, Window.follow_span (Window.follow_cons_of h₁ ?_), ?_⟩
    · simp [hs, h₃]
    · simp [Term.resolve, he]
  | unary op =>
    simp only [yields_bind, yields_pure] at h
    obtain ⟨t, w₂, h₂, rfl, rfl⟩ := h
    obtain ⟨s, hs, ht⟩ := hT w₁ hw₁ t w₂ h₂
    refine ⟨.unary op s, Window.follow_span (Window.follow_cons_of h₁ hs), ?_⟩
    simp [Term.resolve, ht]
  | named x =>
    dsimp only at h
    split at h
    next =>
      simp only [yields_bind, yields_pure] at h
      obtain ⟨⟨f, es⟩, w₂, h₂, rfl, rfl⟩ := h
      obtain ⟨called, ss, rfl, hss, rfl, hes⟩ :=
        call_sound (hE.mono (Nat.le_of_lt hw₁)) h₂
      refine ⟨.call called ss, Window.follow_span ?_, ?_⟩
      · rw [called.derivation_eq]
        exact Window.follow_cons_of h₁ hss
      · simp [Term.resolve, hes]
    next =>
      simp only [yields_bind, yields_resolve] at h
      obtain ⟨a, _, ⟨ha, rfl⟩, h⟩ := h
      split at h
      next =>
        simp only [yields_bind, yields_pure] at h
        obtain ⟨e, w₂, h₂, rfl, rfl⟩ := h
        obtain ⟨s, hs, he⟩ := subscript_sound (hE.mono (Nat.le_of_lt hw₁)) h₂
        refine ⟨.element x s, Window.follow_span (Window.follow_cons_of h₁ hs), ?_⟩
        simp [Term.resolve, ha, he]
      next =>
        obtain ⟨rfl, rfl⟩ := yields_pure.mp h
        refine ⟨.name x, Window.follow_span (Window.follow_cons_of h₁ rfl), ?_⟩
        simp [Term.resolve, ha]

theorem term_sound {t : Jack.Term} (h : Yields (term names w) t v) : ReadsTerm names w t v := by
  induction hr : w.remaining using Nat.strongRecOn generalizing w t v with
  | ind r ih =>
    subst hr
    have hT : TermsSound names w.remaining := fun u hu t v h => ih _ hu h rfl
    have hE : ExpressionsSound names w.remaining := fun u hu e v h =>
      expression_sound_of (hT.mono hu) h
    exact term_sound_of hT hE h

theorem expression_sound {e : Jack.Expression} (h : Yields (expression names w) e v) :
    ReadsExpression names w e v :=
  expression_sound_of (fun _ _ _ _ h => term_sound h) h

end Soundness

section Completeness

/-- The tokens that an expression is closed by. -/
def closing : List Token :=
  [.symbol .rightParen, .symbol .rightBracket, .symbol .semicolon, .symbol .comma]

def EndsTerm (t : Token) : Prop :=
  t ∈ closing ∨ ∃ op : BinaryOp, t = .symbol op.symbol

variable {names : Names} {w v : Window}

theorem EndsTerm.not_call (h : EndsTerm w.next.token) :
    w.nextIsAmong [.symbol .leftParen, .symbol .dot] = false := by
  obtain h | ⟨op, h⟩ := h
  · simp only [closing, List.mem_cons, List.not_mem_nil, or_false] at h
    obtain h | h | h | h := h <;> rw [Window.nextIsAmong, h] <;> rfl
  · rw [Window.nextIsAmong, h]
    cases op <;> rfl

theorem EndsTerm.not_element (h : EndsTerm w.next.token) :
    ¬ w.nextIs (.symbol .leftBracket) = true := by
  rw [Window.nextIs_symbol]
  obtain h | ⟨op, h⟩ := h
  · intro hb
    rw [hb] at h
    exact absurd h (by decide)
  · rw [h]
    cases op <;> decide

theorem not_operator_of_closing (h : w.next.token ∈ closing) : w.nextIsAmong operators = false := by
  simp only [closing, List.mem_cons, List.not_mem_nil, or_false] at h
  obtain h | h | h | h := h <;> rw [Window.nextIsAmong, h] <;> rfl

theorem closing_of_perform {t : Token} (h : w.perform (.consumed t) = some v) (ht : t ∈ closing) :
    w.next.token ∈ closing := by
  rw [Window.next_token_of_perform h]
  exact ht

theorem endsTerm_of_rest {ss : List (BinaryOp × Term)}
    (hw : w.follow (Expression.derivationRest ss) = some v) (hv : v.next.token ∈ closing) :
    EndsTerm w.next.token := by
  rw [Window.next_token_of_follow hw]
  cases ss with
  | nil => exact .inl hv
  | cons p ss => exact .inr ⟨p.1, rfl⟩

theorem closing_of_more {ss : List Expression}
    (hw : w.follow (Expression.derivationMore ss) = some v)
    (hv : v.next.token = .symbol .rightParen) : w.next.token ∈ closing := by
  rw [Window.next_token_of_follow hw]
  cases ss with
  | nil => simp [Expression.derivationMore, hv, closing]
  | cons s ss => simp [Expression.derivationMore, closing]

theorem callee_complete (called : Called) (hw : w.follow called.behind = some v)
    (hv : v.next.token = .symbol .leftParen) :
    Yields (callee names called.first w) (called.resolve names) v := by
  unfold callee
  cases called with
  | plain x =>
    cases hw
    simp [Window.nextIs, hv, Token.kind, Called.resolve, Called.first]
  | dotted x y =>
    simp only [Called.behind, Window.follow_cons_iff, Window.follow_nil] at hw
    obtain ⟨w₁, h₁, w₂, h₂, h⟩ := hw
    cases h
    rw [if_pos (Window.nextIs_symbol.mpr (Window.next_token_of_perform h₁))]
    simp only [yields_bind, yields_symbol, yields_identifier]
    refine ⟨(), w₁, h₁, y, _, h₂, ?_⟩
    cases hr : names.scopes.resolve? x <;> simp [Called.first, Called.resolve, hr]

def Term.start : Term → TermStart
  | .integer value => .integer value
  | .string text => .string text
  | .constant value => .constant value
  | .name x | .element x _ => .named x
  | .call called _ => .named called.first
  | .group _ => .group
  | .unary op _ => .unary op

/-- What is read behind the first token of a term. -/
def Term.behind : Term → List Event
  | .integer _ | .string _ | .constant _ | .name _ => []
  | .element _ index => bracketed index.derivation
  | .call called arguments => called.behind ++
    parenthesized (Event.span .expressionList (Expression.derivationAll arguments))
  | .group inner => inner.derivation ++ [.symbol .rightParen]
  | .unary _ operand => operand.derivation

theorem Term.derivation_eq (s : Term) :
    s.derivation = Event.span .term (.consumed s.start.token :: s.behind) := by
  cases s with
  | call called arguments => rw [Term.derivation, called.derivation_eq]; rfl
  | integer | string | constant | name | element | group | unary => rfl

theorem TermStart.not_closing (start : TermStart) : start.token ∉ closing := by
  cases start with
  | constant value => cases value <;> decide
  | unary op => cases op <;> decide
  | integer | string | named | group => simp [TermStart.token, closing]

theorem Expression.not_closing {s : Expression} (hw : w.follow s.derivation = some v) :
    w.next.token ∉ closing := by
  obtain ⟨first, rest⟩ := s
  rw [Window.next_token_of_follow hw, Expression.derivation, Term.derivation_eq]
  simpa using TermStart.not_closing first.start

theorem Expression.not_nextIs {s : Expression} {c : Symbol} (hw : w.follow s.derivation = some v)
    (hc : .symbol c ∈ closing) : ¬ w.nextIs (.symbol c) = true :=
  fun h => s.not_closing hw (Window.nextIs_symbol.mp h ▸ hc)

theorem subscript_complete {s : Expression} {e : Jack.Expression}
    (hE : ∀ w v, w.follow s.derivation = some v → v.next.token ∈ closing →
      Yields (expression names w) e v)
    (hw : w.follow (bracketed s.derivation) = some v) : Yields (subscript names w) e v := by
  simp only [bracketed, Window.follow_cons_iff, Window.follow_append_iff, Window.follow_nil] at hw
  obtain ⟨w₁, h₁, w₂, h₂, w₃, h₃, h⟩ := hw
  cases h
  have he : Yields (expression names w₁) e w₂ := hE w₁ w₂ h₂ (closing_of_perform h₃ (by decide))
  unfold subscript
  simp only [yields_bind, yields_symbol, yields_pure]
  exact ⟨(), w₁, h₁, e, w₂, he, (), _, h₃, rfl, rfl⟩

theorem call_complete {called : Called} {ss : List Expression} {es : List Jack.Expression}
    (hL : ∀ w v, w.follow (Event.span .expressionList (Expression.derivationAll ss)) = some v →
      v.next.token = .symbol .rightParen → Yields (expressionList names w) es v)
    (hw : w.follow (called.behind ++
      parenthesized (Event.span .expressionList (Expression.derivationAll ss))) = some v) :
    Yields (call names called.first w) (called.resolve names, es) v := by
  simp only [parenthesized, Window.follow_cons_iff, Window.follow_append_iff, Window.follow_nil] at hw
  obtain ⟨w₁, h₁, w₂, h₂, w₃, h₃, w₄, h₄, h⟩ := hw
  cases h
  have hf : Yields (callee names called.first w) (called.resolve names) w₁ :=
    callee_complete called h₁ (Window.next_token_of_perform h₂)
  have hl := hL w₂ w₃ h₃ (Window.next_token_of_perform h₄)
  unfold call
  simp only [yields_bind, yields_symbol, yields_pure]
  exact ⟨_, w₁, hf, (), w₂, h₂, es, w₃, hl, (), _, h₄, rfl, rfl⟩

theorem nextIsAmong_of_call {called : Called} {es : List Event}
    (hw : w.follow (called.behind ++ parenthesized es) = some v) :
    w.nextIsAmong [.symbol .leftParen, .symbol .dot] = true := by
  rw [Window.nextIsAmong, Window.next_token_of_follow hw]
  cases called <;> rfl

theorem comma_of_follow {es : List Event} (hw : w.follow (.symbol .comma :: es) = some v) :
    w.nextIsAmong [.symbol .comma] = true := by
  rw [Window.nextIsAmong, Window.next_token_of_follow hw]
  rfl

theorem operator_of_follow {op : BinaryOp} {es : List Event}
    (hw : w.follow (.symbol op.symbol :: es) = some v) : w.nextIsAmong operators = true := by
  rw [Window.nextIsAmong, Window.next_token_of_follow hw]
  cases op <;> rfl

mutual

theorem Term.complete (s : Term) {w v : Window} {t : Jack.Term} (hw : w.follow s.derivation = some v)
    (hs : s.resolve names = some t) (hv : EndsTerm v.next.token) : Yields (term names w) t v := by
  rw [s.derivation_eq, Window.follow_span_iff] at hw
  obtain ⟨u, hw, rfl⟩ := hw
  obtain ⟨w₁, h₁, hu⟩ := Window.follow_cons_iff.mp hw
  rw [term, yields_within]
  refine ⟨u, yields_bind.mpr ⟨s.start, w₁, yields_termStart.mpr h₁, ?_⟩, rfl⟩
  cases s with
  | integer value =>
    cases hu
    simp only [Term.resolve, Option.ite_none_right_eq_some, Option.some.injEq] at hs
    simp [Term.start, Nat.not_lt.mpr hs.1, hs.2]
  | string text =>
    cases hu
    simp only [Term.resolve, Option.ite_none_right_eq_some, Option.some.injEq] at hs
    simp [Term.start, hs.1, hs.2]
  | constant value =>
    cases hu
    cases hs
    exact yields_pure.mpr ⟨rfl, rfl⟩
  | group inner =>
    obtain ⟨e, he, rfl⟩ := Option.map_eq_some_iff.mp hs
    obtain ⟨w₂, h₂, h⟩ := Window.follow_append_iff.mp hu
    obtain ⟨w₃, h₃, h⟩ := Window.follow_cons_iff.mp h
    cases h
    have hc : w₂.next.token ∈ closing := closing_of_perform h₃ (by decide)
    have hi : Yields (expression names w₁) e w₂ := inner.complete h₂ he hc
    simp only [Term.start, yields_bind, yields_symbol, yields_pure]
    exact ⟨e, w₂, hi, (), _, h₃, rfl, rfl⟩
  | unary op operand =>
    obtain ⟨t, ht, rfl⟩ := Option.map_eq_some_iff.mp hs
    have ho : Yields (term names w₁) t u := operand.complete hu ht hv
    simp only [Term.start, yields_bind, yields_pure]
    exact ⟨t, u, ho, rfl, rfl⟩
  | name x =>
    cases hu
    obtain ⟨a, ha, rfl⟩ := Option.map_eq_some_iff.mp hs
    have hc : u.nextIsAmong [.symbol .leftParen, .symbol .dot] = false := hv.not_call
    have he : ¬ u.nextIs (.symbol .leftBracket) = true := hv.not_element
    simp only [Term.start, hc, Bool.false_eq_true, if_false, yields_bind, yields_resolve]
    refine ⟨a, u, ⟨ha, rfl⟩, ?_⟩
    rw [if_neg he]
    exact yields_pure.mpr ⟨rfl, rfl⟩
  | element x index =>
    obtain ⟨a, ha, i, hi, rfl⟩ := bind₂_eq_some_iff.mp hs
    have hb : w₁.next.token = .symbol .leftBracket := Window.next_token_of_follow hu
    have hi := subscript_complete (fun w v hw hv => index.complete hw hi hv) hu
    have hc : w₁.nextIsAmong [.symbol .leftParen, .symbol .dot] = false := by
      rw [Window.nextIsAmong, hb]
      rfl
    simp only [Term.start, hc, Bool.false_eq_true, if_false, yields_bind, yields_resolve]
    refine ⟨a, w₁, ⟨ha, rfl⟩, ?_⟩
    rw [if_pos (Window.nextIs_symbol.mpr hb)]
    exact yields_bind.mpr ⟨i, u, hi, yields_pure.mpr ⟨rfl, rfl⟩⟩
  | call called arguments =>
    obtain ⟨es, hes, rfl⟩ := Option.map_eq_some_iff.mp hs
    have hl := call_complete (fun w v hw hv => Expression.complete_all arguments hw hes hv) hu
    simp only [Term.start, nextIsAmong_of_call hu, if_true]
    exact yields_bind.mpr ⟨_, u, hl, yields_pure.mpr ⟨rfl, rfl⟩⟩

theorem Expression.complete (s : Expression) {w v : Window} {e : Jack.Expression}
    (hw : w.follow s.derivation = some v) (hs : s.resolve names = some e)
    (hv : v.next.token ∈ closing) : Yields (expression names w) e v := by
  obtain ⟨first, rest⟩ := s
  rw [Expression.derivation, Window.follow_span_iff] at hw
  obtain ⟨u, hw, rfl⟩ := hw
  obtain ⟨w₁, h₁, hu⟩ := Window.follow_append_iff.mp hw
  obtain ⟨t, ht, ts, hts, rfl⟩ := bind₂_eq_some_iff.mp hs
  have hf : Yields (term names (w.enter .expression)) t w₁ :=
    first.complete h₁ ht (endsTerm_of_rest hu hv)
  have hr := Expression.complete_rest rest hu hts hv
  rw [expression, yields_within]
  simp only [yields_bind, yields_many, yields_pure]
  exact ⟨u, ⟨t, w₁, hf, ts, u, hr, rfl, rfl⟩, rfl⟩

theorem Expression.complete_rest (ss : List (BinaryOp × Term)) {w v : Window}
    {ts : List (BinaryOp × Jack.Term)} (hw : w.follow (Expression.derivationRest ss) = some v)
    (hs : Expression.resolveRest names ss = some ts) (hv : v.next.token ∈ closing) :
    Many operators (fun p (_ : Unit) w _ v => Yields (operation names w) p v) ts () w () v := by
  match ss with
  | [] =>
    cases hw
    cases hs
    exact ⟨not_operator_of_closing hv, rfl, rfl⟩
  | (op, operand) :: ss =>
    have hn := operator_of_follow hw
    obtain ⟨w₁, h₁, hw⟩ := Window.follow_cons_iff.mp hw
    obtain ⟨w₂, h₂, hw⟩ := Window.follow_append_iff.mp hw
    obtain ⟨t, ht, ts, hts, rfl⟩ := bind₂_eq_some_iff.mp hs
    have ho : Yields (term names w₁) t w₂ := operand.complete h₂ ht (endsTerm_of_rest hw hv)
    refine ⟨hn, (), w₂, ?_, Expression.complete_rest ss hw hts hv⟩
    unfold operation
    simp only [yields_bind, yields_operator, yields_pure]
    exact ⟨op, w₁, h₁, t, w₂, ho, rfl, rfl⟩

theorem Expression.complete_all (ss : List Expression) {w v : Window} {es : List Jack.Expression}
    (hw : w.follow (Event.span .expressionList (Expression.derivationAll ss)) = some v)
    (hs : Expression.resolveAll names ss = some es) (hv : v.next.token = .symbol .rightParen) :
    Yields (expressionList names w) es v := by
  rw [Window.follow_span_iff] at hw
  obtain ⟨u, hw, rfl⟩ := hw
  rw [expressionList, yields_within]
  refine ⟨u, ?_, rfl⟩
  match ss with
  | [] =>
    have hu : w.enter .expressionList = u := Option.some.inj hw
    subst hu
    cases hs
    have hn : (w.enter .expressionList).nextIs (.symbol .rightParen) = true :=
      Window.nextIs_symbol.mpr hv
    rw [if_pos hn]
    exact yields_pure.mpr ⟨rfl, rfl⟩
  | s :: ss =>
    obtain ⟨w₁, h₁, hu⟩ := Window.follow_append_iff.mp hw
    obtain ⟨e, he, es, hes, rfl⟩ := bind₂_eq_some_iff.mp hs
    have hn := s.not_nextIs (c := .rightParen) h₁ (by decide)
    have hs : Yields (expression names (w.enter .expressionList)) e w₁ :=
      s.complete h₁ he (closing_of_more hu hv)
    have hm := Expression.complete_more ss hu hes hv
    rw [if_neg hn]
    simp only [yields_bind, yields_many, yields_pure]
    exact ⟨e, w₁, hs, es, u, hm, rfl, rfl⟩

theorem Expression.complete_more (ss : List Expression) {w v : Window} {es : List Jack.Expression}
    (hw : w.follow (Expression.derivationMore ss) = some v)
    (hs : Expression.resolveAll names ss = some es) (hv : v.next.token = .symbol .rightParen) :
    Many [.symbol .comma] (fun e (_ : Unit) w _ v => Yields (nextExpression names w) e v)
      es () w () v := by
  match ss with
  | [] =>
    have hu : w = v := Option.some.inj hw
    subst hu
    cases hs
    refine ⟨?_, rfl, rfl⟩
    rw [Window.nextIsAmong, hv]
    rfl
  | s :: ss =>
    have hn := comma_of_follow hw
    obtain ⟨w₁, h₁, hw⟩ := Window.follow_cons_iff.mp hw
    obtain ⟨w₂, h₂, hw⟩ := Window.follow_append_iff.mp hw
    obtain ⟨e, he, es, hes, rfl⟩ := bind₂_eq_some_iff.mp hs
    have hs : Yields (expression names w₁) e w₂ := s.complete h₂ he (closing_of_more hw hv)
    refine ⟨hn, (), w₂, ?_, Expression.complete_more ss hw hes hv⟩
    unfold nextExpression
    simp only [yields_bind, yields_symbol, yields_pure]
    exact ⟨(), w₁, h₁, e, w₂, hs, rfl, rfl⟩

end

end Completeness

end Grammar

end Jack
