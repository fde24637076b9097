import Jack.Proofs.Grammar.Tree
import Mathlib.Computability.RegularExpressions

/-!
The productions of the grammar, and the trees that are derived by them. A type, the call of a subroutine,
a statement and a block have no rule of their own and stand in the productions of other rules.
-/

namespace Jack.Grammar

/-- What a production is made of: a token, of which only the kind matters, or a rule. -/
inductive Part where
  | token (kind : TokenKind)
  | rule (rule : Rule)
deriving DecidableEq

namespace Production

open RegularExpression (char)

def keyword (k : Keyword) : RegularExpression Part := char (.token (.keyword k))

def symbol (s : Symbol) : RegularExpression Part := char (.token (.symbol s))

def identifier : RegularExpression Part := char (.token .identifier)

def integer : RegularExpression Part := char (.token .integer)

def string : RegularExpression Part := char (.token .string)

def rule (r : Rule) : RegularExpression Part := char (.rule r)

def parenthesized (e : RegularExpression Part) : RegularExpression Part :=
  symbol .leftParen * e * symbol .rightParen

def bracketed (e : RegularExpression Part) : RegularExpression Part :=
  symbol .leftBracket * e * symbol .rightBracket

def braced (e : RegularExpression Part) : RegularExpression Part :=
  symbol .leftBrace * e * symbol .rightBrace

def type : RegularExpression Part :=
  keyword .int + keyword .char + keyword .boolean + identifier

def returnType : RegularExpression Part := keyword .void + type

def classVariable : RegularExpression Part := keyword .static + keyword .field

def subroutine : RegularExpression Part :=
  keyword .constructor + keyword .function + keyword .method

/-- `type name (',' name)* ';'` -/
def declared : RegularExpression Part :=
  type * identifier * (symbol .comma * identifier).star * symbol .semicolon

def constant : RegularExpression Part :=
  keyword .true + keyword .false + keyword .null + keyword .this

def operator : RegularExpression Part :=
  symbol .plus + symbol .minus + symbol .asterisk + symbol .slash + symbol .ampersand + symbol .bar +
    symbol .less + symbol .greater + symbol .equals

def unaryOperator : RegularExpression Part := symbol .minus + symbol .tilde

def call : RegularExpression Part :=
  (identifier + identifier * symbol .dot * identifier) * parenthesized (rule .expressionList)

def block : RegularExpression Part := braced (rule .statements)

def statement : RegularExpression Part :=
  rule .letStatement + rule .ifStatement + rule .whileStatement + rule .doStatement +
    rule .returnStatement

end Production

open Production in
def production : Rule → RegularExpression Part
  | .class => keyword .class * identifier *
    braced ((rule .classVarDec).star * (rule .subroutineDec).star)
  | .classVarDec => classVariable * declared
  | .subroutineDec => subroutine * returnType * identifier * parenthesized (rule .parameterList) *
    rule .subroutineBody
  | .parameterList => 1 + type * identifier * (symbol .comma * type * identifier).star
  | .subroutineBody => braced ((rule .varDec).star * rule .statements)
  | .varDec => keyword .var * declared
  | .statements => statement.star
  | .letStatement => keyword .let * identifier * (1 + bracketed (rule .expression)) *
    symbol .equals * rule .expression * symbol .semicolon
  | .ifStatement => keyword .if * parenthesized (rule .expression) * block *
    (1 + keyword .else * block)
  | .whileStatement => keyword .while * parenthesized (rule .expression) * block
  | .doStatement => keyword .do * call * symbol .semicolon
  | .returnStatement => keyword .return * (1 + rule .expression) * symbol .semicolon
  | .expression => rule .term * (operator * rule .term).star
  | .term => integer + string + constant + identifier +
    identifier * bracketed (rule .expression) + call + parenthesized (rule .expression) +
    unaryOperator * rule .term
  | .expressionList => 1 + rule .expression * (symbol .comma * rule .expression).star

inductive Tree where
  | token (token : Token)
  | node (rule : Rule) (children : List Tree)

namespace Tree

def part : Tree → Part
  | .token t => .token t.kind
  | .node r _ => .rule r

mutual

def tokens : Tree → List Token
  | .token t => [t]
  | .node _ children => tokensAll children
termination_by structural t => t

def tokensAll : List Tree → List Token
  | [] => []
  | t :: ts => t.tokens ++ tokensAll ts
termination_by structural ts => ts

end

mutual

/-- The tree from left to right, with a mark where each node begins and where it ends. -/
def events : Tree → List Event
  | .token t => [.consumed t]
  | .node r children => Event.span r (eventsAll children)
termination_by structural t => t

def eventsAll : List Tree → List Event
  | [] => []
  | t :: ts => t.events ++ eventsAll ts
termination_by structural ts => ts

end

/-- The children of each node are a right-hand side of its rule. -/
inductive Derives : Tree → Prop
  | token (t : Token) : Derives (.token t)
  | node {r : Rule} {children : List Tree} (h : children.map part ∈ (production r).matches')
    (hc : ∀ t ∈ children, Derives t) : Derives (.node r children)

mutual

theorem tokens_events (t : Tree) : Event.tokens t.events = t.tokens := by
  match t with
  | .token t => rfl
  | .node r children => rw [events, Event.tokens_span, tokens_eventsAll, tokens]
termination_by structural t

theorem tokens_eventsAll (ts : List Tree) : Event.tokens (eventsAll ts) = tokensAll ts := by
  match ts with
  | [] => rfl
  | t :: ts => rw [eventsAll, Event.tokens_append, tokens_events, tokens_eventsAll, tokensAll]
termination_by structural ts

end

mutual

/-- Different trees are told apart by their events, whatever follows them. -/
theorem eq_of_events_append {es fs : List Event} (t u : Tree)
    (h : t.events ++ es = u.events ++ fs) : t = u ∧ es = fs := by
  match t, u with
  | .token t, .token u =>
    cases h
    exact ⟨rfl, rfl⟩
  | .node r ts, .node r' us =>
    obtain ⟨hr, h⟩ := List.cons.inj h
    rw [List.append_eq, List.append_eq, List.append_assoc, List.append_assoc] at h
    obtain ⟨rfl, rfl⟩ := eq_of_eventsAll_append ts us h
    cases hr
    exact ⟨rfl, rfl⟩
  | .token _, .node _ _ => cases h
  | .node _ _, .token _ => cases h
termination_by structural t

theorem eq_of_eventsAll_append {es fs : List Event} {r r' : Rule} (ts us : List Tree)
    (h : eventsAll ts ++ .leave r :: es = eventsAll us ++ .leave r' :: fs) : ts = us ∧ es = fs := by
  match ts, us with
  | [], [] =>
    cases h
    exact ⟨rfl, rfl⟩
  | t :: ts, u :: us =>
    rw [eventsAll, eventsAll, List.append_assoc, List.append_assoc] at h
    obtain ⟨rfl, hrest⟩ := eq_of_events_append t u h
    obtain ⟨rfl, rfl⟩ := eq_of_eventsAll_append ts us hrest
    exact ⟨rfl, rfl⟩
  | [], .token _ :: _ => cases h
  | [], .node _ _ :: _ => cases h
  | .token _ :: _, [] => cases h
  | .node _ _ :: _, [] => cases h
termination_by structural ts

end

theorem eq_of_events {t u : Tree} (h : t.events = u.events) : t = u :=
  (eq_of_events_append t u (congrArg (· ++ []) h)).1

theorem eventsAll_append (ts us : List Tree) :
    eventsAll (ts ++ us) = eventsAll ts ++ eventsAll us := by
  induction ts with
  | nil => rfl
  | cons t ts ih => rw [List.cons_append, eventsAll, ih, eventsAll, List.append_assoc]

end Tree

section Expansion

open scoped Computability

variable {σ τ : Part → Language Event} {es : List Event}

/-- What an expression stands for when its parts stand for events. -/
def expand (σ : Part → Language Event) : RegularExpression Part → Language Event
  | .zero => 0
  | .epsilon => 1
  | .char a => σ a
  | .plus e f => expand σ e + expand σ f
  | .comp e f => expand σ e * expand σ f
  | .star e => (expand σ e)∗

@[simp] theorem mem_one : es ∈ expand σ 1 ↔ es = [] := Iff.rfl

@[simp] theorem mem_add {e f : RegularExpression Part} :
    es ∈ expand σ (e + f) ↔ es ∈ expand σ e ∨ es ∈ expand σ f := Iff.rfl

@[simp] theorem mem_mul {e f : RegularExpression Part} :
    es ∈ expand σ (e * f) ↔ ∃ as ∈ expand σ e, ∃ bs ∈ expand σ f, as ++ bs = es := Language.mem_mul

/-- Only what the parts stand for within the length of the word matters. -/
theorem expand_mono {e : RegularExpression Part}
    (h : ∀ a fs, fs.length ≤ es.length → fs ∈ σ a → fs ∈ τ a) (hes : es ∈ expand σ e) :
    es ∈ expand τ e := by
  induction e generalizing es with
  | zero | epsilon => exact hes
  | char a => exact h a es (Nat.le_refl _) hes
  | plus e f ihe ihf => exact hes.imp (ihe h) (ihf h)
  | comp e f ihe ihf =>
    obtain ⟨as, ha, bs, hb, rfl⟩ := Language.mem_mul.mp hes
    rw [List.length_append] at h
    exact Language.append_mem_mul (ihe (fun a fs hl => h a fs (by omega)) ha)
      (ihf (fun a fs hl => h a fs (by omega)) hb)
  | star e ih =>
    obtain ⟨words, rfl, hw⟩ := Language.mem_kstar.mp hes
    refine Language.join_mem_kstar fun w hm => ih (fun a fs hl => h a fs ?_) (hw w hm)
    exact hl.trans (List.sublist_flatten_of_mem hm).length_le

/-- When the parts stand for trees, an expression stands for rows of such trees. -/
theorem mem_expand_iff (S : Tree → Prop) {e : RegularExpression Part} :
    es ∈ expand (fun a => {es | ∃ t, S t ∧ t.part = a ∧ t.events = es}) e ↔
      ∃ ts : List Tree, ts.map Tree.part ∈ e.matches' ∧ (∀ t ∈ ts, S t) ∧ Tree.eventsAll ts = es := by
  induction e generalizing es with
  | zero =>
    constructor
    · exact False.elim
    · rintro ⟨ts, h, -, -⟩
      exact h
  | epsilon =>
    constructor
    · rintro rfl
      exact ⟨[], rfl, List.forall_mem_nil _, rfl⟩
    · rintro ⟨ts, h, -, rfl⟩
      cases List.map_eq_nil_iff.mp h
      rfl
  | char a =>
    constructor
    · rintro ⟨t, ht, rfl, rfl⟩
      exact ⟨[t], rfl, List.forall_mem_singleton.mpr ht, List.append_nil _⟩
    · rintro ⟨ts, h, hs, rfl⟩
      obtain ⟨t, rfl, rfl⟩ := List.map_eq_singleton_iff.mp h
      exact ⟨t, List.forall_mem_singleton.mp hs, rfl, (List.append_nil _).symm⟩
  | plus e f ihe ihf =>
    refine (or_congr ihe ihf).trans ?_
    simp only [← exists_or, ← or_and_right]
    rfl
  | comp e f ihe ihf =>
    refine Language.mem_mul.trans ?_
    simp only [ihe, ihf]
    constructor
    · rintro ⟨_, ⟨ts, ht, hs, rfl⟩, _, ⟨us, hu, hs', rfl⟩, rfl⟩
      refine ⟨ts ++ us, ?_, List.forall_mem_append.mpr ⟨hs, hs'⟩, Tree.eventsAll_append ts us⟩
      rw [List.map_append]
      exact Language.append_mem_mul ht hu
    · rintro ⟨ts, h, hs, rfl⟩
      obtain ⟨as, ha, bs, hb, he⟩ := Language.mem_mul.mp h
      obtain ⟨ts, us, rfl, rfl, rfl⟩ := List.map_eq_append_iff.mp he.symm
      obtain ⟨hs, hs'⟩ := List.forall_mem_append.mp hs
      exact ⟨_, ⟨ts, ha, hs, rfl⟩, _, ⟨us, hb, hs', rfl⟩, (Tree.eventsAll_append ts us).symm⟩
  | star e ih =>
    refine Language.mem_kstar.trans ?_
    simp only [ih]
    constructor
    · rintro ⟨words, rfl, hw⟩
      induction words with
      | nil => exact ⟨[], Language.nil_mem_kstar _, List.forall_mem_nil _, rfl⟩
      | cons w words ihw =>
        obtain ⟨⟨ts, ht, hs, rfl⟩, hws⟩ := List.forall_mem_cons.mp hw
        obtain ⟨us, hu, hs', he⟩ := ihw hws
        obtain ⟨parts, hp, hps⟩ := Language.mem_kstar.mp hu
        refine ⟨ts ++ us, ?_, List.forall_mem_append.mpr ⟨hs, hs'⟩, ?_⟩
        · rw [List.map_append, hp, ← List.flatten_cons]
          exact Language.join_mem_kstar (List.forall_mem_cons.mpr ⟨ht, hps⟩)
        · rw [Tree.eventsAll_append, he, List.flatten_cons]
    · rintro ⟨ts, h, hs, rfl⟩
      obtain ⟨words, hwords, hw⟩ := Language.mem_kstar.mp h
      clear h
      induction words generalizing ts with
      | nil =>
        cases List.map_eq_nil_iff.mp hwords
        exact ⟨[], rfl, List.forall_mem_nil _⟩
      | cons w words ihw =>
        obtain ⟨hwm, hws⟩ := List.forall_mem_cons.mp hw
        obtain ⟨ts, us, rfl, rfl, hu⟩ := List.map_eq_append_iff.mp hwords
        obtain ⟨hs, hs'⟩ := List.forall_mem_append.mp hs
        obtain ⟨rows, he, hr⟩ := ihw us hs' hu hws
        refine ⟨Tree.eventsAll ts :: rows, ?_, List.forall_mem_cons.mpr ⟨⟨ts, hwm, hs, rfl⟩, hr⟩⟩
        rw [Tree.eventsAll_append, he, List.flatten_cons]

def fill (X : Rule → Language Event) : Part → Language Event
  | .token k => {es | ∃ t : Token, t.kind = k ∧ [.consumed t] = es}
  | .rule r => X r

def Solves (X : Rule → Language Event) : Prop :=
  ∀ r es, es ∈ X r ↔ ∃ inner ∈ expand (fill X) (production r), Event.span r inner = es

variable {X : Rule → Language Event}

theorem Solves.exists_tree (h : Solves X) {r : Rule} (hes : es ∈ X r) :
    ∃ t : Tree, t.Derives ∧ t.part = .rule r ∧ t.events = es := by
  induction hn : es.length using Nat.strongRecOn generalizing r es with
  | ind n ih =>
    obtain ⟨inner, hi, rfl⟩ := (h r es).mp hes
    have hlt : inner.length < n := by
      simp only [← hn, Event.span, List.length_cons, List.length_append]
      omega
    -- What stands between the marks is shorter, and so are its parts.
    have hparts : ∀ a fs, fs.length ≤ inner.length → fs ∈ fill X a →
        fs ∈ ({es | ∃ t : Tree, t.Derives ∧ t.part = a ∧ t.events = es} : Language Event) := by
      intro a fs hl hf
      cases a with
      | token k =>
        obtain ⟨t, rfl, rfl⟩ := hf
        exact ⟨.token t, .token t, rfl, rfl⟩
      | rule r => exact ih fs.length (Nat.lt_of_le_of_lt hl hlt) hf rfl
    obtain ⟨ts, ht, hd, rfl⟩ := (mem_expand_iff Tree.Derives).mp (expand_mono hparts hi)
    exact ⟨.node r ts, .node ht hd, rfl, rfl⟩

theorem Solves.events_mem (h : Solves X) {t : Tree} (ht : t.Derives) :
    t.events ∈ fill X t.part := by
  induction ht with
  | token t => exact ⟨t, rfl, rfl⟩
  | @node r children hp _ ih =>
    have hi := (mem_expand_iff fun t => t.events ∈ fill X t.part).mpr ⟨children, hp, ih, rfl⟩
    refine (h r _).mpr ⟨Tree.eventsAll children, expand_mono (fun a fs _ hf => ?_) hi, rfl⟩
    obtain ⟨t, ht, rfl, rfl⟩ := hf
    exact ht

/-- The productions leave no choice of what the rules stand for. It is the events of the trees. -/
theorem Solves.mem_iff (h : Solves X) {r : Rule} :
    es ∈ X r ↔ ∃ t : Tree, t.Derives ∧ t.part = .rule r ∧ t.events = es := by
  refine ⟨h.exists_tree, ?_⟩
  rintro ⟨t, ht, hr, rfl⟩
  have he := h.events_mem ht
  rwa [hr] at he

end Expansion

end Jack.Grammar
