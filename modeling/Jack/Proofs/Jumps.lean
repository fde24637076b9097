import Jack.Proofs.Code.Blocks
import Jack.Proofs.Grammar.Keywords
import Jack.Proofs.VM.Flow
import Jack.Proofs.VM.Reader
import Mathlib.Data.List.Nodup

namespace Jack

open VM (Command Label labels jumps)

namespace VM

theorem Command.IsQuiet.jump?_eq_none {c : Command} (h : c.IsQuiet) : c.jump? = none := by
  cases c with
  | goto | ifGoto => exact h.elim
  | push | pop | arithmetic | label | function | call | «return» => rfl

theorem jumps_eq_nil_of_quiet {code : List Command} (h : ∀ c ∈ code, c.IsQuiet) : jumps code = [] :=
  List.filterMap_eq_nil_iff.mpr fun c hc => (h c hc).jump?_eq_none

end VM

@[simp] theorem Expression.jumps_code (e : Expression) : jumps e.code = [] :=
  VM.jumps_eq_nil_of_quiet e.quiet_code

@[simp] theorem Term.jumps_code (t : Term) : jumps t.code = [] :=
  VM.jumps_eq_nil_of_quiet t.quiet_code

mutual

/-- The code of a statement jumps to just those labels that it defines. -/
theorem Statement.mem_jumps_iff (k : LabelCount) (s : Statement) (l : Label) :
    l ∈ jumps (s.code k).1 ↔ l ∈ labels (s.code k).1 := by
  cases s with
  | assign target value => simp [Statement.code, Variable.pop]
  | store array index value => simp [Statement.code, Variable.push, storeElement]
  | ifThen condition yes =>
    have hy := Statement.mem_jumps_all_iff k.forIf.2 yes l
    simp only [Statement.code, VM.jumps_append, VM.labels_append, List.mem_append, hy]
    simp
    tauto
  | ifElse condition yes no =>
    have hy := Statement.mem_jumps_all_iff k.forIf.2 yes l
    have hn := Statement.mem_jumps_all_iff (Statement.codeAll k.forIf.2 yes).2 no l
    simp only [Statement.code, VM.jumps_append, VM.labels_append, List.mem_append, hy, hn]
    simp
    tauto
  | «while» condition body =>
    have hb := Statement.mem_jumps_all_iff k.forWhile.2 body l
    simp only [Statement.code, VM.jumps_append, VM.labels_append, List.mem_append, hb]
    simp
    tauto
  | «do» callee arguments => simp [Statement.code]
  | «return» value => cases value <;> simp [Statement.code]

theorem Statement.mem_jumps_all_iff (k : LabelCount) (ss : List Statement) (l : Label) :
    l ∈ jumps (Statement.codeAll k ss).1 ↔ l ∈ labels (Statement.codeAll k ss).1 := by
  match ss with
  | [] => rfl
  | s :: ss =>
    have hs := s.mem_jumps_iff k l
    have hss := Statement.mem_jumps_all_iff (s.code k).2 ss l
    simp only [Statement.codeAll, VM.jumps_append, VM.labels_append, List.mem_append, hs, hss]

end

/-- The count of labels that have been given out for the keywords among some tokens. -/
def LabelCount.among (ts : List Token) : LabelCount :=
  ⟨ts.count (.keyword .if), ts.count (.keyword .while)⟩

theorem LabelCount.among_append {ts us : List Token} (hi : us.count (.keyword .if) = 0)
    (hw : us.count (.keyword .while) = 0) : LabelCount.among (ts ++ us) = .among ts := by
  simp [among, hi, hw]

namespace Grammar

open Event (tokens parenthesized braced)

def head (k : Keyword) (condition : Expression) : List Token :=
  tokens (Event.keyword k :: parenthesized condition.derivation) ++ [.symbol .leftBrace]

def between : List Token :=
  [.symbol .rightBrace, .keyword .else, .symbol .leftBrace]

mutual

/-- The labels of a statement, those of statements nested in it between the ones that delimit their
block. They are numbered by the keywords of their sort that come `before` in the body. -/
def Statement.marks (before : List Token) : Statement → List Label
  | .ifThen condition yes =>
    let k := before.count (.keyword .if)
    ⟨.ifTrue, k⟩ :: (Statement.marksAll (before ++ head .if condition) yes ++ [⟨.ifFalse, k⟩])
  | .ifElse condition yes no =>
    let k := before.count (.keyword .if)
    let opened := before ++ head .if condition
    ⟨.ifTrue, k⟩ :: (Statement.marksAll opened yes ++ ⟨.ifFalse, k⟩ ::
      (Statement.marksAll (opened ++ tokens (Statement.derivationAll yes) ++ between) no ++
        [⟨.ifEnd, k⟩]))
  | .while condition body =>
    let k := before.count (.keyword .while)
    ⟨.whileCondition, k⟩ ::
      (Statement.marksAll (before ++ head .while condition) body ++ [⟨.whileEnd, k⟩])
  | .assign _ _ | .store _ _ _ | .do _ _ | .return _ => []

def Statement.marksAll (before : List Token) : List Statement → List Label
  | [] => []
  | s :: ss => s.marks before ++ Statement.marksAll (before ++ tokens s.derivation) ss

end

variable {names : Names}

theorem forIf_labels (before : List Token) :
    (LabelCount.among before).forIf.1 = ⟨⟨.ifTrue, before.count (.keyword .if)⟩,
      ⟨.ifFalse, before.count (.keyword .if)⟩, ⟨.ifEnd, before.count (.keyword .if)⟩⟩ := rfl

theorem forWhile_labels (before : List Token) :
    (LabelCount.among before).forWhile.1 = ⟨⟨.whileCondition, before.count (.keyword .while)⟩,
      ⟨.whileEnd, before.count (.keyword .while)⟩⟩ := rfl

theorem forIf_among (before : List Token) (condition : Expression) :
    (LabelCount.among before).forIf.2 = .among (before ++ head .if condition) := by
  simp [LabelCount.among, LabelCount.forIf, head, parenthesized,
    condition.count_keyword structural_if, condition.count_keyword structural_while]

theorem forWhile_among (before : List Token) (condition : Expression) :
    (LabelCount.among before).forWhile.2 = .among (before ++ head .while condition) := by
  simp [LabelCount.among, LabelCount.forWhile, head, parenthesized,
    condition.count_keyword structural_if, condition.count_keyword structural_while]

theorem tokens_ifThen (condition : Expression) (yes : List Statement) :
    tokens (Statement.ifThen condition yes).derivation =
      head .if condition ++ tokens (Statement.derivationAll yes) ++ [.symbol .rightBrace] := by
  simp [Statement.derivation, head, parenthesized, braced]

theorem tokens_ifElse (condition : Expression) (yes no : List Statement) :
    tokens (Statement.ifElse condition yes no).derivation =
      head .if condition ++ tokens (Statement.derivationAll yes) ++ between ++
        tokens (Statement.derivationAll no) ++ [.symbol .rightBrace] := by
  simp [Statement.derivation, head, between, parenthesized, braced]

theorem tokens_while (condition : Expression) (body : List Statement) :
    tokens (Statement.while condition body).derivation =
      head .while condition ++ tokens (Statement.derivationAll body) ++ [.symbol .rightBrace] := by
  simp [Statement.derivation, head, parenthesized, braced]

mutual

theorem Statement.labels_code {s : Statement} {r : Jack.Statement} (h : s.resolve names = some r)
    (before : List Token) :
    labels (r.code (.among before)).1 = s.marks before ∧
      (r.code (.among before)).2 = .among (before ++ tokens s.derivation) := by
  cases s with
  | assign x value =>
    obtain ⟨v, -, e, -, rfl⟩ := bind₂_eq_some_iff.mp h
    have hi := value.count_keyword structural_if
    have hw := value.count_keyword structural_while
    refine ⟨by simp [Jack.Statement.code, Statement.marks, Variable.pop], ?_⟩
    rw [LabelCount.among_append] <;> simp [Jack.Statement.code, Statement.derivation, hi, hw]
  | store x index value =>
    obtain ⟨v, -, i, -, e, -, rfl⟩ := bind₃_eq_some_iff.mp h
    have hi := value.count_keyword structural_if
    have hw := value.count_keyword structural_while
    have hi' := index.count_keyword structural_if
    have hw' := index.count_keyword structural_while
    refine ⟨by simp [Jack.Statement.code, Statement.marks, storeElement, Variable.push], ?_⟩
    rw [LabelCount.among_append] <;>
      simp [Jack.Statement.code, Statement.derivation, Event.bracketed, hi, hw, hi', hw']
  | ifThen condition yes =>
    obtain ⟨e, -, ys, hys, rfl⟩ := bind₂_eq_some_iff.mp h
    obtain ⟨hl, hk⟩ := Statement.labels_codeAll hys (before ++ head .if condition)
    rw [← forIf_among] at hl hk
    refine ⟨by simp [Jack.Statement.code, Statement.marks, hl, forIf_labels], ?_⟩
    simp only [Jack.Statement.code, hk, tokens_ifThen, ← List.append_assoc]
    exact (LabelCount.among_append rfl rfl).symm
  | ifElse condition yes no =>
    obtain ⟨e, -, ys, hys, ns, hns, rfl⟩ := bind₃_eq_some_iff.mp h
    obtain ⟨hl, hk⟩ := Statement.labels_codeAll hys (before ++ head .if condition)
    obtain ⟨hl', hk'⟩ := Statement.labels_codeAll hns
      (before ++ head .if condition ++ tokens (Statement.derivationAll yes) ++ between)
    have hb : LabelCount.among (before ++ head .if condition ++
        tokens (Statement.derivationAll yes) ++ between) =
        (Jack.Statement.codeAll (LabelCount.among before).forIf.2 ys).2 := by
      rw [forIf_among, hk]
      exact LabelCount.among_append rfl rfl
    rw [← forIf_among] at hl
    rw [hb] at hl' hk'
    refine ⟨by simp [Jack.Statement.code, Statement.marks, hl, hl', forIf_labels], ?_⟩
    simp only [Jack.Statement.code, hk', tokens_ifElse, ← List.append_assoc]
    exact (LabelCount.among_append rfl rfl).symm
  | «while» condition body =>
    obtain ⟨e, -, rs, hrs, rfl⟩ := bind₂_eq_some_iff.mp h
    obtain ⟨hl, hk⟩ := Statement.labels_codeAll hrs (before ++ head .while condition)
    rw [← forWhile_among] at hl hk
    refine ⟨by simp [Jack.Statement.code, Statement.marks, hl, forWhile_labels], ?_⟩
    simp only [Jack.Statement.code, hk, tokens_while, ← List.append_assoc]
    exact (LabelCount.among_append rfl rfl).symm
  | «do» called arguments =>
    obtain ⟨es, -, rfl⟩ := Option.map_eq_some_iff.mp h
    have hi := Expression.count_keyword_all structural_if arguments
    have hw := Expression.count_keyword_all structural_while arguments
    refine ⟨by simp [Jack.Statement.code, Statement.marks], ?_⟩
    rw [LabelCount.among_append] <;>
      simp [Jack.Statement.code, Statement.derivation, parenthesized, called.count_keyword, hi, hw]
  | «return» value => cases value with
    | none =>
      cases h
      refine ⟨by simp [Jack.Statement.code, Statement.marks], ?_⟩
      rw [LabelCount.among_append] <;> rfl
    | some value =>
      obtain ⟨e, -, rfl⟩ := Option.map_eq_some_iff.mp h
      have hi := value.count_keyword structural_if
      have hw := value.count_keyword structural_while
      refine ⟨by simp [Jack.Statement.code, Statement.marks], ?_⟩
      rw [LabelCount.among_append] <;> simp [Jack.Statement.code, Statement.derivation, hi, hw]

theorem Statement.labels_codeAll {ss : List Statement} {rs : List Jack.Statement}
    (h : Statement.resolveAll names ss = some rs) (before : List Token) :
    labels (Statement.codeAll (.among before) rs).1 = Statement.marksAll before ss ∧
      (Jack.Statement.codeAll (.among before) rs).2 =
        .among (before ++ tokens (Statement.derivationAll ss)) := by
  match ss with
  | [] =>
    cases h
    simp [Statement.marksAll, Statement.derivationAll, Jack.Statement.codeAll]
  | s :: ss =>
    obtain ⟨r, hr, rs, hrs, rfl⟩ := bind₂_eq_some_iff.mp h
    obtain ⟨hl, hk⟩ := Statement.labels_code hr before
    obtain ⟨hls, hks⟩ := Statement.labels_codeAll hrs (before ++ tokens s.derivation)
    simp only [Jack.Statement.codeAll, VM.labels_append, hl, hk, hls, hks, Statement.marksAll,
      Statement.derivationAll, Event.tokens_append, List.append_assoc, and_self]

end

end Grammar

/-- The block is closed under jumps, and its labels are those of the statements of the source. -/
structure Linked (s : Grammar.Subroutine) (block : List Command) : Prop where
  nodup : ((labels block).map Label.text).Nodup
  defined : ∀ l ∈ jumps block, ((labels block).map Label.text).count l.text = 1
  used : ∀ l ∈ labels block, l ∈ jumps block
  marks : labels block = Grammar.Statement.marksAll [] s.body

theorem Subroutine.jumps_code (className : String) (fields : Nat) (s : Subroutine) :
    jumps (s.code className fields) = jumps (Statement.codeAll .zero s.body).1 := by
  cases hk : s.kind <;> simp [Subroutine.code, SubroutineKind.prologue, hk]

theorem Grammar.Subroutine.linked {className : String} {scopes : Scopes} {s : Grammar.Subroutine}
    {r : Jack.Subroutine} (h : s.resolve className scopes = some r) (fields : Nat) :
    Linked s (r.code className fields) := by
  obtain ⟨scopes', -, body, hb, rfl⟩ := Grammar.Subroutine.resolve_eq_some_iff.mp h
  have hj := Jack.Statement.mem_jumps_all_iff .zero body
  have hn : ((labels (Jack.Statement.codeAll .zero body).1).map Label.text).Nodup :=
    List.Nodup.map Label.text_injective (Jack.Statement.numbered_all .zero body).nodup
  constructor
  case nodup =>
    rw [Jack.Subroutine.labels_code]
    exact hn
  case defined =>
    intro l hl
    rw [Jack.Subroutine.jumps_code, hj] at hl
    rw [Jack.Subroutine.labels_code]
    exact List.count_eq_one_of_mem hn (List.mem_map_of_mem hl)
  case used =>
    intro l hl
    rw [Jack.Subroutine.jumps_code, hj]
    rwa [Jack.Subroutine.labels_code] at hl
  case marks =>
    rw [Jack.Subroutine.labels_code]
    exact (Grammar.Statement.labels_codeAll hb []).1

/-- In the code of each subroutine jumps are closed: no two labels read alike, each jump goes to one
that is defined there, and each is jumped to. The labels are those of the statements of the source,
in their order, nested as the statements are and numbered by their keywords. -/
theorem blocks_are_linked {recorded : Bool} {items : Array Item} {p : Compiled}
    (h : compileItems recorded items = .ok p) :
    ∃ c : Grammar.Class, c.tokens = (lexemesOf items.toList).map (·.token) ∧
      List.Forall₂ Linked c.subroutines (VM.blocks p.commands) := by
  obtain ⟨c, hc, scopes, -, hb⟩ := blocks_of_compileItems h
  refine ⟨c, hc, hb.imp ?_⟩
  rintro s block ⟨r, hr, rfl⟩
  exact Grammar.Subroutine.linked hr _

theorem gauge_is_linked :
    ∃ p, compileItems false (Grammar.gauge.lexemes.map .ok).toArray = .ok p ∧
      ∃ c : Grammar.Class, c.tokens = (lexemesOf (Grammar.gauge.lexemes.map .ok)).map (·.token) ∧
        List.Forall₂ Linked c.subroutines (VM.blocks p.commands) := by
  obtain ⟨r, -, p, hp, -⟩ := Grammar.gauge_static.compiles
  exact ⟨p, hp, blocks_are_linked hp⟩

end Jack
