import Jack.Proofs.Reading.Expression

namespace Jack.Parse

open Reading

section Equations

variable (names : Names)

theorem reading_endBlock :
    reading endBlock = take (statementStarts ++ [.symbol .rightBrace])
      fun t => if t = .symbol .rightBrace then some () else none :=
  funext fun w => outcome_accept _ _ w _

theorem reading_assigned : reading (assigned names) = enclosed names .equals .semicolon := by
  rw [enclosed, ← reading_symbol, ← reading_symbol]
  funext w
  exact outcome_bind rfl fun p => outcome_bind rfl fun q => outcome_bind rfl fun s => rfl

theorem reading_letStatement :
    reading (letStatement names) = inRule .letStatement (do
      exactly (.keyword .let)
      let x ← name
      let target ← resolving names x
      choose [.symbol .leftBracket] (do
        let index ← reading (subscript names)
        let value ← reading (assigned names)
        return .store target index value) (do
        let value ← reading (assigned names)
        return .assign target value)) := by
  simp only [← reading_keyword, ← reading_identifier, ← reading_resolve]
  funext w
  refine outcome_within fun v hv => outcome_bind rfl fun p => outcome_bind rfl fun q =>
    outcome_bind rfl fun s => ?_
  exact outcome_ite (outcome_bind rfl fun i => outcome_bind rfl fun e => rfl) (outcome_bind rfl fun e => rfl)

theorem reading_doStatement :
    reading (doStatement names) = inRule .doStatement (do
      exactly (.keyword .do)
      let x ← name
      let p ← reading (call names x)
      exactly (.symbol .semicolon)
      return .do p.1 p.2) := by
  rw [← reading_keyword, ← reading_identifier, ← reading_symbol]
  funext w
  exact outcome_within fun v hv => outcome_bind rfl fun p => outcome_bind rfl fun q =>
    outcome_bind rfl fun s => outcome_bind rfl fun t => rfl

theorem reading_returnStatement :
    reading (returnStatement names) = inRule .returnStatement (do
      exactly (.keyword .return)
      choose [.symbol .semicolon] (do
        exactly (.symbol .semicolon)
        return .return none) (do
        let value ← reading (expression names)
        exactly (.symbol .semicolon)
        return .return (some value))) := by
  rw [← reading_keyword, ← reading_symbol]
  funext w
  refine outcome_within fun v hv => outcome_bind rfl fun p => ?_
  exact outcome_ite (outcome_bind rfl fun q => rfl) (outcome_bind rfl fun e => outcome_bind rfl fun q => rfl)

theorem reading_condition : reading (condition names) = enclosed names .leftParen .rightParen := by
  rw [enclosed, ← reading_symbol, ← reading_symbol]
  funext w
  exact outcome_bind rfl fun p => outcome_bind rfl fun q => outcome_bind rfl fun s => rfl

theorem reading_statement :
    reading (statement names) =
      choose [.keyword .let] (reading (letStatement names)) (
      choose [.keyword .if] (reading (ifStatement names)) (
      choose [.keyword .while] (reading (whileStatement names)) (
      choose [.keyword .do] (reading (doStatement names)) (
      choose [.keyword .return] (reading (returnStatement names)) (
      refuse (statementStarts ++ [.symbol .rightBrace])))))) := by
  have hk (w : Window) (kw : Keyword) :
      w.nextIsAmong [.keyword kw] = true ↔ w.next.token = .keyword kw := by
    rw [← Window.nextIs_keyword]
    simp [Window.nextIsAmong, Window.nextIs]
  funext w
  rw [reading, statement]
  simp only [choose, hk]
  split <;> simp_all <;> rfl

theorem reading_ifStatement :
    reading (ifStatement names) = inRule .ifStatement (do
      exactly (.keyword .if)
      let e ← reading (condition names)
      let yes ← reading (block names)
      choose [.keyword .else] (do
        exactly (.keyword .else)
        let no ← reading (block names)
        return .ifElse e yes no) (return .ifThen e yes)) := by
  rw [← reading_keyword, ← reading_keyword]
  funext w
  rw [reading, ifStatement]
  refine outcome_within fun v hv => outcome_bind rfl fun p => outcome_bind rfl fun q =>
    outcome_bind rfl fun s => ?_
  exact outcome_ite (outcome_bind rfl fun i => outcome_bind rfl fun e => rfl) rfl

theorem reading_whileStatement :
    reading (whileStatement names) = inRule .whileStatement (do
      exactly (.keyword .while)
      let e ← reading (condition names)
      let body ← reading (block names)
      return .while e body) := by
  rw [← reading_keyword]
  funext w
  rw [reading, whileStatement]
  exact outcome_within fun v hv => outcome_bind rfl fun p => outcome_bind rfl fun q =>
    outcome_bind rfl fun s => rfl

theorem reading_block :
    reading (block names) = (do
      exactly (.symbol .leftBrace)
      let body ← reading (statements names)
      reading endBlock
      return body) := by
  rw [← reading_symbol]
  funext w
  rw [reading, block]
  exact outcome_bind rfl fun p => outcome_bind rfl fun q => outcome_bind rfl fun s => rfl

theorem reading_statements :
    reading (statements names) = inRule .statements (repeated statementStarts (statement names)) := by
  funext w
  rw [reading, statements]
  exact outcome_within fun v hv => outcome_many _

end Equations

section Steady

variable {β : Type} {names : Names} {r : Nat} {c : Place}

theorem reads_assigned : Reads r .anywhere (reading (assigned names)) :=
  reading_assigned names ▸ reads_enclosed (terms names r) (.of_not_due id)

theorem reads_condition : Reads r .anywhere (reading (condition names)) :=
  reading_condition names ▸ reads_enclosed (terms names r) (.of_not_due id)

theorem reads_letStatement (hc : c.Expects [.keyword .let]) :
    Reads r c (reading (letStatement names)) := by
  intro β f hf
  rw [reading_letStatement, inRule_bind]
  simp only [choose_bind, bind_assoc, pure_bind]
  have last (s : Statement) : Steady r .anywhere (do Reading.mark (.leave .letStatement); f s) :=
    .mark rfl (hf s)
  refine .mark rfl (.keyword hc ?_)
  refine (Steady.name (.of_not_due id) fun x => ?_).weaken
  refine .resolving False.elim (fun _ => Token.name?_eq_some_iff.mp) fun v => .choose ?_ ?_
  · refine Reads.steady (fun k _ => reads_subscript (terms names k) (.among _ _)) fun i => ?_
    exact Reads.steady (fun k _ => reads_assigned) fun e => last _
  · exact (Reads.steady (fun k _ => reads_assigned) fun e => last _).undue id

theorem reads_doStatement (hc : c.Expects [.keyword .do]) :
    Reads r c (reading (doStatement names)) := by
  intro β f hf
  rw [reading_doStatement, inRule_bind]
  simp only [bind_assoc, pure_bind]
  refine .mark rfl (.keyword hc ?_)
  refine (Steady.name (.of_not_due id) fun x => ?_).weaken
  refine Reads.steady (fun k _ => reads_call (terms names k) (.of_not_due id)) fun p => ?_
  exact (Steady.symbol (.of_not_due id) (.mark rfl (hf _))).weaken

theorem reads_returnStatement (hc : c.Expects [.keyword .return]) :
    Reads r c (reading (returnStatement names)) := by
  intro β f hf
  rw [reading_returnStatement, inRule_bind]
  simp only [choose_bind, bind_assoc, pure_bind]
  have close (s : Statement) {c : Place} (hc : c.Expects [.symbol .semicolon]) :
      Steady r c (do exactly (.symbol .semicolon); Reading.mark (.leave .returnStatement); f s) :=
    (Steady.symbol hc (.mark rfl (hf s))).weaken
  refine .mark rfl (.keyword hc (.choose (close _ (.among _ _)) ?_))
  refine (Reads.steady (terms names r).expressions fun e => ?_).undue id
  exact close _ (.of_not_due id)

def Statements (names : Names) (r : Nat) : Prop :=
  ∀ k < r, Reads k (.among .anywhere statementStarts) (reading (statement names))

theorem Statements.mono {k : Nat} (h : Statements names r) (hk : k ≤ r) : Statements names k :=
  fun j hj => h j (Nat.lt_of_lt_of_le hj hk)

theorem Steady.body {f : List Statement → Reading β} (h : Statements names r)
    (hf : ∀ body, Steady r .anywhere (f body)) :
    Steady r .anywhere (do
      let body ← reading (statements names)
      reading endBlock
      f body) := by
  rw [reading_statements, inRule_bind, reading_endBlock]
  exact .mark rfl (.repeated h fun body => .mark rfl (Steady.close (hf body)).weaken)

theorem reads_block (h : Statements names r) : Reads r .anywhere (reading (block names)) := by
  intro β f hf
  rw [reading_block]
  simp only [bind_assoc, pure_bind]
  exact .symbol (.of_not_due id) (.body h hf)

theorem Statements.blocks (h : Statements names r) : ∀ k < r, Reads k .anywhere (reading (block names)) :=
  fun _ hk => reads_block (h.mono (Nat.le_of_lt hk))

theorem reads_ifStatement (h : Statements names r) (hc : c.Expects [.keyword .if]) :
    Reads r c (reading (ifStatement names)) := by
  intro β f hf
  rw [reading_ifStatement, inRule_bind]
  simp only [choose_bind, bind_assoc, pure_bind]
  have last (s : Statement) : Steady r .anywhere (do Reading.mark (.leave .ifStatement); f s) :=
    .mark rfl (hf s)
  refine .mark rfl (.keyword hc ?_)
  refine Reads.steady (fun k _ => reads_condition) fun e => Reads.steady h.blocks fun yes => ?_
  refine .choose ?_ ((last _).undue id)
  refine (Steady.keyword (.among _ _) ?_).weaken
  exact Reads.steady h.blocks fun no => last _

theorem reads_whileStatement (h : Statements names r) (hc : c.Expects [.keyword .while]) :
    Reads r c (reading (whileStatement names)) := by
  intro β f hf
  rw [reading_whileStatement, inRule_bind]
  simp only [bind_assoc, pure_bind]
  refine .mark rfl (.keyword hc ?_)
  refine Reads.steady (fun k _ => reads_condition) fun e => Reads.steady h.blocks fun body => ?_
  exact .mark rfl (hf _)

theorem reads_statement_of (h : Statements names r) :
    Reads r (.among .anywhere statementStarts) (reading (statement names)) := by
  intro β f hf
  rw [reading_statement]
  simp only [choose_bind, refuse_bind]
  refine .choose (reads_letStatement (.among _ _) f hf) ?_
  refine .choose (reads_ifStatement h (.among _ _) f hf) ?_
  refine .choose (reads_whileStatement h (.among _ _) f hf) ?_
  refine .choose (reads_doStatement (.among _ _) f hf) ?_
  refine .choose (reads_returnStatement (.among _ _) f hf) ?_
  -- no statement starts with another token
  have clear {k : TokenKind} :
      ¬ ((((((Place.among .anywhere statementStarts).notAmong [.keyword .let]).notAmong
        [.keyword .if]).notAmong [.keyword .while]).notAmong [.keyword .do]).notAmong
        [.keyword .return]).next k := by
    rintro ⟨⟨⟨⟨⟨⟨-, hk⟩, hlet⟩, hif⟩, hwhile⟩, hdo⟩, hreturn⟩
    simp_all [statementStarts]
  exact .refuse (fun _ _ => clear) fun _ _ => clear

theorem statements_steady (names : Names) (r : Nat) : Statements names r := by
  induction r with
  | zero => exact fun k hk => absurd hk (Nat.not_lt_zero k)
  | succ r ih => exact Nat.forall_lt_succ_right.mpr ⟨ih, reads_statement_of ih⟩

end Steady

end Jack.Parse
