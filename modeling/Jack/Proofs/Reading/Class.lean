import Jack.Compiled
import Jack.Proofs.Reading.Statement

namespace Jack

namespace Parse

open Reading

section Equations

def declaring (kind : VariableKind) (type x : String) (scopes : Scopes) : Reading Scopes :=
  match scopes.refusal? x kind with
  | some fault => fail fault
  | none => pure (scopes.insert x type kind)

theorem reading_declare (kind : VariableKind) (type x : String) (scopes : Scopes) :
    reading (declare kind type x scopes) = declaring kind type x scopes := by
  funext w
  unfold reading declare declaring Scopes.declare
  cases scopes.refusal? x kind <;> rfl

/-- What a method starts from, or another subroutine. -/
def received (kind : SubroutineKind) (className : String) (scopes : Scopes) : Scopes :=
  match kind with
  | .method => scopes.insert "this" className .argument
  | .constructor | .function => scopes

theorem reading_receiver (kind : SubroutineKind) (className : String) (scopes : Scopes) :
    reading (receiver kind className scopes.leaveSubroutine) =
      pure (received kind className scopes.leaveSubroutine) := by
  have hn : scopes.leaveSubroutine.refusal? "this" .argument = none := by
    simp [Scopes.refusal?, Scopes.declares, VariableKind.extent, Scopes.leaveSubroutine, Scopes.count,
      maxSlots]
  cases kind with
  | method =>
    have hd := reading_declare .argument className "this" scopes.leaveSubroutine
    rwa [declaring, hn] at hd
  | constructor | function => rfl

theorem reading_newName (kind : VariableKind) (type : DataType) (scopes : Scopes) :
    reading (newName kind type scopes) = (do
      let x ← name
      let scopes ← declaring kind type.name x scopes
      return (x, scopes)) := by
  simp only [← reading_identifier, ← reading_declare]
  funext w
  exact outcome_bind rfl fun p => outcome_bind rfl fun q => rfl

theorem reading_nextName (kind : VariableKind) (type : DataType) (scopes : Scopes) :
    reading (nextName kind type scopes) = (do
      exactly (.symbol .comma)
      reading (newName kind type scopes)) := by
  rw [← reading_symbol]
  funext w
  exact outcome_bind rfl fun p => outcome_relay fun q => rfl

theorem reading_declaration (kind : VariableKind) (scopes : Scopes) :
    reading (declaration kind scopes) = (do
      let type ← take typeKinds type?
      let p ← reading (newName kind type scopes)
      let q ← loop [.symbol .comma] (nextName kind type) [] p.2
      exactly (.symbol .semicolon)
      return (⟨kind, type, p.1, q.1⟩, q.2)) := by
  rw [← reading_symbol]
  funext w
  exact outcome_bind (outcome_accept _ _ _ _) fun p => outcome_bind rfl fun q =>
    outcome_bind (outcome_manyFrom _) fun s => outcome_bind rfl fun t => rfl

theorem reading_classVarDec (scopes : Scopes) :
    reading (classVarDec scopes) = inRule .classVarDec (do
      let kind ← take [.keyword .static, .keyword .field] classVariable?
      reading (declaration kind scopes)) := by
  funext w
  exact outcome_within fun v hv => outcome_bind (outcome_accept _ _ _ _) fun p => outcome_relay fun q => rfl

theorem reading_varDec (scopes : Scopes) :
    reading (varDec scopes) = inRule .varDec (do
      exactly (.keyword .var)
      reading (declaration .local scopes)) := by
  rw [← reading_keyword]
  funext w
  exact outcome_within fun v hv => outcome_bind rfl fun p => outcome_relay fun q => rfl

theorem reading_parameter (scopes : Scopes) :
    reading (parameter scopes) = (do
      let type ← take typeKinds type?
      let p ← reading (newName .argument type scopes)
      return (⟨type, p.1⟩, p.2)) := by
  funext w
  exact outcome_bind (outcome_accept _ _ _ _) fun p => outcome_bind rfl fun q => rfl

theorem reading_nextParameter (scopes : Scopes) :
    reading (nextParameter scopes) = (do
      exactly (.symbol .comma)
      reading (parameter scopes)) := by
  rw [← reading_symbol]
  funext w
  exact outcome_bind rfl fun p => outcome_relay fun q => rfl

theorem reading_parameterList (scopes : Scopes) :
    reading (parameterList scopes) = inRule .parameterList (
      choose [.symbol .rightParen] (return ([], scopes)) (do
        let p ← reading (parameter scopes)
        let q ← loop [.symbol .comma] nextParameter [] p.2
        return (p.1 :: q.1, q.2))) := by
  funext w
  refine outcome_within fun v hv => outcome_ite rfl ?_
  exact outcome_bind rfl fun p => outcome_bind (outcome_manyFrom _) fun q => rfl

theorem reading_subroutineBody (className : String) (scopes : Scopes) :
    reading (subroutineBody className scopes) = inRule .subroutineBody (do
      exactly (.symbol .leftBrace)
      let p ← loop [.keyword .var] varDec [] scopes
      let body ← reading (statements ⟨className, p.2⟩)
      reading endBlock
      return (p.1, body)) := by
  rw [← reading_symbol]
  funext w
  exact outcome_within fun v hv => outcome_bind rfl fun p => outcome_bind (outcome_manyFrom _) fun q =>
    outcome_bind rfl fun s => outcome_bind rfl fun t => rfl

theorem reading_subroutine (className : String) (scopes : Scopes) :
    reading (subroutine className scopes) = inRule .subroutineDec (do
      let kind ← take subroutineStarts subroutineKind?
      let type ← take (typeKinds ++ [.keyword .void]) returnType?
      let x ← name
      let scopes ← reading (receiver kind className scopes.leaveSubroutine)
      exactly (.symbol .leftParen)
      let p ← reading (parameterList scopes)
      exactly (.symbol .rightParen)
      let q ← reading (subroutineBody className p.2)
      return ⟨kind, type, x, p.1, q.1, q.2⟩) := by
  rw [← reading_symbol, ← reading_symbol, ← reading_identifier]
  funext w
  exact outcome_within fun v hv => outcome_bind (outcome_accept _ _ _ _) fun p =>
    outcome_bind (outcome_accept _ _ _ _) fun q => outcome_bind rfl fun s => outcome_bind rfl fun t =>
    outcome_bind rfl fun a => outcome_bind rfl fun b => outcome_bind rfl fun c =>
    outcome_bind rfl fun d => rfl

theorem reading_endClass :
    reading endClass = take (subroutineStarts ++ [.symbol .rightBrace])
      fun t => if t = .symbol .rightBrace then some () else none :=
  funext fun w => outcome_accept _ _ w _

theorem reading_classDec :
    reading classDec = inRule .class (do
      exactly (.keyword .class)
      let x ← name
      exactly (.symbol .leftBrace)
      let p ← loop [.keyword .static, .keyword .field] classVarDec [] .empty
      let subroutines ← repeated subroutineStarts (subroutine x p.2)
      reading endClass
      return ⟨x, p.1, subroutines⟩) := by
  rw [← reading_keyword, ← reading_identifier, ← reading_symbol]
  funext w
  exact outcome_within fun v hv => outcome_bind rfl fun p => outcome_bind rfl fun q =>
    outcome_bind rfl fun s => outcome_bind (outcome_manyFrom _) fun t =>
    outcome_bind (outcome_many _) fun u => outcome_bind rfl fun e => rfl

end Equations

theorem type?_isSome {t : Token} (h : t.kind ∈ typeKinds) : (type? t).isSome := by
  cases t with
  | identifier => rfl
  | keyword k => cases k <;> simp [typeKinds, Token.kind, type?] at h ⊢
  | integer | string | symbol | eof => simp [typeKinds, Token.kind] at h

theorem returnType?_isSome {t : Token} (h : t.kind ∈ typeKinds ++ [.keyword .void]) :
    (returnType? t).isSome := by
  by_cases hv : t = .keyword .void
  · rw [hv]
    rfl
  · have ht : t.kind ∈ typeKinds := by
      refine (List.mem_append.mp h).resolve_right fun hk => hv ?_
      exact Token.kind_eq_keyword_iff.mp (List.mem_singleton.mp hk)
    rw [returnType?, Option.isSome_map]
    · exact type?_isSome ht
    · exact hv

theorem classVariable?_isSome {t : Token} (h : t.kind ∈ [.keyword .static, .keyword .field]) :
    (classVariable? t).isSome := by
  cases t with
  | keyword k => cases k <;> simp [Token.kind, classVariable?] at h ⊢
  | _ => simp [Token.kind] at h

theorem subroutineKind?_isSome {t : Token} (h : t.kind ∈ subroutineStarts) :
    (subroutineKind? t).isSome := by
  cases t with
  | keyword k => cases k <;> simp [subroutineStarts, Token.kind, subroutineKind?] at h ⊢
  | _ => simp [subroutineStarts, Token.kind] at h

section Steady

variable {β : Type} {r : Nat} {c : Place}

theorem Steady.declaring {kind : VariableKind} {type x : String} {scopes : Scopes}
    {f : Scopes → Reading β} (hc : c.Clear) (hl : ∀ t, c.last t → t = .identifier x)
    (hf : ∀ s, Steady r c (f s)) : Steady r c (Parse.declaring kind type x scopes >>= f) := by
  have hb {fault : Fault} (h : scopes.refusal? x kind = some fault) : fault.Blames (.identifier x) := by
    unfold Scopes.refusal? at h
    split at h
    next =>
      cases h
      rfl
    next =>
      split at h
      next =>
        cases h
        rfl
      next => cases h
  unfold Parse.declaring
  split
  next fault h => exact .fail hc fun t ht => hl t ht ▸ hb h
  next => exact hf _

theorem reads_newName {kind : VariableKind} {type : DataType} {scopes : Scopes} :
    Reads r .anywhere (reading (newName kind type scopes)) := by
  intro β f hf
  rw [reading_newName]
  simp only [bind_assoc, pure_bind]
  refine .name (.of_not_due id) fun x => ?_
  exact .declaring False.elim (fun _ => Token.name?_eq_some_iff.mp) fun s => (hf _).undue id

theorem reads_nextName {kind : VariableKind} {type : DataType} {scopes : Scopes} :
    Reads r (.among .anywhere [.symbol .comma]) (reading (nextName kind type scopes)) := by
  intro β f hf
  rw [reading_nextName, bind_assoc]
  exact .symbol (.among _ _) (Reads.steady (fun k _ => reads_newName) hf)

theorem reads_declaration {kind : VariableKind} {scopes : Scopes} :
    Reads r .anywhere (reading (declaration kind scopes)) := by
  intro β f hf
  rw [reading_declaration]
  simp only [bind_assoc, pure_bind]
  refine .take (fun t _ ht => type?_isSome (ht.elim False.elim id)) rfl fun type => ?_
  refine (Reads.steady (fun k _ => reads_newName) fun p => ?_).undue id
  refine .loop (fun k _ s => reads_nextName) (fun q => ?_) _ _
  exact (Steady.symbol (.of_not_due id) (hf _)).weaken

theorem reads_classVarDec {scopes : Scopes} :
    Reads r (.among .anywhere [.keyword .static, .keyword .field]) (reading (classVarDec scopes)) := by
  intro β f hf
  rw [reading_classVarDec, inRule_bind]
  simp only [bind_assoc]
  refine .mark rfl (.take (fun t ht _ => classVariable?_isSome ht.2) rfl fun kind => ?_)
  exact (Reads.steady (fun k _ => reads_declaration) fun p => .mark rfl (hf p)).undue id

theorem reads_varDec {scopes : Scopes} :
    Reads r (.among .anywhere [.keyword .var]) (reading (varDec scopes)) := by
  intro β f hf
  rw [reading_varDec, inRule_bind]
  simp only [bind_assoc]
  refine .mark rfl (.keyword (.among _ _) ?_)
  exact Reads.steady (fun k _ => reads_declaration) fun p => .mark rfl (hf p)

theorem reads_parameter {scopes : Scopes} : Reads r .anywhere (reading (parameter scopes)) := by
  intro β f hf
  rw [reading_parameter]
  simp only [bind_assoc, pure_bind]
  refine .take (fun t _ ht => type?_isSome (ht.elim False.elim id)) rfl fun type => ?_
  exact (Reads.steady (fun k _ => reads_newName) fun p => hf _).undue id

theorem reads_nextParameter {scopes : Scopes} :
    Reads r (.among .anywhere [.symbol .comma]) (reading (nextParameter scopes)) := by
  intro β f hf
  rw [reading_nextParameter, bind_assoc]
  exact .symbol (.among _ _) (Reads.steady (fun k _ => reads_parameter) hf)

/-- A list of parameters is read together with the parenthesis behind it. -/
theorem Steady.parameters {scopes : Scopes} {f : List Parameter × Scopes → Reading β}
    (hf : ∀ p, Steady r .anywhere (f p)) :
    Steady r .anywhere (do
      let p ← reading (parameterList scopes)
      exactly (.symbol .rightParen)
      f p) := by
  have close {c : Place} (hc : c.Expects [.symbol .rightParen]) (p : List Parameter × Scopes) :
      Steady r c (do Reading.mark (.leave .parameterList); exactly (.symbol .rightParen); f p) :=
    .mark rfl (Steady.symbol hc (hf p)).weaken
  rw [reading_parameterList, inRule_bind]
  simp only [choose_bind, bind_assoc, pure_bind]
  refine .mark rfl (.choose (close (.among _ _) _) ?_)
  refine (Reads.steady (fun k _ => reads_parameter) fun p => ?_).undue id
  refine .loop (fun k _ s => reads_nextParameter) (fun q => ?_) _ _
  exact close (.of_not_due id) _

theorem reads_subroutineBody {className : String} {scopes : Scopes} :
    Reads r .anywhere (reading (subroutineBody className scopes)) := by
  intro β f hf
  rw [reading_subroutineBody, inRule_bind]
  simp only [bind_assoc, pure_bind]
  refine .mark rfl (.symbol (.of_not_due id) ?_)
  refine .loop (fun k _ s => reads_varDec) (fun p => ?_) _ _
  exact (Steady.body (statements_steady _ r) fun body => .mark rfl (hf _)).undue id

theorem reads_subroutine {className : String} {scopes : Scopes} :
    Reads r (.among .anywhere subroutineStarts) (reading (subroutine className scopes)) := by
  intro β f hf
  rw [reading_subroutine, inRule_bind]
  simp only [bind_assoc, pure_bind, reading_receiver]
  refine .mark rfl (.take (fun t ht _ => subroutineKind?_isSome ht.2) rfl fun kind => ?_)
  refine (Steady.take (fun t _ ht => returnType?_isSome (ht.elim False.elim id)) rfl fun type => ?_).weaken
  refine (Steady.name (.of_not_due id) fun x => ?_).weaken
  refine (Steady.symbol (.of_not_due id) (.parameters fun p => ?_)).weaken
  exact Reads.steady (fun k _ => reads_subroutineBody) fun q => .mark rfl (hf _)

theorem reads_classDec : Reads r .anywhere (reading classDec) := by
  intro β f hf
  rw [reading_classDec, inRule_bind, reading_endClass]
  simp only [bind_assoc, pure_bind]
  refine .mark rfl (.keyword (.of_not_due id) ?_)
  refine (Steady.name (.of_not_due id) fun x => ?_).weaken
  refine (Steady.symbol (.of_not_due id) ?_).weaken
  refine .loop (fun k _ s => reads_classVarDec) (fun p => ?_) _ _
  refine (Steady.repeated (fun k _ => reads_subroutine) fun subroutines => ?_).undue id
  exact (Steady.close (.mark rfl (hf _))).weaken

end Steady

end Parse

open Parse Parse.Reading

theorem parse_eq : parse = (do
    let c ← reading classDec
    let _ ← take [.eof] fun t => if [TokenKind.eof].contains t.kind then some t else none
    return c : Reading Class) := by
  funext w
  rw [parse]
  change _ = (outcome (classDec w) >>= fun q => _)
  cases classDec w with
  | error s => rfl
  | ok p =>
    simp only [outcome, Except.map, bind, Except.bind, StateT.bind, take, Window.consume]
    split
    next t v hv =>
      rw [hv]
      rfl
    next e v hv =>
      rw [hv]
      rfl

/-- All of a stream is read by a program that is steady, however many tokens are left. -/
theorem parse_steady (r : Nat) : Steady r .anywhere parse := by
  rw [parse_eq]
  refine (reads_classDec (r := r) _ fun c => .takeEnd (fun t _ ht => ?_) c).weaken
  have hk : t.kind = .eof := List.mem_singleton.mp (ht.elim False.elim id)
  simp [hk]

end Jack
