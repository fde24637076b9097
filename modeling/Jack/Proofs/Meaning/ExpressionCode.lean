import Jack.Proofs.Code.Leaves
import Jack.Proofs.VM.Height
import Jack.Proofs.VM.Straight

namespace Jack

open VM

variable {World : Type} (calls : Calls World)

theorem Variable.load_segment (v : Variable) (s : State World) :
    s.load v.segment v.slot = some (v.get s.memory) := by
  cases hk : v.kind <;> simp [Variable.segment, VariableKind.segment, State.load, Variable.get, hk]

@[simp] theorem Variable.run_push (v : Variable) (s : State World) :
    v.push.run calls s = some { s with stack := v.get s.memory :: s.stack } := by
  rw [Variable.push, Command.run, v.load_segment, Option.map_some]

@[simp] theorem Variable.run_pop (v : Variable) (w : Word) (stack : List Word) (m : Memory World)
    (scratch : Scratch) :
    v.pop.run calls ⟨w :: stack, m, scratch⟩ = some ⟨stack, v.set m w, scratch⟩ := by
  cases hk : v.kind <;>
    simp [Variable.pop, Command.run, Variable.segment, VariableKind.segment, State.store,
      Variable.set, hk]

theorem Variable.computes_push (v : Variable) : Computes calls [] [v.push] ([·]) v.read :=
  Computes.push v.load_segment

theorem UnaryOp.computes (op : UnaryOp) (x : Word) :
    Computes calls [x] [op.code] ([·]) (pure (op.apply x)) := by
  cases op with
  | neg | not => exact Computes.arithmetic fun _ => rfl

theorem BinaryOp.computes (op : BinaryOp) (x y : Word) :
    Computes calls [y, x] [op.code] ([·]) (op.apply calls x y) := by
  cases op with
  | mul => exact Computes.call "Math.multiply" [x, y]
  | div => exact Computes.call "Math.divide" [x, y]
  | add | sub | and | or | lt | gt | eq => exact Computes.arithmetic fun _ => rfl

theorem NamedConstant.computes (c : NamedConstant) :
    Computes calls [] c.code ([·]) fun m => some (c.value m, m) := by
  cases c with
  | true =>
    intro stack m scratch
    exact ⟨scratch, rfl⟩
  | false | null => exact Computes.push fun _ => rfl
  | this => exact Computes.push fun _ => rfl

theorem computes_constant (n : Nat) :
    Computes calls [] [.push .constant n] ([·]) (pure (BitVec.ofNat 16 n)) :=
  Computes.push fun _ => rfl

theorem computes_appendChars (cs : List Char) (s : Word) :
    Computes calls [s] (cs.flatMap fun c => [.push .constant c.toNat, .call "String.appendChar" 2])
      ([·]) (cs.foldlM (fun s c =>
        callValue calls "String.appendChar" [s, BitVec.ofNat 16 c.toNat]) s) := by
  induction cs generalizing s with
  | nil => exact Computes.nil rfl
  | cons c cs ih =>
    have hc := (computes_constant calls c.toNat).above [s]
    have ha : Computes calls [s] [.push .constant c.toNat, .call "String.appendChar" 2] ([·])
        (callValue calls "String.appendChar" [s, BitVec.ofNat 16 c.toNat]) :=
      hc.after (Computes.call "String.appendChar" [s, BitVec.ofNat 16 c.toNat])
    rw [List.foldlM_cons]
    exact ha.append fun s _ _ _ => ih s

theorem stringCode_computes (text : String) :
    Computes calls [] (stringCode text) ([·]) (stringValue calls text) := by
  have hn : Computes calls [] [.push .constant text.length, .call "String.new" 1] ([·])
      (callValue calls "String.new" [BitVec.ofNat 16 text.length]) :=
    (computes_constant calls text.length).after (Computes.call "String.new" [BitVec.ofNat 16 text.length])
  exact hn.append fun s _ _ _ => computes_appendChars calls text.toList s

theorem Variable.computes_element (array : Variable) (i : Word) :
    Computes calls [i] ([array.push, .arithmetic .add] ++ loadElement) ([·]) (array.element i) := by
  intro stack m scratch
  refine ⟨{ scratch with that := i + array.get m }, ?_⟩
  simp [loadElement, Arithmetic.apply]

theorem Callee.target_eq (callee : Callee) : callee.target = callee.subroutine := by
  cases callee <;> rfl

theorem Callee.computes_object (callee : Callee) :
    Computes calls [] callee.receiver List.reverse callee.object := by
  cases callee with
  | own owner name =>
    intro stack m scratch
    exact ⟨scratch, rfl⟩
  | method receiver name =>
    intro stack m scratch
    exact ⟨scratch, by simp [Callee.receiver]⟩
  | function owner name => exact Computes.nil rfl

mutual

theorem Term.computes (t : Term) (h : Fit t.arities) :
    Computes calls [] t.code ([·]) (t.eval calls) := by
  cases t with
  | integer value =>
    rw [Term.code]
    exact computes_constant calls value
  | string text =>
    rw [Term.code]
    exact stringCode_computes calls text
  | constant value =>
    rw [Term.code]
    exact value.computes calls
  | «variable» v =>
    rw [Term.code]
    exact v.computes_push calls
  | element array index =>
    rw [Term.code, List.append_assoc]
    exact (index.computes h).append fun i _ _ _ => array.computes_element calls i
  | call callee arguments =>
    obtain ⟨hlt, harguments⟩ := fit_cons.mp h
    rw [Term.code, List.append_assoc, Term.eval]
    refine (callee.computes_object calls).append fun object _ _ ho => ?_
    refine ((Expression.computes_all arguments harguments).above object.reverse).append
      fun vs _ _ hv => ?_
    have hl : callee.arity arguments.length = (object ++ vs).length := by
      rw [Callee.length_of_object ho, Expression.length_of_evalAll hv]
    rw [Callee.call_of_lt hlt, hl, callee.target_eq, ← List.reverse_append]
    exact Computes.call callee.subroutine (object ++ vs)
  | group inner =>
    rw [Term.code]
    exact inner.computes h
  | unary op operand =>
    rw [Term.code]
    exact (operand.computes h).append fun v _ _ _ => op.computes calls v

theorem Expression.computes (e : Expression) (h : Fit e.arities) :
    Computes calls [] e.code ([·]) (e.eval calls) := by
  cases e with
  | chain first rest =>
    obtain ⟨hfirst, hrest⟩ := fit_append.mp h
    rw [Expression.code]
    exact (first.computes hfirst).append fun v _ _ _ => Expression.computes_rest v rest hrest

theorem Expression.computes_rest (v : Word) (rest : List (BinaryOp × Term))
    (h : Fit (Expression.aritiesRest rest)) :
    Computes calls [v] (rest.flatMap fun p => p.2.code ++ [p.1.code]) ([·])
      (Expression.evalRest calls v rest) := by
  match rest with
  | [] => exact Computes.nil rfl
  | (op, operand) :: rest =>
    obtain ⟨hoperand, hrest⟩ := fit_append.mp h
    rw [List.flatMap_cons, List.append_assoc]
    refine ((operand.computes hoperand).above [v]).append fun w _ _ _ => ?_
    exact (op.computes calls v w).append fun v _ _ _ => Expression.computes_rest v rest hrest

theorem Expression.computes_all (es : List Expression) (h : Fit (Expression.aritiesAll es)) :
    Computes calls [] (es.flatMap (·.code)) List.reverse (Expression.evalAll calls es) := by
  match es with
  | [] => exact Computes.nil rfl
  | e :: es =>
    obtain ⟨he, hes⟩ := fit_append.mp h
    rw [List.flatMap_cons]
    refine (e.computes he).append fun v _ _ _ => ?_
    exact ((Expression.computes_all es hes).above [v]).map fun vs => List.reverse_cons

end

theorem BinaryOp.lifts (op : BinaryOp) : Lifts 2 [op.code] 1 := by
  cases op <;> exact Lifts.single rfl rfl

theorem UnaryOp.lifts (op : UnaryOp) : Lifts 1 [op.code] 1 := by
  cases op <;> exact Lifts.single rfl rfl

theorem lifts_push (segment : Segment) (i : Nat) : Lifts 0 [.push segment i] 1 :=
  Lifts.single rfl rfl

theorem lifts_address (array : Variable) : Lifts 1 [array.push, .arithmetic .add] 1 :=
  ((lifts_push _ _).above 1).append (Lifts.single (c := .arithmetic .add) rfl rfl)

theorem lifts_loadElement : Lifts 1 loadElement 1 :=
  (Lifts.single (c := .pop .pointer 1) rfl rfl).append (lifts_push _ _)

theorem NamedConstant.lifts (c : NamedConstant) : Lifts 0 c.code 1 := by
  cases c with
  | true => exact (lifts_push .constant 0).append (UnaryOp.lifts .not)
  | false | null | this => exact lifts_push _ _

theorem lifts_stringCode (text : String) : Lifts 0 (stringCode text) 1 := by
  have h (cs : List Char) :
      Lifts 1 (cs.flatMap fun c => [.push .constant c.toNat, .call "String.appendChar" 2]) 1 := by
    induction cs with
    | nil => exact Lifts.nil
    | cons c cs ih =>
      have hc := (lifts_push .constant c.toNat).above 1
      exact (hc.append (Lifts.single (c := .call "String.appendChar" 2) rfl rfl)).append ih
  have hn := (lifts_push .constant text.length).append
    (Lifts.single (c := .call "String.new" 1) rfl rfl)
  exact hn.append (h text.toList)

theorem Callee.lifts_receiver (callee : Callee) :
    Lifts 0 callee.receiver callee.receiver.length := by
  cases callee with
  | own | method => exact lifts_push _ _
  | function => exact Lifts.nil

theorem lifts_flatMap {es : List Expression} (h : ∀ e ∈ es, Lifts 0 e.code 1) :
    Lifts 0 (es.flatMap (·.code)) es.length := by
  induction es with
  | nil => exact Lifts.nil
  | cons e es ih =>
    have hes := (ih fun x hx => h x (List.mem_cons_of_mem _ hx)).above 1
    rw [Nat.zero_add] at hes
    exact (h e List.mem_cons_self).append hes

theorem lifts_operations {rest : List (BinaryOp × Term)} (h : ∀ p ∈ rest, Lifts 0 p.2.code 1) :
    Lifts 1 (rest.flatMap fun p => p.2.code ++ [p.1.code]) 1 := by
  induction rest with
  | nil => exact Lifts.nil
  | cons p rest ih =>
    have hp := (h p List.mem_cons_self).above 1
    rw [List.flatMap_cons]
    exact (hp.append p.1.lifts).append (ih fun q hq => h q (List.mem_cons_of_mem _ hq))

theorem lifts_code : (∀ t : Term, Fit t.arities → Lifts 0 t.code 1) ∧
    ∀ e : Expression, Fit e.arities → Lifts 0 e.code 1 := by
  refine tree_induction ?integer ?string ?constant ?var ?element ?call ?group ?unary ?chain
  case integer =>
    intro value _
    rw [Term.code]
    exact lifts_push _ _
  case string =>
    intro text _
    rw [Term.code]
    exact lifts_stringCode text
  case constant =>
    intro value _
    rw [Term.code]
    exact value.lifts
  case var =>
    intro v _
    rw [Term.code]
    exact lifts_push _ _
  case element =>
    intro array index ih h
    rw [Term.code, List.append_assoc]
    exact (ih h).append ((lifts_address array).append lifts_loadElement)
  case call =>
    intro callee arguments ih h
    obtain ⟨hlt, harguments⟩ := fit_cons.mp h
    have hall : ∀ e ∈ arguments, Lifts 0 e.code 1 :=
      fun e he => ih e he (Expression.fit_all.mp harguments e he)
    have ha := (lifts_flatMap hall).above callee.receiver.length
    rw [Nat.zero_add, ← callee.arity_eq] at ha
    rw [Term.code, Callee.call_of_lt hlt]
    exact (callee.lifts_receiver.append ha).append (Lifts.single rfl rfl)
  case group =>
    intro inner ih h
    rw [Term.code]
    exact ih h
  case unary =>
    intro op operand ih h
    rw [Term.code]
    exact (ih h).append op.lifts
  case chain =>
    intro first rest ihf ihr h
    obtain ⟨hfirst, hrest⟩ := fit_append.mp h
    have hall : ∀ p ∈ rest, Lifts 0 p.2.code 1 :=
      fun p hp => ihr p hp (Expression.fit_rest.mp hrest p hp)
    rw [Expression.code]
    exact (ihf hfirst).append (lifts_operations hall)

/-- A quiet command changes `temp` in no way that calls could not. -/
theorem temp_of_run {P : (Nat → Word) → Prop}
    (hP : ∀ name vs m s, P s.temp → P (calls.clobber name vs m s).temp)
    {c : Command} (hq : c.IsQuiet) {s t : State World} (h : c.run calls s = some t)
    (hs : P s.scratch.temp) : P t.scratch.temp := by
  cases c with
  | push segment i =>
    obtain ⟨v, -, rfl⟩ := Option.map_eq_some_iff.mp h
    exact hs
  | arithmetic op =>
    obtain ⟨stack, -, rfl⟩ := Option.map_eq_some_iff.mp h
    exact hs
  | call name n =>
    rw [Command.run_call] at h
    split at h
    next =>
      obtain ⟨p, -, rfl⟩ := Option.map_eq_some_iff.mp h
      exact hP name _ s.memory s.scratch hs
    next => cases h
  | pop segment i =>
    obtain ⟨stack, m, scratch⟩ := s
    cases stack with
    | nil => cases h
    | cons v stack =>
      unfold Command.IsQuiet at hq
      split at hq
      next he => cases he
      next he => cases he
      next he => cases he
      next he =>
        cases he
        cases h
        exact hs
      next => exact hq.elim
  | label | goto | ifGoto | function | «return» => exact hq.elim

theorem temp_of_exec {P : (Nat → Word) → Prop}
    (hP : ∀ name vs m s, P s.temp → P (calls.clobber name vs m s).temp)
    {code : List Command} (hq : ∀ c ∈ code, c.IsQuiet) {s t : State World}
    (h : exec calls code s = some t) (hs : P s.scratch.temp) : P t.scratch.temp := by
  induction code generalizing s with
  | nil =>
    cases h
    exact hs
  | cons c cs ih =>
    obtain ⟨u, hu, ht⟩ := Option.bind_eq_some_iff.mp h
    have hPu := temp_of_run calls hP (hq c List.mem_cons_self) hu hs
    exact ih (fun d hd => hq d (List.mem_cons_of_mem _ hd)) ht hPu

/-- If each of its calls has fewer arguments than 16 bits can count, the code of an expression is
straight-line code that stays above the stack it starts on. If the expression has a value, the code leaves just that on top, and the memory as the evaluation leaves
it. It gets stuck only where the evaluation does, in a call that does not return. Besides
`pointer 1`, only calls change the scratch registers: what they keep of `temp` is kept. -/
theorem Expression.code_computes_value (e : Expression) (he : Fit e.arities) :
    (∀ c ∈ e.code, c.IsQuiet) ∧ height 0 e.code = some 1 ∧
    ∀ s : State World,
      match e.eval calls s.memory with
      | none => exec calls e.code s = none
      | some (v, m) => ∃ scratch, exec calls e.code s = some ⟨v :: s.stack, m, scratch⟩ ∧
        ∀ P : (Nat → Word) → Prop,
          (∀ name vs m s, P s.temp → P (calls.clobber name vs m s).temp) →
          P s.scratch.temp → P scratch.temp := by
  refine ⟨e.quiet_code, lifts_code.2 e he 0, fun s => ?_⟩
  have h := e.computes calls he s.stack s.memory s.scratch
  cases hv : e.eval calls s.memory with
  | none =>
    rw [hv] at h
    exact h
  | some p =>
    rw [hv] at h
    obtain ⟨scratch, h⟩ := h
    exact ⟨scratch, h, fun P hP hs => temp_of_exec calls hP e.quiet_code h hs⟩

/-- Of all calls only those of `A.less` return, with one less than the last argument. -/
def lessCalls : Calls Unit where
  answer name vs m := if name = "A.less" then vs.getLast?.map fun v => (v - 1, m.toShared) else none
  clobber _ _ _ scratch := scratch

def oneGiven : State Unit where
  stack := []
  memory := ⟨⟨fun _ => 0, fun _ => 0, ()⟩, fun _ => 0, fun i => if i = 1 then 1 else 0, 0⟩
  scratch := ⟨0, fun _ => 0⟩

/-- `7 - A.less(3)` -/
def difference : Expression :=
  .chain (.integer 7) [(.sub, .call (.function "A" "less") [.chain (.integer 3) []])]

theorem difference_computes_five : Fit difference.arities ∧
    ∃ scratch, exec lessCalls difference.code oneGiven = some ⟨[5], oneGiven.memory, scratch⟩ := by
  have hfit : Fit difference.arities := by decide
  have heval : difference.eval lessCalls oneGiven.memory = some (5, oneGiven.memory) := rfl
  have h := (difference.code_computes_value lessCalls hfit).2.2 oneGiven
  rw [heval] at h
  obtain ⟨scratch, hexec, -⟩ := h
  exact ⟨hfit, scratch, hexec⟩

end Jack
