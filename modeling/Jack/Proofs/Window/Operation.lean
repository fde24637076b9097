import Jack.Parse.Rules
import Jack.Proofs.Window.Stream

namespace Jack.Window

inductive Operation where
  | slide
  | consume (kinds : List TokenKind)
  | consumeIdentifier
  | nextIs (kind : TokenKind)
  | nextIsAmong (kinds : List TokenKind)
  | nextOperator
  | unexpectedNext (expected : List TokenKind)
  | unexpectedLast (expected : List TokenKind)
  | startRecord
  | takeRecord
  | enter (rule : Rule)
  | leave (rule : Rule)

inductive Answer where
  | done
  | token (token : Token)
  | name (name : String)
  | truth (value : Bool)
  | operator (op : Option BinaryOp)
  | error (error : Error)
  | events (events : List Event)
  | failed (error : Error)

namespace Answer

def failure? : Answer → Option Error
  | .failed e => some e
  | _ => none

def ofResult {α : Type} (f : α → Answer) : EStateM.Result Error Window α → Answer × Window
  | .ok a w => (f a, w)
  | .error e w => (.failed e, w)

end Answer

def act (w : Window) : Operation → Answer × Window
  | .slide => Answer.ofResult (fun _ => .done) (slide w)
  | .consume kinds => Answer.ofResult .token (consume kinds w)
  | .consumeIdentifier => Answer.ofResult .name (consumeIdentifier w)
  | .nextIs kind => (.truth (w.nextIs kind), w)
  | .nextIsAmong kinds => (.truth (w.nextIsAmong kinds), w)
  | .nextOperator => (.operator (Parse.operator? w.next.token), w)
  | .unexpectedNext expected => (.error (w.unexpectedNext expected), w)
  | .unexpectedLast expected => (.error (w.unexpectedLast expected), w)
  | .startRecord => (.done, w.startRecord)
  | .takeRecord => (.events w.events, w.endRecord)
  | .enter rule => (.done, w.enter rule)
  | .leave rule => (.done, w.leave rule)

namespace Operation

def moves : Operation → Bool
  | .slide | .consume _ | .consumeIdentifier => true
  | _ => false

/-- Does the operation concern the record alone? -/
def records : Operation → Bool
  | .startRecord | .takeRecord | .enter _ | .leave _ => true
  | _ => false

def kinds? : Operation → Option (List TokenKind)
  | .consume kinds => some kinds
  | .consumeIdentifier => some [.identifier]
  | _ => none

def admits (op : Operation) (t : Token) : Bool :=
  op.kinds?.all (·.contains t.kind)

/-- The answer when the token has come to be the last one. -/
def answer (t : Token) : Operation → Answer
  | .consume _ => .token t
  | .consumeIdentifier => .name (t.name?.getD "")
  | _ => .done

end Operation

def moveOn (w : Window) (op : Operation) (x : Lexeme) : Window :=
  if op.kinds?.isSome then (w.move x).note (.consumed w.next.token) else w.move x

structure Step where
  before : Window
  operation : Operation
  answer : Answer
  after : Window

def step (w : Window) (op : Operation) : Step := ⟨w, op, (w.act op).1, (w.act op).2⟩

def history (w : Window) : List Operation → List Step
  | [] => []
  | op :: ops => w.step op :: (w.act op).2.history ops

def after (w : Window) : List Operation → Window
  | [] => w
  | op :: ops => (w.act op).2.after ops

namespace Step

def moved (s : Step) : Bool := s.operation.moves && s.answer.failure?.isNone

/-- The error that has come from the stream: the operation has not found fault with the token ahead. -/
def streamError? (s : Step) : Option Error :=
  if s.operation.admits s.before.next.token then s.answer.failure? else none

end Step

section Steps

open Jack.Stream

variable {w : Window} {items : Array Item} {op : Operation} {k : Nat} {x : Lexeme} {e : Error}

theorem act_of_not_admits (h : op.admits w.next.token = false) :
    w.act op = (.failed (w.unexpectedNext (op.kinds?.getD [])), w) := by
  cases op with
  | consume kinds =>
    have hk : w.next.token.kind ∉ kinds := by simpa [Operation.admits, Operation.kinds?] using h
    simp [act, consume, accept, hk, Operation.kinds?, Answer.ofResult]
  | consumeIdentifier =>
    have hn : w.next.token.name? = none := by
      cases ht : w.next.token <;>
        simp [Operation.admits, Operation.kinds?, ht, Token.kind, Token.name?] at h ⊢
    simp [act, consumeIdentifier, accept, hn, Operation.kinds?, Answer.ofResult]
  | _ => simp [Operation.admits, Operation.kinds?] at h

theorem act_of_error (hm : op.moves = true) (h : op.admits w.next.token = true)
    (he : w.incoming = .error e) : w.act op = (.failed e, { w with asked := w.asked + 1 }) := by
  cases op with
  | slide => simp [act, slide_of_error he, Answer.ofResult]
  | consume kinds =>
    have hk : w.next.token.kind ∈ kinds := by simpa [Operation.admits, Operation.kinds?] using h
    simp [act, consume, accept, hk, slide_of_error he, Answer.ofResult]
  | consumeIdentifier =>
    cases ht : w.next.token <;>
      simp [Operation.admits, Operation.kinds?, ht, Token.kind] at h
    simp [act, consumeIdentifier, accept, ht, Token.name?, slide_of_error he, Answer.ofResult]
  | _ => cases hm

theorem act_of_ok (hm : op.moves = true) (h : op.admits w.next.token = true)
    (hx : w.incoming = .ok x) : w.act op = (op.answer w.next.token, w.moveOn op x) := by
  cases op with
  | slide => simp [act, slide_of_ok hx, Answer.ofResult, Operation.answer, moveOn, Operation.kinds?]
  | consume kinds =>
    have hk : w.next.token.kind ∈ kinds := by simpa [Operation.admits, Operation.kinds?] using h
    simp [act, consume, accept, hk, slide_of_ok hx, Answer.ofResult, Operation.answer, moveOn,
      Operation.kinds?]
  | consumeIdentifier =>
    cases ht : w.next.token <;>
      simp [Operation.admits, Operation.kinds?, ht, Token.kind] at h
    simp [act, consumeIdentifier, accept, ht, Token.name?, slide_of_ok hx, Answer.ofResult,
      Operation.answer, moveOn, Operation.kinds?]
  | _ => cases hm

/-- The windows differ in nothing but their records. -/
structure SameView (w v : Window) : Prop where
  items : v.items = w.items
  asked : v.asked = w.asked
  last : v.last = w.last
  next : v.next = w.next

theorem act_of_not_moves (hm : op.moves = false) :
    w.SameView (w.act op).2 ∧ (w.act op).1.failure? = none ∧ op.admits w.next.token = true := by
  cases op with
  | slide | consume | consumeIdentifier => cases hm
  | _ => exact ⟨⟨rfl, rfl, rfl, rfl⟩, rfl, rfl⟩

theorem Operation.moves_of_records (hr : op.records = true) : op.moves = false := by
  cases op <;> trivial

theorem failure_answer (op : Operation) (t : Token) : (op.answer t).failure? = none := by
  cases op <;> rfl

theorem Shows.of_sameView {v : Window} (h : w.Shows items k) (hv : w.SameView v) :
    v.Shows items k := by
  refine ⟨hv.items ▸ h.items_eq, hv.last ▸ h.last_eq, hv.next ▸ h.next_eq, ?_⟩
  rw [hv.asked]
  exact h.asked_eq

theorem Shows.moveOn (h : w.Shows items k) (hx : w.incoming = .ok x) (op : Operation) :
    (w.moveOn op x).Shows items (k + 1) := by
  unfold Window.moveOn
  split
  · exact (h.move hx).note _
  · exact h.move hx

theorem Shows.act (h : w.Shows items k) (op : Operation) :
    (w.act op).2.Shows items (k + if (w.step op).moved then 1 else 0) ∧
      errors (items.toList.take (w.act op).2.asked) =
        errors (items.toList.take w.asked) ++ (w.step op).streamError?.toList := by
  cases hm : op.moves with
  | false =>
    obtain ⟨hv, hf, ha⟩ := act_of_not_moves (w := w) hm
    simp only [step, Step.moved, Step.streamError?, hm, ha, hf, hv.asked]
    exact ⟨h.of_sameView hv, (List.append_nil _).symm⟩
  | true =>
    cases ha : op.admits w.next.token with
    | false =>
      simp only [step, Step.moved, Step.streamError?, ha, act_of_not_admits ha]
      simpa [Answer.failure?] using h
    | true =>
      cases hi : w.incoming with
      | error e =>
        have he : handedOut items w.asked = .error e := h.incoming_eq ▸ hi
        simp only [step, Step.moved, Step.streamError?, ha, act_of_error hm ha hi, errors_take_succ, he]
        exact ⟨by simpa [Answer.failure?] using h.drop hi, rfl⟩
      | ok x =>
        have hx : handedOut items w.asked = .ok x := h.incoming_eq ▸ hi
        have hasked : (w.moveOn op x).asked = w.asked + 1 := by
          unfold Window.moveOn
          split <;> rfl
        simp only [step, Step.moved, Step.streamError?, ha, hm, act_of_ok hm ha hi, failure_answer,
          hasked, errors_take_succ, hx]
        exact ⟨h.moveOn hi op, rfl⟩

theorem Shows.after (h : w.Shows items k) (ops : List Operation) :
    (w.after ops).Shows items (k + (w.history ops).countP Step.moved) ∧
      errors (items.toList.take (w.after ops).asked) =
        errors (items.toList.take w.asked) ++ (w.history ops).filterMap Step.streamError? := by
  induction ops generalizing w k with
  | nil => exact ⟨h, (List.append_nil _).symm⟩
  | cons op ops ih =>
    obtain ⟨hs, he⟩ := h.act op
    obtain ⟨hs', he'⟩ := ih hs
    constructor
    · rw [history, List.countP_cons, Nat.add_comm (List.countP _ _), ← Nat.add_assoc]
      exact hs'
    · rw [Window.after, he', he, history, List.filterMap_cons, List.append_assoc]
      cases (w.step op).streamError? <;> rfl

end Steps

section Views

variable {w v : Window} {op : Operation}

theorem SameView.incoming_eq (h : w.SameView v) : v.incoming = w.incoming := by
  rw [incoming, incoming, h.items, h.asked, h.next]

theorem SameView.trans {u : Window} (h : w.SameView v) (h' : v.SameView u) : w.SameView u :=
  ⟨h'.items.trans h.items, h'.asked.trans h.asked, h'.last.trans h.last, h'.next.trans h.next⟩

theorem SameView.symm (h : w.SameView v) : v.SameView w :=
  ⟨h.items.symm, h.asked.symm, h.last.symm, h.next.symm⟩

theorem SameView.moveOn (h : w.SameView v) (op : Operation) (x : Lexeme) :
    (w.moveOn op x).SameView (v.moveOn op x) := by
  unfold Window.moveOn
  split
  all_goals exact ⟨h.items, congrArg (· + 1) h.asked, h.next, rfl⟩

theorem SameView.act (h : w.SameView v) (hr : op.records = false) :
    (v.act op).1 = (w.act op).1 ∧ (w.act op).2.SameView (v.act op).2 := by
  cases hm : op.moves with
  | false =>
    have hv := (act_of_not_moves (w := w) hm).1.symm.trans
      (h.trans (act_of_not_moves (w := v) hm).1)
    refine ⟨?_, hv⟩
    cases op with
    | slide | consume | consumeIdentifier => cases hm
    | startRecord | takeRecord | enter | leave => cases hr
    | nextIs | nextIsAmong | nextOperator | unexpectedNext | unexpectedLast =>
      simp only [Window.act, Window.nextIs, Window.nextIsAmong, Window.unexpectedNext,
        Window.unexpectedLast, h.next, h.last]
  | true =>
    cases ha : op.admits w.next.token with
    | false =>
      rw [act_of_not_admits ha, act_of_not_admits (h.next ▸ ha)]
      simpa only [unexpectedNext, h.next, true_and] using h
    | true =>
      have ha' : op.admits v.next.token = true := h.next ▸ ha
      cases hi : w.incoming with
      | error e =>
        rw [act_of_error hm ha hi, act_of_error hm ha' (h.incoming_eq ▸ hi)]
        exact ⟨rfl, h.items, congrArg (· + 1) h.asked, h.last, h.next⟩
      | ok x =>
        rw [act_of_ok hm ha hi, act_of_ok hm ha' (h.incoming_eq ▸ hi), h.next]
        exact ⟨rfl, h.moveOn op x⟩

/-- What the operations answer that do not concern the record, and what the window shows behind each. -/
def observed (w : Window) (ops : List Operation) : List (Operation × Answer × Lexeme × Lexeme) :=
  ((w.history ops).filter fun s => !s.operation.records).map fun s =>
    (s.operation, s.answer, s.after.last, s.after.next)

theorem SameView.observed (h : w.SameView v) (ops : List Operation) :
    v.observed ops = w.observed (ops.filter fun op => !op.records) := by
  induction ops generalizing w v with
  | nil => rfl
  | cons op ops ih =>
    cases hr : op.records with
    | true =>
      have hv := ih (h.trans (act_of_not_moves (w := v) (Operation.moves_of_records hr)).1)
      rw [List.filter_cons_of_neg (by simp [hr]), ← hv]
      simp [Window.observed, history, step, hr]
    | false =>
      obtain ⟨ha, hv⟩ := h.act hr
      rw [List.filter_cons_of_pos (by simp [hr])]
      simp only [Window.observed, history, step, List.filter_cons, hr, List.map_cons, Bool.not_false,
        if_true, ha, hv.last, hv.next]
      exact congrArg _ (ih hv)

end Views

open Jack.Stream

/-- What is expected of a window over the items when it comes out of these steps. -/
structure Faithful (items : Array Item) (h : List Step) (v : Window) : Prop where
  last : v.last = lexeme items (h.countP Step.moved)
  next : v.next = lexeme items (h.countP Step.moved + 1)
  incoming : v.incoming = handedOut items v.asked
  errors : h.filterMap Step.streamError? = errors (items.toList.take v.asked)
  asked : v.asked = h.countP Step.moved + 1 + (h.filterMap Step.streamError?).length
  refused : ∀ op : Operation, op.admits v.next.token = false →
    v.act op = (.failed ⟨v.next.location, .unexpected (op.kinds?.getD []) v.next.token⟩, v)
  dropped : ∀ (op : Operation) e, op.moves = true → op.admits v.next.token = true →
    v.incoming = .error e → v.act op = (.failed e, { v with asked := v.asked + 1 })
  moved : ∀ (op : Operation) x, op.moves = true → op.admits v.next.token = true →
    v.incoming = .ok x → v.act op = (op.answer v.next.token, v.moveOn op x)
  still : ∀ op : Operation, op.moves = false → v.SameView (v.act op).2

/-- A window is opened just if the stream does not begin with an error. From then on it is at the lexeme
to which it has been moved, whatever has failed in between. -/
theorem window_is_faithful (items : Array Item) :
    (∀ e, ofItems items = .error e ↔ items[0]? = some (.error e)) ∧
      ∀ w, ofItems items = .ok w → ∀ ops, Faithful items (w.history ops) (w.after ops) := by
  refine ⟨fun e => ofItems_eq_error_iff, fun w hw ops => ?_⟩
  have h₀ := shows_ofItems hw
  obtain ⟨hs, he⟩ := h₀.after ops
  have herr : (w.history ops).filterMap Step.streamError? =
      errors (items.toList.take (w.after ops).asked) := by
    have hnone : errors (items.toList.take w.asked) = [] := by
      have ha := h₀.asked_eq
      rw [asked_ofItems hw] at ha ⊢
      exact List.eq_nil_of_length_eq_zero (by omega)
    rw [he, hnone, List.nil_append]
  rw [Nat.zero_add] at hs
  exact {
    last := hs.last_eq
    next := hs.next_eq
    incoming := hs.incoming_eq
    errors := herr
    asked := herr ▸ hs.asked_eq
    refused := fun _ => act_of_not_admits
    dropped := fun _ _ => act_of_error
    moved := fun _ _ => act_of_ok
    still := fun _ hm => (act_of_not_moves hm).1 }

/-- The text `class @A`, in which one character cannot be read. -/
def torn : Array Item :=
  #[.ok ⟨.keyword .class, ⟨1, 1⟩⟩, .error ⟨⟨1, 7⟩, .lexical (.unexpectedCharacter '@')⟩,
    .ok ⟨.identifier "A", ⟨1, 8⟩⟩]

theorem torn_is_faithful :
    let ops : List Operation := [.consume [.symbol .semicolon], .slide, .slide, .consumeIdentifier]
    ∃ w, ofItems torn = .ok w ∧
      (w.history ops).map (·.answer) =
        [.failed ⟨⟨1, 1⟩, .unexpected [.symbol .semicolon] (.keyword .class)⟩,
          .failed ⟨⟨1, 7⟩, .lexical (.unexpectedCharacter '@')⟩, .done, .name "A"] ∧
      Faithful torn (w.history ops) (w.after ops) :=
  ⟨_, rfl, rfl, (window_is_faithful torn).2 _ rfl _⟩

end Jack.Window
