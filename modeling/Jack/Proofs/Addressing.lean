import Jack.Proofs.Code.Blocks
import Jack.Proofs.Grammar.Keywords
import Jack.Proofs.Grammar.Slots

namespace Jack

open VM (Command Segment)

/-- Does the command address a word that there is room for? Constants are no words, so none is popped
to. -/
def VM.Command.Within (room : Segment → Nat) : Command → Prop
  | .push .constant _ => True
  | .push segment i | .pop segment i => i < room segment
  | _ => True

/-- Where any subroutine may store values: in `temp 0`, in `pointer 1`, and in the word it points at. -/
def VM.scratch : List (Segment × Nat) :=
  [(.temp, 0), (.pointer, 1), (.that, 0)]

/-- If the command stores a value, it does so in a scratch word or in a variable that one of the
`names` stands for. -/
def VM.Command.Stores (find : String → Option Variable) (names : List String) : Command → Prop
  | .pop segment i => (segment, i) ∈ VM.scratch ∨
      ∃ x ∈ names, ∃ v, find x = some v ∧ v.segment = segment ∧ v.slot = i
  | _ => True

namespace Grammar

mutual

/-- The variables that a `let` assigns to. The elements of arrays are no variables. -/
def Statement.assigned : Statement → List String
  | .assign x _ => [x]
  | .ifThen _ yes => Statement.assignedAll yes
  | .ifElse _ yes no => Statement.assignedAll yes ++ Statement.assignedAll no
  | .while _ body => Statement.assignedAll body
  | .store _ _ _ | .do _ _ | .return _ => []

def Statement.assignedAll : List Statement → List String
  | [] => []
  | s :: ss => s.assigned ++ Statement.assignedAll ss

end

end Grammar

theorem VM.count_return_of_quiet {code : List Command} (h : ∀ c ∈ code, c.IsQuiet) :
    code.count .return = 0 :=
  List.count_eq_zero.mpr fun hc => h _ hc

section Stores

variable {find : String → Option Variable} {xs ys : List String} {c : Command}

theorem VM.Command.Stores.mono (h : c.Stores find xs) (hs : xs ⊆ ys) : c.Stores find ys := by
  cases c with
  | pop segment i =>
    obtain h | ⟨x, hx, h⟩ := h
    · exact .inl h
    · exact .inr ⟨x, hs hx, h⟩
  | push | arithmetic | label | goto | ifGoto | function | call | «return» => trivial

theorem VM.Command.IsQuiet.stores (h : c.IsQuiet) : c.Stores find xs := by
  cases c with
  | pop segment i =>
    unfold Command.IsQuiet at h
    split at h
    all_goals simp_all [Command.Stores, VM.scratch]
  | push | arithmetic | label | goto | ifGoto | function | call | «return» => trivial

theorem Expression.stores_code (e : Expression) : ∀ c ∈ e.code, c.Stores find xs :=
  fun c hc => (e.quiet_code c hc).stores

theorem stores_storeElement : ∀ c ∈ storeElement, c.Stores find xs := by
  simp [storeElement, Command.Stores, VM.scratch]

end Stores

namespace Grammar

open Event (tokens)

variable {names : Names}

mutual

/-- The code of a statement stores values in scratch words and in the variables it assigns to. -/
theorem Statement.stores_code {s : Statement} {r : Jack.Statement} (h : s.resolve names = some r)
    (k : LabelCount) : ∀ c ∈ (r.code k).1, c.Stores names.scopes.resolve? s.assigned := by
  cases s with
  | assign x value =>
    obtain ⟨v, hv, e, -, rfl⟩ := bind₂_eq_some_iff.mp h
    refine List.forall_mem_append.mpr ⟨e.stores_code, List.forall_mem_singleton.mpr ?_⟩
    exact .inr ⟨x, List.mem_singleton_self x, v, hv, rfl, rfl⟩
  | store x index value =>
    obtain ⟨v, -, i, -, e, -, rfl⟩ := bind₃_eq_some_iff.mp h
    simp only [Jack.Statement.code, List.forall_mem_append]
    exact ⟨⟨⟨i.stores_code, by simp [Command.Stores, Variable.push]⟩, e.stores_code⟩,
      stores_storeElement⟩
  | ifThen condition yes =>
    obtain ⟨e, -, ys, hys, rfl⟩ := bind₂_eq_some_iff.mp h
    have hy := Statement.stores_codeAll hys k.forIf.2
    simp only [Jack.Statement.code, List.forall_mem_append]
    exact ⟨⟨⟨e.stores_code, by simp [Command.Stores]⟩, hy⟩, by simp [Command.Stores]⟩
  | ifElse condition yes no =>
    obtain ⟨e, -, ys, hys, ns, hns, rfl⟩ := bind₃_eq_some_iff.mp h
    have hy := Statement.stores_codeAll hys k.forIf.2
    have hn := Statement.stores_codeAll hns (Jack.Statement.codeAll k.forIf.2 ys).2
    simp only [Jack.Statement.code, List.forall_mem_append]
    exact ⟨⟨⟨⟨⟨e.stores_code, by simp [Command.Stores]⟩,
      fun c hc => (hy c hc).mono (List.subset_append_left _ _)⟩, by simp [Command.Stores]⟩,
      fun c hc => (hn c hc).mono (List.subset_append_right _ _)⟩, by simp [Command.Stores]⟩
  | «while» condition body =>
    obtain ⟨e, -, rs, hrs, rfl⟩ := bind₂_eq_some_iff.mp h
    have hb := Statement.stores_codeAll hrs k.forWhile.2
    simp only [Jack.Statement.code, List.forall_mem_append]
    exact ⟨⟨⟨⟨by simp [Command.Stores], e.stores_code⟩, by simp [Command.Stores]⟩, hb⟩,
      by simp [Command.Stores]⟩
  | «do» called arguments =>
    obtain ⟨es, -, rfl⟩ := Option.map_eq_some_iff.mp h
    refine List.forall_mem_append.mpr ⟨fun c hc => (Jack.Term.quiet_code _ c hc).stores, ?_⟩
    simp [Command.Stores, VM.scratch]
  | «return» value => cases value with
    | none =>
      cases h
      simp [Jack.Statement.code, Command.Stores]
    | some value =>
      obtain ⟨e, -, rfl⟩ := Option.map_eq_some_iff.mp h
      exact List.forall_mem_append.mpr ⟨e.stores_code, by simp [Command.Stores]⟩

theorem Statement.stores_codeAll {ss : List Statement} {rs : List Jack.Statement}
    (h : Statement.resolveAll names ss = some rs) (k : LabelCount) :
    ∀ c ∈ (Jack.Statement.codeAll k rs).1,
      c.Stores names.scopes.resolve? (Statement.assignedAll ss) := by
  match ss with
  | [] =>
    cases h
    exact List.forall_mem_nil _
  | s :: ss =>
    obtain ⟨r, hr, rs, hrs, rfl⟩ := bind₂_eq_some_iff.mp h
    have hs := Statement.stores_code hr k
    have hss := Statement.stores_codeAll hrs (r.code k).2
    exact List.forall_mem_append.mpr ⟨fun c hc => (hs c hc).mono (List.subset_append_left _ _),
      fun c hc => (hss c hc).mono (List.subset_append_right _ _)⟩

end

mutual

/-- Code returns as often as the source says `return`. -/
theorem Statement.count_return {s : Statement} {r : Jack.Statement} (h : s.resolve names = some r)
    (k : LabelCount) :
    (r.code k).1.count .return = (tokens s.derivation).count (.keyword .return) := by
  have hq (e : Jack.Expression) := VM.count_return_of_quiet e.quiet_code
  have hk (e : Expression) := e.count_keyword structural_return
  cases s with
  | assign x value =>
    obtain ⟨v, -, e, -, rfl⟩ := bind₂_eq_some_iff.mp h
    simp [Jack.Statement.code, Statement.derivation, Variable.pop, hq, hk]
  | store x index value =>
    obtain ⟨v, -, i, -, e, -, rfl⟩ := bind₃_eq_some_iff.mp h
    simp [Jack.Statement.code, Statement.derivation, Event.bracketed, Variable.push, storeElement,
      hq, hk]
  | ifThen condition yes =>
    obtain ⟨e, -, ys, hys, rfl⟩ := bind₂_eq_some_iff.mp h
    have hy := Statement.count_return_all hys k.forIf.2
    simp [Jack.Statement.code, Statement.derivation, Event.parenthesized, Event.braced, hq, hk, hy]
  | ifElse condition yes no =>
    obtain ⟨e, -, ys, hys, ns, hns, rfl⟩ := bind₃_eq_some_iff.mp h
    have hy := Statement.count_return_all hys k.forIf.2
    have hn := Statement.count_return_all hns (Jack.Statement.codeAll k.forIf.2 ys).2
    simp [Jack.Statement.code, Statement.derivation, Event.parenthesized, Event.braced, hq, hk, hy,
      hn]
  | «while» condition body =>
    obtain ⟨e, -, rs, hrs, rfl⟩ := bind₂_eq_some_iff.mp h
    have hb := Statement.count_return_all hrs k.forWhile.2
    simp [Jack.Statement.code, Statement.derivation, Event.parenthesized, Event.braced, hq, hk, hb]
  | «do» called arguments =>
    obtain ⟨es, -, rfl⟩ := Option.map_eq_some_iff.mp h
    have hc := VM.count_return_of_quiet (Jack.Term.call (called.resolve names) es).quiet_code
    have ha := Expression.count_keyword_all structural_return arguments
    simp [Jack.Statement.code, Statement.derivation, Event.parenthesized, called.count_keyword, hc,
      ha]
  | «return» value => cases value with
    | none =>
      cases h
      rfl
    | some value =>
      obtain ⟨e, -, rfl⟩ := Option.map_eq_some_iff.mp h
      simp [Jack.Statement.code, Statement.derivation, hq, hk]

theorem Statement.count_return_all {ss : List Statement} {rs : List Jack.Statement}
    (h : Statement.resolveAll names ss = some rs) (k : LabelCount) :
    (Jack.Statement.codeAll k rs).1.count .return =
      (tokens (Statement.derivationAll ss)).count (.keyword .return) := by
  match ss with
  | [] =>
    cases h
    rfl
  | s :: ss =>
    obtain ⟨r, hr, rs, hrs, rfl⟩ := bind₂_eq_some_iff.mp h
    simp only [Jack.Statement.codeAll, List.count_append, Statement.count_return hr,
      Statement.count_return_all hrs, Statement.derivationAll, Event.tokens_append]

end

end Grammar

section Within

variable {room : Segment → Nat} {names : Names} {c : Command}

/-- There is room for the words that every subroutine may address. -/
def Roomy (room : Segment → Nat) : Prop :=
  room .temp = 1 ∧ room .that = 1 ∧ room .pointer = 2

theorem within_glue (hr : Roomy room) : ∀ c ∈ glue, c.Within room := by
  simp [glue, Command.Within, hr.2.1, hr.2.2]

theorem within_of_joint (hr : Roomy room) (h : c.IsJoint) : c.Within room := by
  unfold Command.IsJoint at h
  split at h
  all_goals simp_all [Command.Within, Roomy]

theorem within_stringCode (text : String) : ∀ c ∈ stringCode text, c.Within room := by
  intro c hc
  simp only [stringCode, List.mem_cons, List.mem_flatMap, List.not_mem_nil, or_false] at hc
  obtain rfl | rfl | ⟨_, _, rfl | rfl⟩ := hc <;> trivial

theorem Variable.within_push {v : Variable} (h : v.slot < room v.segment) : v.push.Within room := by
  rw [Variable.push]
  cases hs : v.segment <;> simp_all [Command.Within]

theorem Grammar.Called.within_receiver (hr : Roomy room)
    (hv : ∀ x v, names.scopes.resolve? x = some v → v.slot < room v.segment) (called : Called) :
    ∀ c ∈ (called.resolve names).receiver, c.Within room := by
  cases called with
  | plain x => simp [Called.resolve, Callee.receiver, Command.Within, hr.2.2]
  | dotted x y =>
    cases hx : names.scopes.resolve? x with
    | none => simp [Called.resolve, hx, Callee.receiver]
    | some v => simpa [Called.resolve, hx, Callee.receiver] using Variable.within_push (hv x v hx)

theorem Leaf.Bound.within {l : Leaf} (hr : Roomy room)
    (hv : ∀ x v, names.scopes.resolve? x = some v → v.slot < room v.segment)
    (hl : l.Bound names) (h : l.Brings c) : c.Within room := by
  cases l with
  | integer value =>
    cases h
    trivial
  | string text => exact within_stringCode text c h
  | «variable» v =>
    cases h
    obtain ⟨x, hx⟩ := hl
    exact Variable.within_push (hv x v hx)
  | callee f =>
    obtain ⟨called, rfl⟩ := hl
    obtain h | ⟨n, rfl⟩ := h
    · exact called.within_receiver hr hv c h
    · trivial

theorem Leaf.Explain.within {ls : List Leaf} (hr : Roomy room)
    (hv : ∀ x v, names.scopes.resolve? x = some v → v.slot < room v.segment)
    (hls : ∀ l ∈ ls, l.Bound names) (h : Leaf.Explain ls c) : c.Within room := by
  obtain hg | hj | ⟨l, hl, hb | ⟨v, rfl, rfl⟩⟩ := h
  · exact within_glue hr c hg
  · exact within_of_joint hr hj
  · exact (hls l hl).within hr hv hb
  · obtain ⟨x, hx⟩ := hls _ hl
    exact hv x v hx

end Within

theorem SubroutineKind.within_prologue {room : Segment → Nat} (hr : Roomy room)
    (kind : SubroutineKind) (hk : kind = .method → 0 < room .argument) (fields : Nat) :
    ∀ c ∈ kind.prologue fields, c.Within room := by
  cases kind with
  | constructor => simp [prologue, Command.Within, hr.2.2]
  | method => simpa [prologue, Command.Within, hr.2.2] using hk
  | function => simp [prologue]

open Grammar in
/-- The block of a subroutine starts as its kind demands, and it addresses what it may. A constructor
makes the object that it works on, a method is handed it. -/
structure Addressed (c : Grammar.Class) (s : Grammar.Subroutine) (body block : List Command) :
    Prop where
  shape : block = .function (c.name ++ "." ++ s.name) (s.locals.flatMap (·.names)).length ::
    ((match s.kind with
      | .constructor =>
        [.push .constant (c.names .field).length, .call "Memory.alloc" 1, .pop .pointer 0]
      | .method => [.push .argument 0, .pop .pointer 0]
      | .function => []) ++ body)
  function : block.countP (·.isFunction) = 1
  within : ∀ command ∈ block, command.Within (c.room s)
  stores : ∀ command ∈ body, command.Stores (c.find? s) (Statement.assignedAll s.body)
  receiver : .pop .pointer 0 ∉ body
  returns : block.count .return =
    (Event.tokens (Statement.derivationAll s.body)).count (.keyword .return)

namespace Grammar

variable {c : Class} {s : Subroutine} {scopes : Scopes} {r : Jack.Subroutine}

theorem Subroutine.addressed (hc : Scopes.empty.enterAll c.entries = some scopes)
    (h : s.resolve c.name scopes = some r) :
    ∃ body, Addressed c s body (r.code c.name (c.entries.countP (·.kind = .field))) := by
  obtain ⟨scopes', hs, body, hb, rfl⟩ := Subroutine.resolve_eq_some_iff.mp h
  have hfind : scopes'.resolve? = c.find? s := funext (s.resolve?_eq_find? hc hs)
  have hroom : Roomy (c.room s) := ⟨rfl, rfl, rfl⟩
  have hv (x : String) (v : Variable) (hx : scopes'.resolve? x = some v) :
      v.slot < c.room s v.segment := c.slot_lt_room (hfind ▸ hx)
  have hstores := Statement.stores_codeAll hb .zero
  rw [hfind] at hstores
  have hin : ∀ command ∈ (Jack.Statement.codeAll .zero body).1, command.Within (c.room s) :=
    fun command hm => (Jack.Statement.leaves_explain_all _ body command hm).within hroom hv
      (Statement.bound_all hb)
  refine ⟨(Jack.Statement.codeAll .zero body).1, ?shape, ?function, ?within, hstores, ?receiver,
    ?returns⟩
  case shape =>
    rw [Jack.Subroutine.code, c.length_names, s.total_locals]
    cases s.kind <;> rfl
  case function => exact (Jack.Subroutine.isBlock_code _ _ _).count_function
  case within =>
    have hp := s.kind.within_prologue hroom fun hk => by simp [Class.room, hk]
    exact List.forall_mem_cons.mpr ⟨trivial, List.forall_mem_append.mpr ⟨hp _, hin⟩⟩
  case receiver =>
    intro hm
    obtain hp | ⟨x, -, v, -, hs, -⟩ := hstores _ hm
    · simp [VM.scratch] at hp
    · cases hk : v.kind <;> simp [Variable.segment, VariableKind.segment, hk] at hs
  case returns =>
    have hp : (s.kind.prologue (c.entries.countP (·.kind = .field))).count .return = 0 := by
      cases s.kind <;> rfl
    rw [Jack.Subroutine.code, List.count_cons_of_ne (by simp), List.count_append, hp, Nat.zero_add]
    exact Statement.count_return_all hb .zero

end Grammar

/-- The code of a class has one block for each subroutine, in the order of the source, and each
addresses what it may. -/
theorem blocks_are_addressed {recorded : Bool} {items : Array Item} {p : Compiled}
    (h : compileItems recorded items = .ok p) :
    ∃ c : Grammar.Class, c.tokens = (lexemesOf items.toList).map (·.token) ∧
      List.Forall₂ (fun s block => ∃ body, Addressed c s body block) c.subroutines
        (VM.blocks p.commands) := by
  obtain ⟨c, hc, scopes, hs, hb⟩ := blocks_of_compileItems h
  refine ⟨c, hc, hb.imp ?_⟩
  rintro s block ⟨r, hr, rfl⟩
  exact Grammar.Subroutine.addressed hs hr

theorem gauge_is_addressed :
    ∃ p, compileItems false (Grammar.gauge.lexemes.map .ok).toArray = .ok p ∧
      ∃ c : Grammar.Class, c.tokens = (lexemesOf (Grammar.gauge.lexemes.map .ok)).map (·.token) ∧
        List.Forall₂ (fun s block => ∃ body, Addressed c s body block) c.subroutines
          (VM.blocks p.commands) := by
  obtain ⟨r, -, p, hp, -⟩ := Grammar.gauge_static.compiles
  exact ⟨p, hp, blocks_are_addressed hp⟩

end Jack
