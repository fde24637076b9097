import Jack.Proofs.Grammar.Slots
import Mathlib.Data.List.Induction

namespace Jack.Scopes

inductive Operation where
  | declare (name type : String) (kind : VariableKind) (location : Location)
  | resolve (name : String)
  | reset (extent : Extent)
  | count (kind : VariableKind)

inductive Answer where
  | slot (slot : Nat)
  | refused (error : Error)
  | resolved (found : Option Variable)
  | done
  | counted (number : Nat)

def perform (s : Scopes) : Operation → Answer × Scopes
  | .declare name type kind location =>
    match Scopes.declare name type kind location s with
    | .ok slot s' => (.slot slot, s')
    | .error e s' => (.refused e, s')
  | .resolve name => (.resolved (s.resolve? name), s)
  | .reset extent => (.done, s.reset extent)
  | .count kind => (.counted (s.count kind), s)

abbrev History := List (Operation × Answer)

def run (s : Scopes) : List Operation → History
  | [] => []
  | op :: ops => (op, (s.perform op).1) :: (s.perform op).2.run ops

def after (s : Scopes) : List Operation → Scopes
  | [] => s
  | op :: ops => (s.perform op).2.after ops

/-- Does the operation clear the scope of this extent? The scope of a subroutine goes with that of its
class. -/
def Operation.clears : Operation → Extent → Bool
  | .reset .class, _ => true
  | .reset .subroutine, extent => extent = .subroutine
  | .declare _ _ _ _, _ | .resolve _, _ | .count _, _ => false

/-- The live variables, in the order of their declaration, after one more operation. -/
def advance (vs : List Variable) : Operation × Answer → List Variable
  | (.declare name type kind _, .slot slot) => vs ++ [⟨name, type, kind, slot⟩]
  | (op, _) => vs.filter fun v => !op.clears v.kind.extent

def live (h : History) : List Variable := h.foldl advance []

def lookUp (vs : List Variable) (extent : Extent) (name : String) : Option Variable :=
  vs.find? fun v => v.kind.extent = extent ∧ v.name = name

def number (vs : List Variable) (kind : VariableKind) : Nat := vs.countP (·.kind = kind)

/-- What is to be answered while these are the live variables. -/
def answer (vs : List Variable) : Operation → Answer
  | .declare name _ kind location =>
    if ∃ v ∈ vs, v.kind.extent = kind.extent ∧ v.name = name then
      .refused ⟨location, .redeclared name⟩
    else if number vs kind < maxSlots then .slot (number vs kind)
    else .refused ⟨location, .outOfRange (.slotsUsedUp kind name)⟩
  | .resolve name => .resolved ((lookUp vs .subroutine name).or (lookUp vs .class name))
  | .reset _ => .done
  | .count kind => .counted (number vs kind)

section Live

variable {vs : List Variable} {h : History} {v : Variable}

theorem live_append (h : History) (entry : Operation × Answer) :
    live (h ++ [entry]) = advance (live h) entry := by
  rw [live, List.foldl_append]
  rfl

def Declares (entry : Operation × Answer) (v : Variable) : Prop :=
  ∃ location, entry = (.declare v.name v.type v.kind location, .slot v.slot)

theorem mem_advance_iff {entry : Operation × Answer} :
    v ∈ advance vs entry ↔ Declares entry v ∨ v ∈ vs ∧ entry.1.clears v.kind.extent = false := by
  obtain ⟨op, a⟩ := entry
  cases op with
  | declare name type kind location =>
    cases a <;> cases v <;> simp [advance, Declares, Operation.clears, eq_comm, or_comm, and_assoc]
  | resolve | reset | count => simp [advance, Declares]

/-- A variable is live just if an operation has declared it and none since has cleared its scope. -/
theorem mem_live_iff : v ∈ live h ↔ ∃ before entry behind, h = before ++ entry :: behind ∧
    Declares entry v ∧ ∀ later ∈ behind, later.1.clears v.kind.extent = false := by
  induction h using List.reverseRecOn with
  | nil => simp [live]
  | append_singleton h last ih =>
    rw [live_append, mem_advance_iff, ih]
    constructor
    · rintro (hd | ⟨⟨before, entry, behind, rfl, hd, hc⟩, hl⟩)
      · exact ⟨h, last, [], rfl, hd, List.forall_mem_nil _⟩
      · refine ⟨before, entry, behind ++ [last], by simp, hd, ?_⟩
        exact List.forall_mem_append.mpr ⟨hc, List.forall_mem_singleton.mpr hl⟩
    · rintro ⟨before, entry, behind, he, hd, hc⟩
      induction behind using List.reverseRecOn with
      | nil =>
        obtain ⟨rfl, hlast⟩ := List.append_inj' he rfl
        cases hlast
        exact .inl hd
      | append_singleton behind last' _ =>
        rw [← List.cons_append, ← List.append_assoc] at he
        obtain ⟨rfl, hlast⟩ := List.append_inj' he rfl
        cases hlast
        obtain ⟨hc, hl⟩ := List.forall_mem_append.mp hc
        exact .inr ⟨⟨before, entry, behind, rfl, hd, hc⟩, hl _ (List.mem_singleton_self _)⟩

end Live

section Numbering

/-- Variables as they are declared: names differ within a scope, and those of each kind have the slots
from 0 on. -/
structure Orderly (vs : List Variable) : Prop where
  names : vs.Pairwise fun v w => ¬ (v.kind.extent = w.kind.extent ∧ v.name = w.name)
  slots : ∀ kind, (vs.filter (·.kind = kind)).map (·.slot) = List.range (number vs kind)
  number_le : ∀ kind, number vs kind ≤ maxSlots

variable {vs : List Variable} {extent : Extent} {name : String}

theorem number_append (vs : List Variable) (v : Variable) (kind : VariableKind) :
    number (vs ++ [v]) kind = number vs kind + if kind = v.kind then 1 else 0 := by
  rw [number, List.countP_append, List.countP_singleton]
  simp [number, eq_comm]

theorem filter_filter_kind (q : Extent → Bool) (vs : List Variable) (kind : VariableKind) :
    (vs.filter fun v => q v.kind.extent).filter (·.kind = kind) =
      if q kind.extent then vs.filter (·.kind = kind) else [] := by
  rw [List.filter_filter]
  split
  next hq =>
    refine List.filter_congr fun v _ => ?_
    by_cases hv : v.kind = kind <;> simp [hv, hq]
  next hq =>
    refine List.filter_eq_nil_iff.mpr fun v _ => ?_
    by_cases hv : v.kind = kind <;> simp [hv, hq]

theorem number_filter (q : Extent → Bool) (vs : List Variable) (kind : VariableKind) :
    number (vs.filter fun v => q v.kind.extent) kind =
      if q kind.extent then number vs kind else 0 := by
  simp only [number, List.countP_eq_length_filter, filter_filter_kind]
  split <;> rfl

theorem lookUp_append (vs : List Variable) (v : Variable) (extent : Extent) (name : String)
    (h : lookUp vs v.kind.extent v.name = none) :
    lookUp (vs ++ [v]) extent name =
      if v.kind.extent = extent ∧ v.name = name then some v else lookUp vs extent name := by
  rw [lookUp, List.find?_append, ← lookUp]
  split
  next hv =>
    obtain ⟨rfl, rfl⟩ := hv
    rw [h]
    simp
  next hv => simp [hv]

theorem lookUp_filter (q : Extent → Bool) (vs : List Variable) (extent : Extent) (name : String) :
    lookUp (vs.filter fun v => q v.kind.extent) extent name =
      if q extent then lookUp vs extent name else none := by
  rw [lookUp, List.find?_filter]
  split
  next hq =>
    rw [lookUp]
    congr 1
    funext v
    by_cases hv : v.kind.extent = extent <;> simp [hv, hq]
  next hq =>
    refine List.find?_eq_none.mpr fun v _ => ?_
    by_cases hv : v.kind.extent = extent <;> simp [hv, hq]

theorem lookUp_eq_none_iff :
    lookUp vs extent name = none ↔ ¬ ∃ v ∈ vs, v.kind.extent = extent ∧ v.name = name := by
  simp [lookUp]

theorem orderly_nil : Orderly [] := ⟨.nil, fun _ => rfl, fun _ => Nat.zero_le _⟩

theorem Orderly.filter (h : Orderly vs) (q : Extent → Bool) :
    Orderly (vs.filter fun v => q v.kind.extent) := by
  refine ⟨h.names.filter _, fun kind => ?_, fun kind => ?_⟩
  · rw [filter_filter_kind, number_filter]
    split
    · exact h.slots kind
    · rfl
  · rw [number_filter]
    split
    · exact h.number_le kind
    · exact Nat.zero_le _

theorem Orderly.append (h : Orderly vs) {type : String} {kind : VariableKind}
    (hn : lookUp vs kind.extent name = none) (hk : number vs kind < maxSlots) :
    Orderly (vs ++ [⟨name, type, kind, number vs kind⟩]) := by
  refine ⟨?_, fun k => ?_, fun k => ?_⟩
  · rw [lookUp_eq_none_iff] at hn
    refine List.pairwise_append.mpr ⟨h.names, List.pairwise_singleton _ _, fun v hv w hw hvw => ?_⟩
    cases List.mem_singleton.mp hw
    exact hn ⟨v, hv, hvw⟩
  · rw [number_append, List.filter_append, List.map_append, h.slots]
    by_cases hkk : k = kind
    · subst hkk
      simp [List.range_succ]
    · simp [hkk, Ne.symm hkk]
  · rw [number_append]
    split
    next hkk =>
      cases hkk
      exact hk
    next => exact h.number_le k

theorem Orderly.advance (h : Orderly vs) (op : Operation) :
    Orderly (advance vs (op, answer vs op)) := by
  cases op with
  | declare name type kind location =>
    rw [answer]
    split
    next => exact h.filter fun _ => !false
    next hn =>
      split
      next hk => exact h.append (lookUp_eq_none_iff.mpr hn) hk
      next => exact h.filter fun _ => !false
  | resolve | count => exact h.filter fun _ => !false
  | reset extent => exact h.filter fun e => !(Operation.reset extent).clears e

end Numbering

section Runs

variable {s : Scopes} {vs : List Variable}

structure Holds (s : Scopes) (vs : List Variable) : Prop where
  find?_eq : ∀ extent x, s.find? extent x = lookUp vs extent x
  count_eq : ∀ kind, s.count kind = number vs kind

theorem holds_empty : Holds empty [] := by
  constructor
  · intro extent x
    cases extent <;> simp [find?, empty, lookUp]
  · intro kind
    cases kind <;> rfl

theorem declares_eq (s : Scopes) (kind : VariableKind) (name : String) :
    s.declares kind name = (s.find? kind.extent name).isSome := by
  cases kind <;> simp [declares, find?, VariableKind.extent]

theorem find?_reset (s : Scopes) (extent e : Extent) (x : String) :
    (s.reset extent).find? e x =
      if !(Operation.reset extent).clears e then s.find? e x else none := by
  cases extent <;> cases e <;> simp [reset, leaveSubroutine, empty, find?, Operation.clears]

theorem count_reset (s : Scopes) (extent : Extent) (kind : VariableKind) :
    (s.reset extent).count kind =
      if !(Operation.reset extent).clears kind.extent then s.count kind else 0 := by
  cases extent <;> cases kind <;> rfl

theorem Holds.declares_eq_true_iff (h : s.Holds vs) {kind : VariableKind} {name : String} :
    s.declares kind name = true ↔ ∃ v ∈ vs, v.kind.extent = kind.extent ∧ v.name = name := by
  rw [declares_eq, h.find?_eq, Option.isSome_iff_ne_none, Ne, lookUp_eq_none_iff, not_not]

theorem Holds.insert (h : s.Holds vs) {name type : String} {kind : VariableKind}
    (hn : lookUp vs kind.extent name = none) :
    (s.insert name type kind).Holds (vs ++ [⟨name, type, kind, number vs kind⟩]) := by
  constructor
  · intro extent x
    rw [find?_insert, h.find?_eq, h.count_eq, lookUp_append _ _ _ _ hn]
  · intro k
    rw [count_insert, h.count_eq, number_append]

theorem Holds.reset (h : s.Holds vs) (extent : Extent) :
    (s.reset extent).Holds (vs.filter fun v => !(Operation.reset extent).clears v.kind.extent) := by
  constructor
  · intro e x
    rw [find?_reset, h.find?_eq, lookUp_filter fun e => !(Operation.reset extent).clears e]
  · intro kind
    rw [count_reset, h.count_eq, number_filter fun e => !(Operation.reset extent).clears e]

theorem Holds.perform (h : s.Holds vs) (op : Operation) :
    (s.perform op).1 = answer vs op ∧ (s.perform op).2.Holds (advance vs (op, answer vs op)) := by
  have hkeep : s.Holds (vs.filter fun _ => !false) := by
    rwa [List.filter_eq_self.mpr (by simp)]
  cases op with
  | declare name type kind location =>
    rw [Scopes.perform, Scopes.declare, refusal?, answer]
    by_cases hn : ∃ v ∈ vs, v.kind.extent = kind.extent ∧ v.name = name
    · rw [if_pos (h.declares_eq_true_iff.mpr hn), if_pos hn]
      exact ⟨rfl, hkeep⟩
    · rw [if_neg (mt h.declares_eq_true_iff.mp hn), if_neg hn, h.count_eq]
      by_cases hk : number vs kind < maxSlots
      · rw [if_neg (Nat.not_le_of_lt hk), if_pos hk]
        exact ⟨rfl, h.insert (lookUp_eq_none_iff.mpr hn)⟩
      · rw [if_pos (Nat.le_of_not_lt hk), if_neg hk]
        exact ⟨rfl, hkeep⟩
  | resolve name =>
    refine ⟨?_, hkeep⟩
    rw [Scopes.perform, resolve?_eq_or, h.find?_eq, h.find?_eq, answer]
  | reset extent => exact ⟨rfl, h.reset extent⟩
  | count kind => exact ⟨congrArg Answer.counted (h.count_eq kind), hkeep⟩

theorem perform_of_refused {op : Operation} {e : Error} (h : (s.perform op).1 = .refused e) :
    (s.perform op).2 = s := by
  cases op with
  | declare name type kind location =>
    cases hr : s.refusal? name kind <;> simp [Scopes.perform, Scopes.declare, hr] at h ⊢
  | resolve | reset | count => cases h

theorem run_append (s : Scopes) (ops later : List Operation) :
    s.run (ops ++ later) = s.run ops ++ (s.after ops).run later := by
  induction ops generalizing s with
  | nil => rfl
  | cons op ops ih => simp [run, after, ih]

theorem after_append (s : Scopes) (ops : List Operation) (op : Operation) :
    s.after (ops ++ [op]) = ((s.after ops).perform op).2 := by
  induction ops generalizing s with
  | nil => rfl
  | cons op' ops ih => exact ih _

theorem holds_after (ops : List Operation) :
    (empty.after ops).Holds (live (empty.run ops)) ∧ Orderly (live (empty.run ops)) := by
  induction ops using List.reverseRecOn with
  | nil => exact ⟨holds_empty, orderly_nil⟩
  | append_singleton ops op ih =>
    obtain ⟨hh, ho⟩ := ih
    obtain ⟨ha, hh⟩ := hh.perform op
    rw [after_append, run_append, run, run, live_append, ha]
    exact ⟨hh, ho.advance op⟩

theorem length_run (s : Scopes) (ops : List Operation) : (s.run ops).length = ops.length := by
  induction ops generalizing s with
  | nil => rfl
  | cons op ops ih => simp [run, ih]

/-- A declaration that is refused has no effect on what is answered later. -/
theorem run_of_refused {ops : List Operation} {op : Operation} {e : Error} (later : List Operation)
    (h : ((s.after ops).perform op).1 = .refused e) :
    s.run (ops ++ op :: later) =
      s.run ops ++ (op, .refused e) :: (s.run (ops ++ later)).drop ops.length := by
  rw [run_append, run, h, perform_of_refused h, run_append, ← length_run s ops, List.drop_left]

end Runs

/-- What is expected of new scopes when these operations have been performed on them. -/
structure Conforms (ops : List Operation) : Prop where
  answers : ∀ op, empty.run (ops ++ [op]) = empty.run ops ++ [(op, answer (live (empty.run ops)) op)]
  refused : ∀ op e later, answer (live (empty.run ops)) op = .refused e →
    empty.run (ops ++ op :: later) =
      empty.run ops ++ (op, .refused e) :: (empty.run (ops ++ later)).drop ops.length
  live_iff : ∀ v, v ∈ live (empty.run ops) ↔ ∃ before entry behind,
    empty.run ops = before ++ entry :: behind ∧ Declares entry v ∧
      ∀ later ∈ behind, later.1.clears v.kind.extent = false
  orderly : Orderly (live (empty.run ops))
  live_reset : live (empty.run (ops ++ [.reset .subroutine])) =
    (live (empty.run ops)).filter fun v => v.kind.extent = .class
  number_reset : ∀ kind, number (live (empty.run (ops ++ [.reset .subroutine]))) kind =
    if kind.extent = .class then number (live (empty.run ops)) kind else 0

/-- New scopes do what is expected of them, whatever is asked. -/
theorem run_conforms (ops : List Operation) : Conforms ops := by
  obtain ⟨hh, ho⟩ := holds_after ops
  have ha (op : Operation) : ((empty.after ops).perform op).1 = answer (live (empty.run ops)) op :=
    (hh.perform op).1
  have hr : live (empty.run (ops ++ [.reset .subroutine])) =
      (live (empty.run ops)).filter fun v => v.kind.extent = .class := by
    rw [run_append, run, run, live_append]
    refine List.filter_congr fun v _ => ?_
    cases hv : v.kind.extent <;> rfl
  refine ⟨fun op => ?_, fun op e later he => ?_, fun v => mem_live_iff, ho, hr, fun kind => ?_⟩
  · rw [run_append, run, run, ha]
  · exact run_of_refused later ((ha op).trans he)
  · rw [hr, number_filter fun extent => extent = .class]
    simp

end Jack.Scopes
