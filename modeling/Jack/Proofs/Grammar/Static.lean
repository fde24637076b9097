import Jack.Proofs.Grammar.Resolve

namespace Jack

namespace Scopes

variable {s s' : Scopes} {e : Entry} {es : List Entry} {extent : Extent}

theorem enter?_eq_some_iff :
    s.enter? e = some s' ↔
      s.declares e.kind e.name = false ∧ s.count e.kind < maxSlots ∧
        s.insert e.name e.type e.kind = s' := by
  unfold enter? refusal?
  cases hd : s.declares e.kind e.name with
  | true => simp
  | false =>
    by_cases hc : maxSlots ≤ s.count e.kind
    · simp [hc, Nat.not_lt.mpr hc]
    · simp [hc, Nat.not_le.mp hc]

/-- Names of one extent can be declared one after the other if no two of them are equal, none is
taken, and there is room for all. -/
theorem enterAll_isSome_iff (hes : ∀ e ∈ es, e.kind.extent = extent)
    (hs : ∀ k : VariableKind, k.extent = extent → s.count k ≤ maxSlots) :
    (s.enterAll es).isSome ↔
      (es.map (·.name)).Nodup ∧ (∀ e ∈ es, s.declares e.kind e.name = false) ∧
        ∀ k : VariableKind, k.extent = extent → s.count k + es.countP (·.kind = k) ≤ maxSlots := by
  induction es generalizing s with
  | nil => simpa using hs
  | cons e es ih =>
    have he : e.kind.extent = extent := hes e List.mem_cons_self
    have hes' (f : Entry) (hf : f ∈ es) : f.kind.extent = extent :=
      hes f (List.mem_cons_of_mem _ hf)
    have hd (f : Entry) (hf : f ∈ es) :
        (s.insert e.name e.type e.kind).declares f.kind f.name = false ↔
          e.name ≠ f.name ∧ s.declares f.kind f.name = false := by
      rw [declares_insert, hes' f hf, he]
      simp
    have hc (k : VariableKind) : (s.insert e.name e.type e.kind).count k + es.countP (·.kind = k) =
        s.count k + (e :: es).countP (·.kind = k) := by
      rw [count_insert, List.countP_cons]
      by_cases hk : k = e.kind
      · simp [hk]
        omega
      · simp [hk, Ne.symm hk]
    have hs₁ (hlt : s.count e.kind < maxSlots) (k : VariableKind) (hk : k.extent = extent) :
        (s.insert e.name e.type e.kind).count k ≤ maxSlots := by
      have := hs k hk
      rw [count_insert]
      split
      next h => rw [h]; omega
      next => omega
    rw [enterAll_cons, Option.isSome_iff_exists]
    simp only [Option.bind_eq_some_iff, enter?_eq_some_iff, List.map_cons, List.nodup_cons,
      List.forall_mem_cons, List.mem_map, not_exists, not_and]
    constructor
    · rintro ⟨s', _, ⟨hn, hlt, rfl⟩, hs'⟩
      obtain ⟨hnodup, hfresh, hroom⟩ := (ih hes' (hs₁ hlt)).mp (Option.isSome_iff_exists.mpr ⟨s', hs'⟩)
      refine ⟨⟨fun f hf h => ((hd f hf).mp (hfresh f hf)).1 h.symm, hnodup⟩,
        ⟨hn, fun f hf => ((hd f hf).mp (hfresh f hf)).2⟩, fun k hk => ?_⟩
      rw [← hc k]
      exact hroom k hk
    · rintro ⟨⟨hne, hnodup⟩, ⟨hn, hfresh⟩, hroom⟩
      have hlt : s.count e.kind < maxSlots := by
        have := hroom e.kind he
        simp only [List.countP_cons, decide_true, if_true] at this
        omega
      have hi := (ih hes' (hs₁ hlt)).mpr ⟨hnodup, fun f hf =>
        (hd f hf).mpr ⟨fun h => hne f hf h.symm, hfresh f hf⟩, fun k hk => hc k ▸ hroom k hk⟩
      obtain ⟨s', hs'⟩ := Option.isSome_iff_exists.mp hi
      exact ⟨s', _, ⟨hn, hlt, rfl⟩, hs'⟩

theorem isSome_resolve?_insert (s : Scopes) (name type : String) (kind : VariableKind) (x : String) :
    ((s.insert name type kind).resolve? x).isSome ↔ name = x ∨ (s.resolve? x).isSome := by
  cases hk : kind.extent with
  | subroutine =>
    rw [resolve?_insert_of_subroutine s name type hk]
    by_cases hx : name = x <;> simp [hx]
  | «class» =>
    rw [resolve?_insert_of_class s name type hk, resolve?]
    by_cases hx : name = x <;> cases s.ofSubroutine[x]? <;> simp [hx]

theorem isSome_resolve?_enterAll (h : s.enterAll es = some s') (x : String) :
    (s'.resolve? x).isSome ↔ x ∈ es.map (·.name) ∨ (s.resolve? x).isSome := by
  induction es generalizing s with
  | nil =>
    cases h
    simp
  | cons e es ih =>
    rw [enterAll_cons, Option.bind_eq_some_iff] at h
    obtain ⟨t, ht, h⟩ := h
    obtain ⟨-, -, rfl⟩ := enter?_eq_some_iff.mp ht
    rw [ih h, isSome_resolve?_insert]
    simp only [List.map_cons, List.mem_cons, or_assoc, or_left_comm, @eq_comm _ x]

theorem leaveSubroutine_insert (s : Scopes) (name type : String) {kind : VariableKind}
    (h : kind.extent = .class) :
    (s.insert name type kind).leaveSubroutine = s.leaveSubroutine.insert name type kind := by
  cases kind with
  | static | field => rfl
  | argument | «local» => cases h

theorem isSome_resolve?_leaveSubroutine (hes : ∀ e ∈ es, e.kind.extent = .class)
    (h : s.enterAll es = some s') (x : String) :
    (s'.leaveSubroutine.resolve? x).isSome ↔
      x ∈ es.map (·.name) ∨ (s.leaveSubroutine.resolve? x).isSome := by
  induction es generalizing s with
  | nil =>
    cases h
    simp
  | cons e es ih =>
    rw [enterAll_cons, Option.bind_eq_some_iff] at h
    obtain ⟨t, ht, h⟩ := h
    obtain ⟨-, -, rfl⟩ := enter?_eq_some_iff.mp ht
    rw [ih (fun f hf => hes f (List.mem_cons_of_mem _ hf)) h,
      leaveSubroutine_insert s _ _ (hes e List.mem_cons_self), isSome_resolve?_insert]
    simp only [List.map_cons, List.mem_cons, or_assoc, or_left_comm, @eq_comm _ x]

/-- Nothing of the extent has been declared yet. -/
structure Fresh (s : Scopes) (extent : Extent) : Prop where
  declares : ∀ (k : VariableKind) x, k.extent = extent → s.declares k x = false
  count : ∀ k : VariableKind, k.extent = extent → s.count k = 0

theorem fresh_empty : empty.Fresh .class where
  declares k x hk := by cases k <;> simp [Scopes.declares, VariableKind.extent, empty]
  count k _ := by cases k <;> rfl

theorem fresh_leaveSubroutine (s : Scopes) : s.leaveSubroutine.Fresh .subroutine where
  declares k x hk := by simp [Scopes.declares, leaveSubroutine, hk]
  count k hk := by simp [count_leaveSubroutine, hk]

theorem Fresh.isSome_enterAll_iff (hs : s.Fresh extent) (hes : ∀ e ∈ es, e.kind.extent = extent) :
    (s.enterAll es).isSome ↔
      (es.map (·.name)).Nodup ∧ ∀ k, es.countP (·.kind = k) ≤ maxSlots := by
  obtain ⟨hd, hc⟩ := hs
  rw [enterAll_isSome_iff hes fun k hk => by simp [hc k hk]]
  constructor
  · rintro ⟨hn, -, hroom⟩
    refine ⟨hn, fun k => ?_⟩
    by_cases hk : k.extent = extent
    · simpa [hc k hk] using hroom k hk
    · have hz : es.countP (·.kind = k) = 0 := by
        rw [List.countP_eq_zero]
        intro e he h
        exact hk (of_decide_eq_true h ▸ hes e he)
      simp [hz]
  · rintro ⟨hn, hroom⟩
    exact ⟨hn, fun e he => hd _ _ (hes e he), fun k hk => by simpa [hc k hk] using hroom k⟩

end Scopes

/-- Does the name stand for a variable? -/
def Names.Knows (names : Names) (x : String) : Prop :=
  (names.scopes.resolve? x).isSome

namespace Grammar

/-- What the conditions are about: constants, and names that stand for variables. -/
inductive Leaf where
  | integer (value : Nat)
  | string (text : String)
  | name (x : String)

def Leaf.Valid (declared : String → Prop) : Leaf → Prop
  | .integer value => value ≤ maxConstant
  | .string text => (∀ c ∈ text.toList, c.toNat < 128) ∧ text.length ≤ maxConstant
  | .name x => declared x

mutual

def Term.leaves : Term → List Leaf
  | .integer value => [.integer value]
  | .string text => [.string text]
  | .constant _ => []
  | .name x => [.name x]
  | .element x index => .name x :: index.leaves
  | .call _ arguments => Expression.leavesAll arguments
  | .group inner => inner.leaves
  | .unary _ operand => operand.leaves
termination_by structural t => t

def Expression.leaves : Expression → List Leaf
  | .chain first rest => first.leaves ++ Expression.leavesRest rest
termination_by structural e => e

def Expression.leavesRest : List (BinaryOp × Term) → List Leaf
  | [] => []
  | (_, operand) :: rest => operand.leaves ++ Expression.leavesRest rest
termination_by structural rest => rest

def Expression.leavesAll : List Expression → List Leaf
  | [] => []
  | e :: es => e.leaves ++ Expression.leavesAll es
termination_by structural es => es

end

mutual

def Statement.leaves : Statement → List Leaf
  | .assign x value => .name x :: value.leaves
  | .store x index value => .name x :: (index.leaves ++ value.leaves)
  | .ifThen condition yes => condition.leaves ++ Statement.leavesAll yes
  | .ifElse condition yes no =>
    condition.leaves ++ (Statement.leavesAll yes ++ Statement.leavesAll no)
  | .while condition body => condition.leaves ++ Statement.leavesAll body
  | .do _ arguments => Expression.leavesAll arguments
  | .return none => []
  | .return (some value) => value.leaves

def Statement.leavesAll : List Statement → List Leaf
  | [] => []
  | s :: ss => s.leaves ++ Statement.leavesAll ss

end

theorem stringFault?_eq_none_iff {text : String} :
    Parse.stringFault? text = none ↔
      (∀ c ∈ text.toList, c.toNat < 128) ∧ text.length ≤ maxConstant := by
  unfold Parse.stringFault?
  cases h : text.toList.find? (128 ≤ ·.toNat) with
  | some c =>
    have hc := List.find?_some h
    have hm := List.mem_of_find?_eq_some h
    simp only [decide_eq_true_eq] at hc
    simp only [reduceCtorEq, false_iff, not_and]
    exact fun ha => absurd (ha c hm) (Nat.not_lt.mpr hc)
  | none =>
    rw [List.find?_eq_none] at h
    have ha : ∀ c ∈ text.toList, c.toNat < 128 := by simpa using h
    simpa using fun _ => ha

variable {names : Names}

mutual

theorem Term.isSome_resolve (s : Term) :
    (s.resolve names).isSome ↔ ∀ l ∈ s.leaves, l.Valid names.Knows := by
  cases s with
  | integer value => simp [Term.resolve, Term.leaves, Leaf.Valid]
  | string text => simp [Term.resolve, Term.leaves, Leaf.Valid, stringFault?_eq_none_iff]
  | constant value => simp [Term.resolve, Term.leaves]
  | name x => simp [Term.resolve, Term.leaves, Leaf.Valid, Names.Knows]
  | element x index =>
    rw [Term.resolve, isSome_bind₂, index.isSome_resolve, Term.leaves, List.forall_mem_cons]
    rfl
  | call called arguments =>
    simp [Term.resolve, Term.leaves, Expression.isSome_resolveAll arguments]
  | group inner => simp [Term.resolve, Term.leaves, inner.isSome_resolve]
  | unary op operand => simp [Term.resolve, Term.leaves, operand.isSome_resolve]

theorem Expression.isSome_resolve (s : Expression) :
    (s.resolve names).isSome ↔ ∀ l ∈ s.leaves, l.Valid names.Knows := by
  obtain ⟨first, rest⟩ := s
  rw [Expression.resolve, isSome_bind₂, first.isSome_resolve, Expression.isSome_resolveRest rest,
    Expression.leaves, List.forall_mem_append]

theorem Expression.isSome_resolveRest (ss : List (BinaryOp × Term)) :
    (Expression.resolveRest names ss).isSome ↔
      ∀ l ∈ Expression.leavesRest ss, l.Valid names.Knows := by
  match ss with
  | [] => simp [Expression.resolveRest, Expression.leavesRest]
  | (op, s) :: ss =>
    rw [Expression.resolveRest, isSome_bind₂, s.isSome_resolve, Expression.isSome_resolveRest ss,
      Expression.leavesRest, List.forall_mem_append]

theorem Expression.isSome_resolveAll (ss : List Expression) :
    (Expression.resolveAll names ss).isSome ↔
      ∀ l ∈ Expression.leavesAll ss, l.Valid names.Knows := by
  match ss with
  | [] => simp [Expression.resolveAll, Expression.leavesAll]
  | s :: ss =>
    rw [Expression.resolveAll, isSome_bind₂, s.isSome_resolve, Expression.isSome_resolveAll ss,
      Expression.leavesAll, List.forall_mem_append]

end

mutual

theorem Statement.isSome_resolve (s : Statement) :
    (s.resolve names).isSome ↔ ∀ l ∈ s.leaves, l.Valid names.Knows := by
  cases s with
  | assign x value =>
    rw [Statement.resolve, isSome_bind₂, value.isSome_resolve, Statement.leaves,
      List.forall_mem_cons]
    rfl
  | store x index value =>
    rw [Statement.resolve, isSome_bind₃, index.isSome_resolve, value.isSome_resolve,
      Statement.leaves, List.forall_mem_cons, List.forall_mem_append]
    rfl
  | ifThen condition yes =>
    rw [Statement.resolve, isSome_bind₂, condition.isSome_resolve,
      Statement.isSome_resolveAll yes, Statement.leaves, List.forall_mem_append]
  | ifElse condition yes no =>
    rw [Statement.resolve, isSome_bind₃, condition.isSome_resolve, Statement.isSome_resolveAll yes,
      Statement.isSome_resolveAll no, Statement.leaves, List.forall_mem_append,
      List.forall_mem_append]
  | «while» condition body =>
    rw [Statement.resolve, isSome_bind₂, condition.isSome_resolve,
      Statement.isSome_resolveAll body, Statement.leaves, List.forall_mem_append]
  | «do» called arguments =>
    simp [Statement.resolve, Statement.leaves, Expression.isSome_resolveAll arguments]
  | «return» value => cases value with
    | none => simp [Statement.resolve, Statement.leaves]
    | some value => simp [Statement.resolve, Statement.leaves, value.isSome_resolve]

theorem Statement.isSome_resolveAll (ss : List Statement) :
    (Statement.resolveAll names ss).isSome ↔
      ∀ l ∈ Statement.leavesAll ss, l.Valid names.Knows := by
  match ss with
  | [] => simp [Statement.resolveAll, Statement.leavesAll]
  | s :: ss =>
    rw [Statement.resolveAll, isSome_bind₂, s.isSome_resolve, Statement.isSome_resolveAll ss,
      Statement.leavesAll, List.forall_mem_append]

end

/-- The conditions on a subroutine of the class `c`. -/
structure Subroutine.Static (c : Class) (s : Subroutine) : Prop where
  distinct : ((s.entries c.name).map (·.name)).Nodup
  room : ∀ kind, (s.entries c.name).countP (·.kind = kind) ≤ maxSlots
  valid : ∀ l ∈ Statement.leavesAll s.body, l.Valid fun x =>
    x ∈ (s.entries c.name).map (·.name) ∨ x ∈ c.entries.map (·.name)

structure Class.Static (c : Class) : Prop where
  distinct : (c.entries.map (·.name)).Nodup
  room : ∀ kind, c.entries.countP (·.kind = kind) ≤ maxSlots
  subroutines : ∀ s ∈ c.subroutines, s.Static c

variable {c : Class} {scopes : Scopes}

theorem Class.extent_of_mem_entries {e : Entry} (h : e ∈ c.entries) :
    e.kind.extent = .class := by
  simp only [Class.entries, Variables.entries, List.mem_flatMap, List.mem_map] at h
  obtain ⟨⟨k, d⟩, -, x, -, rfl⟩ := h
  cases k <;> rfl

theorem Subroutine.extent_of_mem_entries {className : String} {s : Subroutine} {e : Entry}
    (h : e ∈ s.entries className) : e.kind.extent = .subroutine := by
  simp only [Subroutine.entries, List.mem_append, List.mem_map, List.mem_flatMap,
    Variables.entries] at h
  obtain (h | ⟨p, -, rfl⟩) | ⟨d, -, x, -, rfl⟩ := h
  · cases hk : s.kind <;> simp [receiverEntry, hk] at h
    rw [h]
    rfl
  · rfl
  · rfl

theorem isSome_mapM {α β : Type} {f : α → Option β} {xs : List α} :
    (xs.mapM f).isSome ↔ ∀ x ∈ xs, (f x).isSome := by
  induction xs with
  | nil => simp
  | cons x xs ih =>
    rw [List.mapM_cons, List.forall_mem_cons, ← ih]
    exact isSome_bind₂

theorem Class.isSome_enterAll_entries (c : Class) :
    (Scopes.empty.enterAll c.entries).isSome ↔
      (c.entries.map (·.name)).Nodup ∧ ∀ kind, c.entries.countP (·.kind = kind) ≤ maxSlots :=
  Scopes.fresh_empty.isSome_enterAll_iff fun _ => c.extent_of_mem_entries

theorem Subroutine.isSome_enterAll_entries (scopes : Scopes) (className : String) (s : Subroutine) :
    (scopes.leaveSubroutine.enterAll (s.entries className)).isSome ↔
      ((s.entries className).map (·.name)).Nodup ∧
        ∀ kind, (s.entries className).countP (·.kind = kind) ≤ maxSlots :=
  (Scopes.fresh_leaveSubroutine scopes).isSome_enterAll_iff fun _ => s.extent_of_mem_entries

theorem Subroutine.knows_iff (hc : Scopes.empty.enterAll c.entries = some scopes) {s : Subroutine}
    {scopes' : Scopes} (hs : scopes.leaveSubroutine.enterAll (s.entries c.name) = some scopes') :
    Names.Knows ⟨c.name, scopes'⟩ = fun x =>
      x ∈ (s.entries c.name).map (·.name) ∨ x ∈ c.entries.map (·.name) := by
  funext x
  have hx := Scopes.isSome_resolve?_leaveSubroutine (fun _ => c.extent_of_mem_entries) hc x
  have he : (Scopes.empty.leaveSubroutine.resolve? x).isSome = false := by
    simp [Scopes.resolve?_leaveSubroutine, Scopes.empty]
  rw [Names.Knows, Scopes.isSome_resolve?_enterAll hs, hx, he]
  simp

theorem Subroutine.isSome_resolve (hc : Scopes.empty.enterAll c.entries = some scopes)
    (s : Subroutine) : (s.resolve c.name scopes).isSome ↔ s.Static c := by
  have hs := s.isSome_enterAll_entries scopes c.name
  have hb {scopes' : Scopes} (h : scopes.leaveSubroutine.enterAll (s.entries c.name) = some scopes') :
      (Statement.resolveAll ⟨c.name, scopes'⟩ s.body).isSome ↔ ∀ l ∈ Statement.leavesAll s.body,
        l.Valid fun x => x ∈ (s.entries c.name).map (·.name) ∨ x ∈ c.entries.map (·.name) := by
    rw [Statement.isSome_resolveAll, Subroutine.knows_iff hc h]
  simp only [Option.isSome_iff_exists] at hs hb ⊢
  constructor
  · rintro ⟨r, hr⟩
    obtain ⟨scopes', h, body, hbody, -⟩ := resolve_eq_some_iff.mp hr
    obtain ⟨hd, hr⟩ := hs.mp ⟨scopes', h⟩
    exact ⟨hd, hr, (hb h).mp ⟨body, hbody⟩⟩
  · intro hst
    obtain ⟨scopes', h⟩ := hs.mpr ⟨hst.distinct, hst.room⟩
    obtain ⟨body, hbody⟩ := (hb h).mpr hst.valid
    exact ⟨_, resolve_eq_some_iff.mpr ⟨scopes', h, body, hbody, rfl⟩⟩

theorem Class.isSome_resolve (c : Class) : c.resolve.isSome ↔ c.Static := by
  have hc := c.isSome_enterAll_entries
  have hs {scopes : Scopes} (h : Scopes.empty.enterAll c.entries = some scopes) :
      (c.subroutines.mapM (Subroutine.resolve c.name scopes)).isSome ↔
        ∀ s ∈ c.subroutines, s.Static c := by
    rw [isSome_mapM]
    exact forall₂_congr fun s _ => s.isSome_resolve h
  simp only [Option.isSome_iff_exists] at hc hs ⊢
  constructor
  · rintro ⟨r, hr⟩
    obtain ⟨scopes, h, ss, hss, -⟩ := resolve_eq_some_iff.mp hr
    obtain ⟨hd, hr⟩ := hc.mp ⟨scopes, h⟩
    exact ⟨hd, hr, (hs h).mp ⟨ss, hss⟩⟩
  · intro hst
    obtain ⟨scopes, h⟩ := hc.mpr ⟨hst.distinct, hst.room⟩
    obtain ⟨ss, hss⟩ := (hs h).mpr hst.subroutines
    exact ⟨_, resolve_eq_some_iff.mpr ⟨scopes, h, ss, hss, rfl⟩⟩

end Grammar

end Jack
