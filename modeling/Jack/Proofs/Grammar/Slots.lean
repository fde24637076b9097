import Jack.Proofs.Grammar.Bound

namespace Jack

/-- The variable that the first of the declarations by this name declares, if there are others
`before` them. -/
def Entry.find? (before : List Entry) : List Entry → String → Option Variable
  | [], _ => none
  | e :: es, x =>
    if e.name = x then some ⟨x, e.type, e.kind, before.countP (·.kind = e.kind)⟩
    else Entry.find? (before ++ [e]) es x

namespace Entry

variable {before before' es fs : List Entry} {x : String} {v : Variable}

theorem find?_append : find? before (es ++ fs) x = (find? before es x).or (find? (before ++ es) fs x) := by
  induction es generalizing before with
  | nil => simp [find?]
  | cons e es ih =>
    by_cases he : e.name = x
    · simp [find?, he]
    · simp [find?, he, ih]

theorem find?_eq_none (h : x ∉ es.map (·.name)) : find? before es x = none := by
  induction es generalizing before with
  | nil => rfl
  | cons e es ih =>
    rw [List.map_cons, List.mem_cons, not_or] at h
    rw [find?, if_neg (Ne.symm h.1), ih h.2]

theorem exists_find? (before : List Entry) (h : x ∈ es.map (·.name)) : ∃ v, find? before es x = some v := by
  induction es generalizing before with
  | nil => cases h
  | cons e es ih =>
    rw [find?]
    split
    next => exact ⟨_, rfl⟩
    next he => exact ih _ ((List.mem_cons.mp h).resolve_left (Ne.symm he))

/-- Of the declarations in front only the number of each kind matters. -/
theorem find?_congr (h : ∀ e ∈ es, before.countP (·.kind = e.kind) = before'.countP (·.kind = e.kind)) :
    find? before es x = find? before' es x := by
  induction es generalizing before before' with
  | nil => rfl
  | cons e es ih =>
    rw [List.forall_mem_cons] at h
    have hes : ∀ f ∈ es, (before ++ [e]).countP (·.kind = f.kind) =
        (before' ++ [e]).countP (·.kind = f.kind) := by
      intro f hf
      rw [List.countP_append, List.countP_append, h.2 f hf]
    rw [find?, find?, h.1, ih hes]

theorem slot_lt_of_find? (h : find? before es x = some v) :
    v.slot < (before ++ es).countP (·.kind = v.kind) := by
  induction es generalizing before with
  | nil => cases h
  | cons e es ih =>
    rw [find?] at h
    split at h
    next =>
      cases h
      simp
    next =>
      have := ih h
      rwa [List.append_assoc, List.singleton_append] at this

end Entry

namespace Scopes

def find? (s : Scopes) : Extent → String → Option Variable
  | .class, x => s.ofClass[x]?
  | .subroutine, x => s.ofSubroutine[x]?

variable {s s' : Scopes} {es before : List Entry} {extent : Extent}

theorem resolve?_eq_or (s : Scopes) (x : String) :
    s.resolve? x = (s.find? .subroutine x).or (s.find? .class x) := rfl

theorem find?_insert (s : Scopes) (name type : String) (kind : VariableKind) (extent : Extent)
    (x : String) :
    (s.insert name type kind).find? extent x =
      if kind.extent = extent ∧ name = x then some ⟨name, type, kind, s.count kind⟩
      else s.find? extent x := by
  cases kind <;> cases extent <;>
    simp [find?, insert, count, VariableKind.extent, Std.HashMap.getElem?_insert]

/-- What names stand for once they have been declared. -/
theorem find?_enterAll (h : s.enterAll es = some s') (hes : ∀ e ∈ es, e.kind.extent = extent)
    (hn : (es.map (·.name)).Nodup)
    (hb : ∀ k : VariableKind, k.extent = extent → s.count k = before.countP (·.kind = k))
    (x : String) : s'.find? extent x = (Entry.find? before es x).or (s.find? extent x) := by
  induction es generalizing s before with
  | nil =>
    cases h
    rfl
  | cons e es ih =>
    rw [enterAll_cons, Option.bind_eq_some_iff] at h
    obtain ⟨t, ht, h⟩ := h
    obtain ⟨-, -, rfl⟩ := enter?_eq_some_iff.mp ht
    obtain ⟨he, hes⟩ := List.forall_mem_cons.mp hes
    obtain ⟨hne, hn⟩ := List.nodup_cons.mp hn
    have hb' (k : VariableKind) (hk : k.extent = extent) :
        (s.insert e.name e.type e.kind).count k = (before ++ [e]).countP (·.kind = k) := by
      rw [count_insert, hb k hk, List.countP_append, List.countP_singleton]
      simp [eq_comm]
    rw [ih h hes hn hb', find?_insert, Entry.find?]
    by_cases hx : e.name = x
    · subst hx
      rw [Entry.find?_eq_none hne, if_pos ⟨he, rfl⟩, if_pos rfl, hb _ he]
      rfl
    · rw [if_neg fun hc => hx hc.2, if_neg hx]

theorem find?_enterAll_of_ne {other : Extent} (h : s.enterAll es = some s')
    (hes : ∀ e ∈ es, e.kind.extent ≠ other) (x : String) : s'.find? other x = s.find? other x := by
  induction es generalizing s with
  | nil =>
    cases h
    rfl
  | cons e es ih =>
    rw [enterAll_cons, Option.bind_eq_some_iff] at h
    obtain ⟨t, ht, h⟩ := h
    obtain ⟨-, -, rfl⟩ := enter?_eq_some_iff.mp ht
    obtain ⟨he, hes⟩ := List.forall_mem_cons.mp hes
    rw [ih h hes, find?_insert, if_neg fun hc => he hc.1]

end Scopes

namespace Grammar

variable {c : Class} {s : Subroutine} {scopes scopes' : Scopes} {x : String} {v : Variable}

/-- The variable that a name stands for in a subroutine of the class. -/
def Class.find? (c : Class) (s : Subroutine) (x : String) : Option Variable :=
  Entry.find? [] (s.entries c.name ++ c.entries) x

theorem Subroutine.countP_entries_of_class (className : String) (s : Subroutine) {kind : VariableKind}
    (hk : kind.extent = .class) : (s.entries className).countP (·.kind = kind) = 0 := by
  rw [List.countP_eq_zero]
  intro e he h
  have hs := s.extent_of_mem_entries he
  rw [of_decide_eq_true h, hk] at hs
  cases hs

theorem Class.countP_entries_of_subroutine (c : Class) {kind : VariableKind}
    (hk : kind.extent = .subroutine) : c.entries.countP (·.kind = kind) = 0 := by
  rw [List.countP_eq_zero]
  intro e he h
  have hs := c.extent_of_mem_entries he
  rw [of_decide_eq_true h, hk] at hs
  cases hs

theorem Subroutine.resolve?_eq_find? (hc : Scopes.empty.enterAll c.entries = some scopes)
    (hs : scopes.leaveSubroutine.enterAll (s.entries c.name) = some scopes') (x : String) :
    scopes'.resolve? x = c.find? s x := by
  obtain ⟨hcn, -⟩ := c.isSome_enterAll_entries.mp (Option.isSome_of_eq_some hc)
  obtain ⟨hsn, -⟩ := (s.isSome_enterAll_entries scopes c.name).mp (Option.isSome_of_eq_some hs)
  have he : Entry.find? [] c.entries x = Entry.find? (s.entries c.name) c.entries x := by
    refine Entry.find?_congr fun e he => ?_
    rw [s.countP_entries_of_class c.name (c.extent_of_mem_entries he)]
    rfl
  have hsub : scopes'.find? .subroutine x = Entry.find? [] (s.entries c.name) x := by
    have h₀ (k : VariableKind) (hk : k.extent = .subroutine) :
        scopes.leaveSubroutine.count k = ([] : List Entry).countP (·.kind = k) := by
      simp [Scopes.count_leaveSubroutine, hk]
    rw [Scopes.find?_enterAll hs (fun _ => s.extent_of_mem_entries) hsn h₀]
    simp [Scopes.find?, Scopes.leaveSubroutine]
  have hcls : scopes'.find? .class x = Entry.find? [] c.entries x := by
    have h₀ (k : VariableKind) (hk : k.extent = .class) :
        Scopes.empty.count k = ([] : List Entry).countP (·.kind = k) := by
      cases k <;> rfl
    have hne : ∀ e ∈ s.entries c.name, e.kind.extent ≠ .class := fun e he => by
      simp [s.extent_of_mem_entries he]
    rw [Scopes.find?_enterAll_of_ne hs hne]
    have := Scopes.find?_enterAll hc (fun _ => c.extent_of_mem_entries) hcn h₀ x
    simpa [Scopes.find?, Scopes.leaveSubroutine, Scopes.empty] using this
  rw [Scopes.resolve?_eq_or, hsub, hcls, he, Class.find?, Entry.find?_append, List.nil_append]

theorem Class.slot_lt (h : c.find? s x = some v) :
    v.slot < (s.entries c.name).countP (·.kind = v.kind) + c.entries.countP (·.kind = v.kind) := by
  have h := Entry.slot_lt_of_find? h
  rwa [List.nil_append, List.countP_append] at h

def Class.names (c : Class) (kind : ClassVariable) : List String :=
  (c.declarations.filter (·.1 = kind)).flatMap (·.2.names)

/-- How many words of each segment are there for the code of a subroutine. -/
def Class.room (c : Class) (s : Subroutine) : VM.Segment → Nat
  | .local => (s.locals.flatMap (·.names)).length
  | .argument => s.parameters.length + if s.kind = .method then 1 else 0
  | .static => (c.names .static).length
  | .this => (c.names .field).length
  | .that | .temp => 1
  | .pointer => 2
  | .constant => 0

theorem Class.length_names (c : Class) (kind : ClassVariable) :
    (c.names kind).length = c.entries.countP (·.kind = kind.kind) := by
  rw [Class.names, Class.entries]
  induction c.declarations with
  | nil => rfl
  | cons d ds ih =>
    have hk : d.1.kind = kind.kind ↔ d.1 = kind := by
      cases d.1 <;> cases kind <;> decide
    rw [List.flatMap_cons, List.countP_append, Variables.countP_entries, ← ih]
    by_cases h : d.1 = kind <;> simp [h, hk]

theorem countP_flatMap_entries (kind k : VariableKind) (ds : List Variables) :
    (ds.flatMap (·.entries kind)).countP (·.kind = k) =
      if kind = k then (ds.flatMap (·.names)).length else 0 := by
  induction ds with
  | nil => simp
  | cons d ds ih =>
    rw [List.flatMap_cons, List.countP_append, Variables.countP_entries, ih]
    by_cases h : kind = k <;> simp [h]

theorem Subroutine.total_locals (s : Subroutine) :
    Declaration.total (s.locals.map (·.declaration .local)) =
      (s.locals.flatMap (·.names)).length := by
  rw [Declaration.total, List.flatMap_map]
  rfl

theorem Subroutine.countP_entries_local (className : String) (s : Subroutine) :
    (s.entries className).countP (·.kind = .local) = (s.locals.flatMap (·.names)).length := by
  cases hk : s.kind <;>
    simp [Subroutine.entries, countP_flatMap_entries, receiverEntry, hk, Function.comp_def,
      parameterEntry]

theorem Subroutine.countP_entries_argument (className : String) (s : Subroutine) :
    (s.entries className).countP (·.kind = .argument) =
      s.parameters.length + if s.kind = .method then 1 else 0 := by
  cases hk : s.kind <;>
    simp [Subroutine.entries, countP_flatMap_entries, receiverEntry, hk, Function.comp_def,
      parameterEntry]

theorem Class.slot_lt_room (h : c.find? s x = some v) : v.slot < c.room s v.segment := by
  have hl := c.slot_lt h
  rw [Variable.segment]
  cases hk : v.kind <;> rw [hk] at hl
  case static =>
    rw [s.countP_entries_of_class c.name rfl, Nat.zero_add] at hl
    exact Nat.lt_of_lt_of_eq hl (c.length_names .static).symm
  case field =>
    rw [s.countP_entries_of_class c.name rfl, Nat.zero_add] at hl
    exact Nat.lt_of_lt_of_eq hl (c.length_names .field).symm
  case argument =>
    rwa [c.countP_entries_of_subroutine rfl, Nat.add_zero, s.countP_entries_argument] at hl
  case «local» =>
    rwa [c.countP_entries_of_subroutine rfl, Nat.add_zero, s.countP_entries_local] at hl

end Grammar

end Jack
