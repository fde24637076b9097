import Jack.Proofs.Grammar.Bound
import Jack.Proofs.Language
import Std.Data.String.ToNat

namespace Jack

open VM (Command)

def VM.Command.Fits (P : Nat → Prop) (c : Command) : Prop :=
  ∀ n, c = .push .constant n → P n

variable {P : Nat → Prop} {names : Names} {c : Command}

theorem VM.Command.Fits.mono {Q : Nat → Prop} (h : c.Fits P) (hPQ : ∀ n, P n → Q n) : c.Fits Q :=
  fun n hn => hPQ n (h n hn)

abbrev Representable (n : Nat) : Prop := n ≤ maxConstant

theorem fits_glue : ∀ c ∈ glue, c.Fits Representable := by
  simp [glue, Command.Fits]

theorem fits_of_joint (h : c.IsJoint) : c.Fits Representable := by
  rintro n rfl
  exact h.elim

theorem fits_stringCode {text : String} (h : Parse.stringFault? text = none) :
    ∀ c ∈ stringCode text, c.Fits Representable := by
  obtain ⟨hascii, hlength⟩ := Grammar.stringFault?_eq_none_iff.mp h
  intro c hc n hn
  simp only [stringCode, List.mem_cons, List.mem_flatMap, List.not_mem_nil, or_false] at hc
  obtain rfl | rfl | ⟨x, hx, rfl | rfl⟩ := hc
  · cases hn
    exact hlength
  · cases hn
  · cases hn
    have := hascii x hx
    unfold Representable maxConstant
    omega
  · cases hn

theorem Variable.fits_push (v : Variable) : v.push.Fits Representable := by
  intro n hn
  cases hk : v.kind <;> simp [Variable.push, Variable.segment, VariableKind.segment, hk] at hn

theorem Variable.fits_pop (v : Variable) : v.pop.Fits Representable := by
  intro n hn
  cases hn

theorem Callee.fits_receiver (f : Callee) : ∀ c ∈ f.receiver, c.Fits Representable := by
  cases f with
  | own owner name => simp [Callee.receiver, Command.Fits]
  | method receiver name => simpa [Callee.receiver] using receiver.fits_push
  | function owner name => simp [Callee.receiver]

theorem Leaf.Bound.fits {l : Leaf} (hl : l.Bound names) (h : l.Brings c) : c.Fits Representable := by
  cases l with
  | integer value =>
    rintro n rfl
    cases h
    exact hl
  | string text => exact fits_stringCode hl c h
  | «variable» v =>
    cases h
    exact v.fits_push
  | callee f =>
    obtain h | ⟨n, rfl⟩ := h
    · exact f.fits_receiver c h
    · intro n hn
      cases hn

theorem Leaf.Explain.fits {ls : List Leaf} (hls : ∀ l ∈ ls, l.Bound names) (h : Leaf.Explain ls c) :
    c.Fits Representable := by
  obtain hg | hj | ⟨l, hl, hb | ⟨v, -, rfl⟩⟩ := h
  · exact fits_glue c hg
  · exact fits_of_joint hj
  · exact (hls l hl).fits hb
  · exact v.fits_pop

theorem SubroutineKind.fits_prologue {fields : Nat} (kind : SubroutineKind) :
    (∀ c ∈ kind.prologue fields, c.Fits P) ↔ (kind = .constructor → P fields) := by
  cases kind <;> simp [SubroutineKind.prologue, Command.Fits]

theorem Class.push_fields_mem_code (c : Class) {s : Subroutine} (hs : s ∈ c.subroutines)
    (hk : s.kind = .constructor) : .push .constant c.fields ∈ c.code := by
  refine List.mem_flatMap.mpr ⟨s, hs, ?_⟩
  simp [Subroutine.code, SubroutineKind.prologue, hk]

namespace Grammar

/-- The body of a subroutine pushes checked constants only. What may be too large is the size of the
objects that a constructor makes. -/
theorem Subroutine.fits_code {className : String} {scopes : Scopes} {s : Subroutine}
    {r : Jack.Subroutine} (h : s.resolve className scopes = some r) {fields : Nat}
    (hP : ∀ n ≤ maxConstant, P n) :
    (∀ c ∈ r.code className fields, c.Fits P) ↔ (r.kind = .constructor → P fields) := by
  obtain ⟨scopes', -, body, hb, rfl⟩ := Subroutine.resolve_eq_some_iff.mp h
  have hbody : ∀ c ∈ (Statement.codeAll .zero body).1, c.Fits P := fun c hc =>
    ((Statement.leaves_explain_all _ body c hc).fits (Statement.bound_all hb)).mono hP
  have hfunction (name : String) (k : Nat) : (Command.function name k).Fits P := by
    intro n hn
    cases hn
  rw [Jack.Subroutine.code, List.forall_mem_cons, List.forall_mem_append, s.kind.fits_prologue]
  exact ⟨fun hc => hc.2.1, fun hc => ⟨hfunction _ _, hc, hbody⟩⟩

theorem Class.fits_code {c : Class} {r : Jack.Class} (h : c.resolve = some r)
    (hP : ∀ n ≤ maxConstant, P n) :
    (∀ c ∈ r.code, c.Fits P) ↔
      ∀ s ∈ r.subroutines, s.kind = .constructor → P r.fields := by
  obtain ⟨scopes, -, ss, hss, rfl⟩ := Class.resolve_eq_some_iff.mp h
  simp only [Jack.Class.code, List.mem_flatMap, forall_exists_index, and_imp]
  constructor
  · intro hc s hs
    obtain ⟨s', -, hs'⟩ := (mem_mapM_iff hss).mp hs
    exact (Subroutine.fits_code hs' hP).mp fun c => hc c s hs
  · intro hc c s hs
    obtain ⟨s', -, hs'⟩ := (mem_mapM_iff hss).mp hs
    exact (Subroutine.fits_code hs' hP).mpr (hc s hs) c

end Grammar

theorem pushes_iff_fits {cs : List Command} :
    (∀ n, .push .constant n ∈ cs → P n) ↔ ∀ c ∈ cs, c.Fits P := by
  constructor
  · rintro h c hc n rfl
    exact h n hc
  · exact fun h n hn => h _ hn n rfl

/-- Of the constants that the code of a class pushes, only the number of its fields may be too large
for the machine. All of them fit just if that number does, or no constructor makes objects. -/
theorem constants_fit_iff {recorded : Bool} {items : Array Item} {p : Compiled}
    (h : compileItems recorded items = .ok p) :
    ∃ w c v, Window.ofItems items = .ok w ∧
      parse (if recorded then w.startRecord else w) = .ok (c, v) ∧ p.commands = c.code ∧
      (∀ n, .push .constant n ∈ p.commands → n ≤ maxConstant ∨ n = c.fields ∧ n ≤ maxSlots) ∧
      ((∀ n, .push .constant n ∈ p.commands → n ≤ maxConstant) ↔
        ∀ s ∈ c.subroutines, s.kind = .constructor → c.fields ≤ maxConstant) := by
  rw [compileItems, bind_eq_ok_iff] at h
  obtain ⟨w, hw, h⟩ := h
  split at h
  next c v hp =>
    cases h
    obtain ⟨u, hu, -⟩ := parse_eq_ok_iff.mp hp
    obtain ⟨g, -, hg⟩ := Grammar.yields_classDec.mp hu
    refine ⟨w, c, v, hw, hp, rfl, ?_, ?_⟩
    · rw [pushes_iff_fits, Grammar.Class.fits_code hg fun n hn => .inl hn]
      exact fun s hs hk => .inr ⟨rfl, Grammar.Class.fields_le hg⟩
    · rw [pushes_iff_fits, Grammar.Class.fits_code hg fun n hn => hn]
  next => cases h

theorem constants_of_tally :
    ∃ p, compileItems false (Grammar.tally.lexemes.map .ok).toArray = .ok p ∧
      ∀ n, .push .constant n ∈ p.commands → n ≤ maxSlots := by
  obtain ⟨r, -, p, hp, -⟩ := Grammar.tally_static.compiles
  obtain ⟨w, c, v, -, -, -, hn, -⟩ := constants_fit_iff hp
  refine ⟨p, hp, fun n h => ?_⟩
  obtain h | ⟨-, h⟩ := hn n h
  · exact Nat.le_trans h (by decide)
  · exact h

namespace Grammar

def fieldName (i : Nat) : String :=
  "g" ++ toString i

theorem fieldName_injective : Function.Injective fieldName := by
  intro i j h
  rw [fieldName, fieldName, String.append_right_inj] at h
  exact Nat.repr_injective h

def maker : Subroutine :=
  ⟨.constructor, .value (.object "A"), "new", [], [], [.return (some (.chain (.constant .this) []))]⟩

/-- `class A { field int g0, g1, …; constructor A new() { return this; } }`, of `n + 1` fields. -/
def wide (n : Nat) : Class where
  name := "A"
  declarations := [(.field, ⟨.int, fieldName 0, (List.range' 1 n).map fieldName⟩)]
  subroutines := [maker]

theorem entries_wide (n : Nat) :
    (wide n).entries = (List.range' 0 (n + 1)).map fun i => ⟨.field, "int", fieldName i⟩ := by
  simp [wide, Class.entries, Variables.entries, Variables.names, ClassVariable.kind, DataType.name,
    List.range'_succ]

theorem wide_static {n : Nat} (h : n < maxSlots) : (wide n).Static where
  distinct := by
    rw [entries_wide, List.map_map]
    exact List.Pairwise.map _ (fun i j h hij => h (fieldName_injective hij)) List.nodup_range'
  room kind := by
    rw [entries_wide]
    refine Nat.le_trans List.countP_le_length ?_
    simpa using Nat.succ_le_of_lt h
  subroutines := by
    intro s hs
    rw [wide, List.mem_singleton] at hs
    subst hs
    have he : maker.entries "A" = [] := rfl
    refine ⟨by simp [wide, he], by simp [wide, he], ?_⟩
    simp [maker, Statement.leavesAll, Statement.leaves, Expression.leaves, Expression.leavesRest,
      Term.leaves]

end Grammar

/-- A constructor allocates as many words as there are fields, however many they are. -/
theorem pushes_too_large :
    ∃ p, compileItems false ((Grammar.wide 32767).lexemes.map .ok).toArray = .ok p ∧
      .push .constant 32768 ∈ p.commands ∧ maxConstant < 32768 := by
  obtain ⟨r, hr, p, hp, hc⟩ := (Grammar.wide_static (n := 32767) (by decide)).compiles
  refine ⟨p, hp, ?_, by decide⟩
  have hf : r.fields = 32768 := by
    rw [Grammar.Class.fields_of_resolve hr, Grammar.entries_wide]
    simp [Function.comp_def]
  have hm : Grammar.maker ∈ (Grammar.wide 32767).subroutines := List.mem_singleton.mpr rfl
  obtain ⟨s, hs, hk⟩ := Grammar.Class.exists_kind_of_resolve hr hm
  rw [hc, ← hf]
  exact r.push_fields_mem_code hs hk

end Jack
