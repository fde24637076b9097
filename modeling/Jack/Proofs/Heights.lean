import Jack.Proofs.Code.Blocks
import Jack.Proofs.Meaning.ExpressionCode
import Jack.Proofs.Progress
import Jack.Proofs.VM.Block
import Jack.Proofs.VM.Level
import Mathlib.Data.List.Forall2

namespace Jack

open VM (Command Label Level Balanced CodeAt heightAt)

namespace VM

variable {a b i : Nat} {block code : List Command}

/-- The height in front of a piece of the block tells the height behind it. -/
theorem CodeAt.heightAt_add_length (h : CodeAt block i code) (hb : Level 0 block b)
    {n : Nat} (hc : Level (heightAt block i) code n) : heightAt block (i + code.length) = n := by
  obtain ⟨before, behind, rfl, rfl⟩ := h
  rw [List.append_assoc] at hb hc ⊢
  obtain ⟨m, hm, -⟩ := Level.append_iff.mp hb
  rw [hm.heightAt_length] at hc
  have h := (hm.append hc).heightAt_length behind
  rwa [List.length_append, List.append_assoc] at h

end VM

theorem Expression.level (e : Expression) (hf : Fit e.arities) (h : Nat) :
    Level h e.code (h + 1) := by
  have hl := lifts_code.2 e hf h
  rw [Nat.zero_add, Nat.add_comm] at hl
  exact Level.of_quiet e.quiet_code hl

theorem Term.level (t : Term) (hf : Fit t.arities) (h : Nat) : Level h t.code (h + 1) := by
  have hl := lifts_code.1 t hf h
  rw [Nat.zero_add, Nat.add_comm] at hl
  exact Level.of_quiet t.quiet_code hl

section Jumps

variable (l : Label)

theorem level_label : Level 0 [.label l] 0 := by
  simp [Command.pops, Command.pushes, Command.Meets]

theorem level_goto : Level 0 [.goto l] 0 := by
  simp [Command.pops, Command.pushes, Command.Meets]

theorem level_ifGoto : Level 1 [.ifGoto l] 0 := by
  simp [Command.pops, Command.pushes, Command.Meets]

theorem level_not : Level 1 [.arithmetic .not] 1 := by
  simp [Command.pops, Command.pushes, Command.Meets, VM.Arithmetic.operands]

end Jumps

theorem level_onTrue (condition : Expression) (h : Fit condition.arities) (l : IfLabels) :
    Level 0 (condition.code ++ [.ifGoto l.onTrue, .goto l.onFalse, .label l.onTrue]) 0 :=
  (condition.level h 0).append
    (((level_ifGoto l.onTrue).append (level_goto l.onFalse)).append (level_label l.onTrue))

theorem level_onEnter (condition : Expression) (h : Fit condition.arities) (l : WhileLabels) :
    Level 0 ([.label l.condition] ++ condition.code ++ [.arithmetic .not, .ifGoto l.done]) 0 :=
  ((level_label l.condition).append (condition.level h 0)).append
    ((level_not).append (level_ifGoto l.done))

theorem level_away (l l' : Label) : Level 0 [.goto l, .label l'] 0 :=
  (level_goto l).append (level_label l')

mutual

theorem Statement.level (k : LabelCount) (s : Statement) (hf : Fit s.arities) :
    Level 0 (s.code k).1 0 := by
  cases s with
  | assign target value =>
    refine (value.level hf 0).append ?_
    simp [Variable.pop, Command.pops, Command.pushes, Command.Meets]
  | store array index value =>
    have ha : Level 1 [array.push, .arithmetic .add] 1 := by
      simp [Variable.push, Command.pops, Command.pushes, Command.Meets, VM.Arithmetic.operands]
    have hs : Level 2 storeElement 0 := by
      simp [storeElement, Command.pops, Command.pushes, Command.Meets]
    obtain ⟨hi, hv⟩ := fit_append.mp hf
    exact (((index.level hi 0).append ha).append (value.level hv 1)).append hs
  | ifThen condition yes =>
    obtain ⟨hc, hfy⟩ := fit_append.mp hf
    have hy := Statement.level_all k.forIf.2 yes hfy
    exact ((level_onTrue condition hc _).append hy).append (level_label _)
  | ifElse condition yes no =>
    obtain ⟨hfy, hfn⟩ := fit_append.mp hf
    obtain ⟨hc, hfy⟩ := fit_append.mp hfy
    have hy := Statement.level_all k.forIf.2 yes hfy
    have hn := Statement.level_all (Statement.codeAll k.forIf.2 yes).2 no hfn
    exact ((((level_onTrue condition hc _).append hy).append (level_away _ _)).append hn).append
      (level_label _)
  | «while» condition body =>
    obtain ⟨hc, hfb⟩ := fit_append.mp hf
    have hb := Statement.level_all k.forWhile.2 body hfb
    exact ((level_onEnter condition hc _).append hb).append (level_away _ _)
  | «do» callee arguments =>
    refine ((Term.call callee arguments).level hf 0).append ?_
    simp [Command.pops, Command.pushes, Command.Meets]
  | «return» value => cases value with
    | none => simp [Statement.code, Command.pops, Command.pushes, Command.Meets]
    | some value =>
      refine (value.level hf 0).append ?_
      simp [Command.pops, Command.pushes, Command.Meets]

theorem Statement.level_all (k : LabelCount) (ss : List Statement)
    (hf : Fit (Statement.aritiesAll ss)) : Level 0 (Statement.codeAll k ss).1 0 := by
  match ss with
  | [] => rfl
  | s :: ss =>
    obtain ⟨hs, hss⟩ := fit_append.mp hf
    exact (s.level k hs).append (Statement.level_all (s.code k).2 ss hss)

end

theorem SubroutineKind.level_prologue (kind : SubroutineKind) (fields : Nat) :
    Level 0 (kind.prologue fields) 0 := by
  cases kind <;> simp [prologue, Command.pops, Command.pushes, Command.Meets]

theorem Subroutine.level (className : String) (fields : Nat) (s : Subroutine)
    (hf : Fit s.arities) : Level 0 (s.code className fields) 0 := by
  refine ⟨Nat.zero_le _, trivial, ?_⟩
  exact (s.kind.level_prologue fields).append (Statement.level_all .zero s.body hf)

mutual

/-- The pieces of the code of the statements that are nested in one whose code begins at `i`. -/
def Statement.nested (i : Nat) (k : LabelCount) : Statement → List (Nat × List Command)
  | .ifThen condition yes => Statement.pieces (i + (condition.code.length + 3)) k.forIf.2 yes
  | .ifElse condition yes no =>
    let j := i + (condition.code.length + 3)
    let (code, k') := Statement.codeAll k.forIf.2 yes
    Statement.pieces j k.forIf.2 yes ++ Statement.pieces (j + code.length + 2) k' no
  | .while condition body =>
    Statement.pieces (i + (1 + condition.code.length + 2)) k.forWhile.2 body
  | .assign _ _ | .store _ _ _ | .do _ _ | .return _ => []

/-- The pieces of code that belong to one statement, whether nested in another or not, each with the
place in the block that it begins at. -/
def Statement.pieces (i : Nat) (k : LabelCount) : List Statement → List (Nat × List Command)
  | [] => []
  | s :: ss => (i, (s.code k).1) :: (s.nested i k ++
    Statement.pieces (i + (s.code k).1.length) (s.code k).2 ss)

end

/-- A piece of the block that control enters and leaves at height zero. -/
def Rests (block : List Command) (height : Nat → Nat) (p : Nat × List Command) : Prop :=
  CodeAt block p.1 p.2 ∧ height p.1 = 0 ∧ height (p.1 + p.2.length) = 0

section Rests

variable {block cs ds : List Command} {i b : Nat}

theorem rests_of_level (hb : Level 0 block b) (h : CodeAt block i cs) (hi : heightAt block i = 0)
    (hc : Level 0 cs 0) : Rests block (heightAt block) (i, cs) :=
  ⟨h, hi, h.heightAt_add_length hb (hi ▸ hc)⟩

theorem rests_behind (hb : Level 0 block b) (h : CodeAt block i (cs ++ ds))
    (hi : heightAt block i = 0) (hc : Level 0 cs 0) :
    CodeAt block (i + cs.length) ds ∧ heightAt block (i + cs.length) = 0 :=
  ⟨h.right, (rests_of_level hb h.left hi hc).2.2⟩

mutual

theorem Statement.nested_rests (hb : Level 0 block b) (i : Nat) (k : LabelCount) (s : Statement)
    (hf : Fit s.arities) (h : CodeAt block i (s.code k).1) (hi : heightAt block i = 0) :
    ∀ p ∈ s.nested i k, Rests block (heightAt block) p := by
  cases s with
  | assign | store | «do» | «return» => exact List.forall_mem_nil _
  | ifThen condition yes =>
    obtain ⟨hc, hfy⟩ := fit_append.mp hf
    obtain ⟨hy, hz⟩ := rests_behind hb h.left hi (level_onTrue condition hc _)
    rw [List.length_append] at hy hz
    exact Statement.pieces_rest hb _ k.forIf.2 yes hfy hy hz
  | ifElse condition yes no =>
    obtain ⟨hfy, hfn⟩ := fit_append.mp hf
    obtain ⟨hc, hfy⟩ := fit_append.mp hfy
    obtain ⟨hy, hz⟩ := rests_behind hb h.left.left.left hi (level_onTrue condition hc _)
    have hl := ((level_onTrue condition hc k.forIf.1).append
      (Statement.level_all k.forIf.2 yes hfy)).append (level_away k.forIf.1.done k.forIf.1.onFalse)
    obtain ⟨hn, hz'⟩ := rests_behind hb h.left hi hl
    simp only [List.length_append, ← Nat.add_assoc] at hy hz hn hz'
    refine List.forall_mem_append.mpr ⟨?_, ?_⟩
    · exact Statement.pieces_rest hb _ k.forIf.2 yes hfy hy hz
    · exact Statement.pieces_rest hb _ _ no hfn hn hz'
  | «while» condition body =>
    obtain ⟨hc, hfb⟩ := fit_append.mp hf
    obtain ⟨hd, hz⟩ := rests_behind hb h.left hi (level_onEnter condition hc _)
    simp only [List.length_append] at hd hz
    exact Statement.pieces_rest hb _ k.forWhile.2 body hfb hd hz

theorem Statement.pieces_rest (hb : Level 0 block b) (i : Nat) (k : LabelCount)
    (ss : List Statement) (hf : Fit (Statement.aritiesAll ss))
    (h : CodeAt block i (Statement.codeAll k ss).1) (hi : heightAt block i = 0) :
    ∀ p ∈ Statement.pieces i k ss, Rests block (heightAt block) p := by
  match ss with
  | [] => exact List.forall_mem_nil _
  | s :: ss =>
    obtain ⟨hfs, hfss⟩ := fit_append.mp hf
    obtain ⟨hn, hz⟩ := rests_behind hb h hi (s.level k hfs)
    have hs := Statement.nested_rests hb i k s hfs h.left hi
    have hss := Statement.pieces_rest hb _ _ ss hfss hn hz
    exact List.forall_mem_cons.mpr
      ⟨rests_of_level hb h.left hi (s.level k hfs), List.forall_mem_append.mpr ⟨hs, hss⟩⟩

end

end Rests

def Subroutine.bodyStart (fields : Nat) (s : Subroutine) : Nat :=
  1 + (s.kind.prologue fields).length

/-- Each place of the code of a subroutine has a height of its own, by whichever way control gets
there, and each statement of the body, those nested in others included, begins and ends at height
zero. -/
theorem Subroutine.balanced (className : String) (fields : Nat) (s : Subroutine)
    (hf : Fit s.arities) : ∃ height, Balanced (s.code className fields) height ∧
      ∀ p ∈ Statement.pieces (s.bodyStart fields) .zero s.body,
        Rests (s.code className fields) height p := by
  have hs := s.level className fields hf
  have hp : Level 0 (.function (className ++ "." ++ s.name) (Declaration.total s.locals) ::
      s.kind.prologue fields) 0 :=
    ⟨Nat.zero_le _, trivial, s.kind.level_prologue fields⟩
  have hc : CodeAt (s.code className fields) 0 (s.code className fields) :=
    ⟨[], [], by simp, rfl⟩
  obtain ⟨hb, hz⟩ := rests_behind hs hc hs.balanced.start hp
  refine ⟨_, hs.balanced, ?_⟩
  rw [List.length_cons, Nat.zero_add, Nat.add_comm] at hb hz
  exact Statement.pieces_rest hs _ .zero s.body hf hb hz

/-- In the code of each subroutine of a class that compiles the height of the stack is known at each
place, if each call in the subroutine has fewer arguments than 16 bits can count. -/
theorem blocks_are_balanced {recorded : Bool} {items : Array Item} {p : Compiled}
    (h : compileItems recorded items = .ok p) :
    ∃ c : Grammar.Class, c.tokens = (lexemesOf items.toList).map (·.token) ∧
      ∃ r, c.resolve = some r ∧
        List.Forall₂ (fun s block => Fit s.arities → ∃ height, Balanced block height ∧
          ∀ p ∈ Statement.pieces (Subroutine.bodyStart r.fields s) .zero s.body,
            Rests block height p)
          r.subroutines (VM.blocks p.commands) := by
  obtain ⟨c, hc, r, hr, hp⟩ := exists_tree_of_compileItems h
  refine ⟨c, hc, r, hr, ?_⟩
  rw [hp, Class.blocks_code, List.forall₂_map_right_iff]
  exact List.forall₂_same.mpr fun s _ hs => s.balanced r.name r.fields hs

theorem gauge_is_balanced :
    ∃ p, compileItems false (Grammar.gauge.lexemes.map .ok).toArray = .ok p ∧
      ∃ c : Grammar.Class, c.tokens = (lexemesOf (Grammar.gauge.lexemes.map .ok)).map (·.token) ∧
        ∃ r, c.resolve = some r ∧
          (∀ s ∈ r.subroutines, Fit s.arities) ∧
          List.Forall₂ (fun s block => ∃ height, Balanced block height ∧
            ∀ p ∈ Statement.pieces (Subroutine.bodyStart r.fields s) .zero s.body,
              Rests block height p)
            r.subroutines (VM.blocks p.commands) := by
  obtain ⟨r₀, hr₀, p, hp, -⟩ := Grammar.gauge_static.compiles
  obtain ⟨c, hc, r, hr, hb⟩ := blocks_are_balanced hp
  have htokens : c.tokens = Grammar.gauge.tokens := by
    rw [hc, lexemesOf_map_ok Grammar.gauge.token_ne_eof, Grammar.gauge.map_token_lexemes]
  obtain rfl := Grammar.Class.resolve_unique htokens hr hr₀
  have hclass : Fit r.arities := fit_of_tells Grammar.gauge.tells_lexemes hr₀ (by decide)
  have hfit : ∀ s ∈ r.subroutines, Fit s.arities := fun s hs n hn => hclass n (List.mem_flatMap.mpr ⟨s, hs, hn⟩)
  refine ⟨p, hp, c, hc, r, hr, hfit, ?_⟩
  exact ((List.forall₂_and_left _ _).mpr ⟨hfit, hb⟩).imp fun s block h => h.2 h.1

end Jack
