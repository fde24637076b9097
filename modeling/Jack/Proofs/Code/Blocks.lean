import Jack.Proofs.Code.Labels
import Jack.Proofs.Grammar.Bound
import Jack.Proofs.Parse.Ahead
import Mathlib.Data.List.SplitBy

namespace Jack

open VM (Command)

namespace VM

def Command.isFunction : Command → Bool
  | .function _ _ => true
  | _ => false

def blocks (code : List Command) : List (List Command) :=
  code.splitBy fun _ c => !c.isFunction

def IsBlock (code : List Command) : Prop :=
  ∃ name locals body, code = .function name locals :: body ∧ ∀ c ∈ body, c.isFunction = false

theorem blocks_flatten {bs : List (List Command)} (h : ∀ b ∈ bs, IsBlock b) :
    blocks bs.flatten = bs := by
  refine List.splitBy_flatten ?_ ?_ ?_
  · intro hn
    obtain ⟨name, locals, body, hb, -⟩ := h [] hn
    cases hb
  · intro b hb
    obtain ⟨name, locals, body, rfl, hbody⟩ := h b hb
    have hp : (Command.function name locals :: body).Pairwise fun _ c => !c.isFunction := by
      refine List.pairwise_cons.mpr ⟨fun c hc => by simp [hbody c hc], ?_⟩
      exact List.pairwise_of_forall_mem_list fun _ _ c hc => by simp [hbody c hc]
    exact hp.isChain
  · refine (List.pairwise_of_forall_mem_list fun b hb b' hb' => ?_).isChain
    obtain ⟨_, _, _, rfl, -⟩ := h b hb
    obtain ⟨_, _, _, rfl, -⟩ := h b' hb'
    exact ⟨by simp, by simp, rfl⟩

theorem IsBlock.count_function {code : List Command} (h : IsBlock code) :
    code.countP (·.isFunction) = 1 := by
  obtain ⟨name, locals, body, rfl, hbody⟩ := h
  have hz : body.countP (·.isFunction) = 0 :=
    List.countP_eq_zero.mpr fun c hc => by simp [hbody c hc]
  rw [List.countP_cons_of_pos rfl, hz]

end VM

theorem VM.Command.IsQuiet.isFunction_eq_false {c : Command} (h : c.IsQuiet) :
    c.isFunction = false := by
  cases c with
  | function => exact h.elim
  | push | pop | arithmetic | label | goto | ifGoto | call | «return» => rfl

theorem Leaf.Explain.isFunction_eq_false {ls : List Leaf} {c : Command} (h : Leaf.Explain ls c) :
    c.isFunction = false := by
  obtain hg | hj | ⟨l, -, hb | ⟨v, -, rfl⟩⟩ := h
  · exact (quiet_glue c hg).isFunction_eq_false
  · cases c with
    | function => exact hj.elim
    | push | pop | arithmetic | label | goto | ifGoto | call | «return» => rfl
  · exact (l.quiet_of_brings hb).isFunction_eq_false
  · rfl

theorem Subroutine.isBlock_code (className : String) (fields : Nat) (s : Subroutine) :
    VM.IsBlock (s.code className fields) := by
  refine ⟨_, _, _, rfl, fun c hc => ?_⟩
  obtain hc | hc := List.mem_append.mp hc
  · cases hk : s.kind <;> simp [SubroutineKind.prologue, hk] at hc <;>
      obtain rfl | rfl | rfl := hc <;> rfl
  · exact (Statement.leaves_explain_all _ _ c hc).isFunction_eq_false

theorem Class.blocks_code (c : Class) :
    VM.blocks c.code = c.subroutines.map (·.code c.name c.fields) := by
  rw [Class.code, List.flatMap_def]
  refine VM.blocks_flatten fun b hb => ?_
  obtain ⟨s, -, rfl⟩ := List.mem_map.mp hb
  exact s.isBlock_code _ _

theorem Grammar.forall₂_of_mapM {α β : Type} {f : α → Option β} {xs : List α} {ys : List β}
    (h : xs.mapM f = some ys) : List.Forall₂ (fun x y => f x = some y) xs ys := by
  induction xs generalizing ys with
  | nil =>
    cases h
    exact .nil
  | cons x xs ih =>
    rw [List.mapM_cons] at h
    obtain ⟨z, hz, zs, hzs, rfl⟩ := bind₂_eq_some_iff.mp h
    exact .cons hz (ih hzs)

/-- What is compiled has one block for each subroutine of the source, in the same order: the code of
the subroutine with its names resolved. -/
theorem blocks_of_compileItems {recorded : Bool} {items : Array Item} {p : Compiled}
    (h : compileItems recorded items = .ok p) :
    ∃ c : Grammar.Class, c.tokens = (lexemesOf items.toList).map (·.token) ∧
      ∃ scopes, Scopes.empty.enterAll c.entries = some scopes ∧
        List.Forall₂ (fun s block => ∃ r, s.resolve c.name scopes = some r ∧
          block = r.code c.name (c.entries.countP (·.kind = .field)))
          c.subroutines (VM.blocks p.commands) := by
  obtain ⟨c, hc, r, hr, hp⟩ := exists_tree_of_compileItems h
  have hf := Grammar.Class.fields_of_resolve hr
  obtain ⟨scopes, hs, rs, hrs, rfl⟩ := Grammar.Class.resolve_eq_some_iff.mp hr
  refine ⟨c, hc, scopes, hs, ?_⟩
  rw [hp, Class.blocks_code, ← hf, List.forall₂_map_right_iff]
  exact (Grammar.forall₂_of_mapM hrs).imp fun s r h => ⟨r, h, rfl⟩

namespace Grammar

/-- `class Gauge { field int level; static int made;` a constructor `new`, which takes the level, and
a method `drain`, which takes the rate and counts the `steps` down to zero `}`. -/
def gauge : Class where
  name := "Gauge"
  declarations := [(.field, ⟨.int, "level", []⟩), (.static, ⟨.int, "made", []⟩)]
  subroutines :=
    [⟨.constructor, .value (.object "Gauge"), "new", [⟨.int, "start"⟩], [],
      [.assign "level" (.chain (.name "start") []),
        .assign "made" (.chain (.name "made") [(.add, .integer 1)]),
        .return (some (.chain (.constant .this) []))]⟩,
    ⟨.method, .value .int, "drain", [⟨.int, "rate"⟩], [⟨.int, "steps", []⟩],
      [.while (.chain (.name "level") [(.gt, .integer 0)])
        [.ifElse (.chain (.name "rate") [(.gt, .name "level")])
          [.assign "level" (.chain (.integer 0) [])]
          [.assign "level" (.chain (.name "level") [(.sub, .name "rate")]),
            .ifThen (.chain (.name "steps") [(.gt, .integer 9)])
              [.return (some (.chain (.name "steps") []))]],
        .assign "steps" (.chain (.name "steps") [(.add, .integer 1)])],
      .return (some (.chain (.name "steps") []))]⟩]

theorem gauge_static : gauge.Static where
  distinct := by decide
  room kind := by cases kind <;> decide
  subroutines := by
    intro s hs
    simp only [gauge, List.mem_cons, List.not_mem_nil, or_false] at hs
    obtain rfl | rfl := hs <;>
    · refine ⟨by decide, fun kind => by cases kind <;> decide, ?_⟩
      simp [Statement.leavesAll, Statement.leaves, Expression.leaves, Expression.leavesRest,
        Term.leaves, Leaf.Valid, maxConstant, gauge, Class.entries, Subroutine.entries,
        receiverEntry, parameterEntry, Variables.entries, Variables.names]

end Grammar

end Jack
