import Jack.Code.Class
import Jack.Proofs.Code.Labels
import Jack.Proofs.Meaning.ExpressionCode
import Jack.Proofs.Meaning.Statement
import Jack.Proofs.VM.Block

namespace Jack

open VM Behaviour

variable {World : Type}

namespace VM

section Endings

variable (calls : Calls World) (block : List Command)

/-- What a run of `n` steps comes to behind a piece of code with the ending `e₀`: it is over, or it
goes on at the place `j`, on the same stack. -/
def Continues (n j : Nat) (stack : List Word) (e : Ending World) : Ending World → Prop
  | .returned v m => e = .returned v m
  | .completed m => ∃ k scratch, k ≤ n ∧ EndsIn calls block k ⟨j, ⟨stack, m, scratch⟩⟩ e

def Leads (c : Config World) (j : Nat) (stack : List Word) : Ending World → Prop
  | .returned v m => Ends calls block c (.returned v m)
  | .completed m => ∃ scratch, ∀ e,
    Ends calls block ⟨j, ⟨stack, m, scratch⟩⟩ e → Ends calls block c e

/-- Between the places `i` and `j`, on any stack, runs of the block do what `b` allows, and they do
all of it. -/
structure Implements (i j : Nat) (b : Behaviour World) : Prop where
  sound : ∀ {n stack m scratch e}, EndsIn calls block n ⟨i, ⟨stack, m, scratch⟩⟩ e →
    ∃ e₀, b m e₀ ∧ Continues calls block n j stack e e₀
  complete : ∀ {stack m e₀} scratch, b m e₀ →
    Leads calls block ⟨i, ⟨stack, m, scratch⟩⟩ j stack e₀

/-- From the place `i` on, a word is found. Where it is zero, runs go on at `no`, else at `yes`. -/
structure Decides (i no yes : Nat) (x : Eval World Word) : Prop where
  stuck : ∀ {n stack m scratch e}, x m = none →
    ¬ EndsIn calls block n ⟨i, ⟨stack, m, scratch⟩⟩ e
  goes : ∀ {m v m'} stack scratch, x m = some (v, m') → ∃ a scratch', 0 < a ∧
    Reaches calls block a ⟨i, ⟨stack, m, scratch⟩⟩
      ⟨if v = 0 then no else yes, ⟨stack, m', scratch'⟩⟩

end Endings

variable {calls : Calls World} {block : List Command}

theorem Continues.mono {n n' j : Nat} {stack : List Word} {e e₀ : Ending World} (hn : n ≤ n')
    (h : Continues calls block n j stack e e₀) : Continues calls block n' j stack e e₀ := by
  cases e₀ with
  | returned v m => exact h
  | completed m =>
    obtain ⟨k, scratch, hk, h⟩ := h
    exact ⟨k, scratch, Nat.le_trans hk hn, h⟩

namespace Leads

variable {a j k : Nat} {c d : Config World} {stack : List Word} {e₀ : Ending World}
  {m : Memory World}

theorem of_reaches (h : Reaches calls block a c d) (hd : Leads calls block d j stack e₀) :
    Leads calls block c j stack e₀ := by
  cases e₀ with
  | returned v m => exact h.ends_iff.mpr hd
  | completed m =>
    obtain ⟨scratch, hd⟩ := hd
    exact ⟨scratch, fun e he => h.ends_iff.mpr (hd e he)⟩

theorem trans (h : Leads calls block c j stack (.completed m))
    (h' : ∀ scratch, Leads calls block ⟨j, ⟨stack, m, scratch⟩⟩ k stack e₀) :
    Leads calls block c k stack e₀ := by
  obtain ⟨scratch, h⟩ := h
  have hd := h' scratch
  cases e₀ with
  | returned v m => exact h _ hd
  | completed m =>
    obtain ⟨scratch', hd⟩ := hd
    exact ⟨scratch', fun e he => h e (hd e he)⟩

end Leads

theorem Decides.enter {i i' no yes : Nat} {x : Eval World Word} (hi : Passes calls block i i')
    (h : Decides calls block i' no yes x) : Decides calls block i no yes x := by
  constructor
  case stuck =>
    intro n stack m scratch e hx hn
    obtain ⟨k, -, hk⟩ := (hi _ n e).mp hn
    exact h.stuck hx hk
  case goes =>
    intro m v m' stack scratch hx
    obtain ⟨a, scratch', -, ha⟩ := h.goes stack scratch hx
    exact ⟨a + 1, scratch', Nat.succ_pos a, (hi _).trans ha⟩

theorem Decides.of_computes {i t : Nat} {x : Eval World Word} {code cs : List Command} {l : Label}
    (hc : Computes calls [] code ([·]) x) (hs : ∀ c ∈ code, c.IsStraight)
    (h : CodeAt block i (code ++ .ifGoto l :: cs)) (ht : target block l = some t) :
    Decides calls block i (i + code.length + 1) t x := by
  constructor
  case stuck =>
    intro n stack m scratch e hx
    exact hc.not_endsIn h.left hs hx stack scratch
  case goes =>
    intro m v m' stack scratch hx
    obtain ⟨scratch', hr⟩ := hc.reaches h.left hs hx stack scratch
    exact ⟨1 + code.length, scratch', by omega, hr.trans (reaches_ifGoto h.right ht)⟩

end VM

theorem Behaviour.andThen_of_completed {b c : Behaviour World} {m m' : Memory World}
    {e : Ending World} (hb : b m (.completed m')) (hc : c m' e) : b.andThen c m e := by
  cases e with
  | returned => exact Or.inr ⟨m', hb, hc⟩
  | completed => exact ⟨m', hb, hc⟩

theorem Behaviour.after_pure {α : Type} (a : α) (b : α → Behaviour World) :
    after (pure a) b = b a := by
  funext m e
  refine propext ⟨?_, fun h => ⟨a, m, rfl, h⟩⟩
  rintro ⟨v, m', hv, h⟩
  cases hv
  exact h

namespace VM.Implements

variable {calls : Calls World} {block : List Command} {i i' j j' k : Nat} {b c : Behaviour World}

theorem skip : Implements calls block i i skip := by
  constructor
  case sound =>
    intro n stack m scratch e h
    exact ⟨_, rfl, n, scratch, Nat.le_refl n, h⟩
  case complete =>
    intro stack m e₀ scratch h
    cases h
    exact ⟨scratch, fun e he => he⟩

theorem enter (hi : Passes calls block i i') (h : Implements calls block i' j b) :
    Implements calls block i j b := by
  constructor
  case sound =>
    intro n stack m scratch e hn
    obtain ⟨n', rfl, hn'⟩ := (hi _ n e).mp hn
    obtain ⟨e₀, hb, he⟩ := h.sound hn'
    exact ⟨e₀, hb, he.mono (Nat.le_succ n')⟩
  case complete =>
    intro stack m e₀ scratch hb
    exact (h.complete scratch hb).of_reaches (hi _)

theorem cast (h : Implements calls block i j b) (hj : j = j') : Implements calls block i j' b :=
  hj ▸ h

theorem andThen (h : Implements calls block i j b) (h' : Implements calls block j k c) :
    Implements calls block i k (b.andThen c) := by
  constructor
  case sound =>
    intro n stack m scratch e hn
    obtain ⟨e₁, hb, he⟩ := h.sound hn
    cases e₁ with
    | returned v m' => exact ⟨.returned v m', Or.inl hb, he⟩
    | completed m' =>
      obtain ⟨n', scratch', hle, hn'⟩ := he
      obtain ⟨e₀, hc, he⟩ := h'.sound hn'
      exact ⟨e₀, andThen_of_completed hb hc, he.mono hle⟩
  case complete =>
    intro stack m e₀ scratch hbc
    cases e₀ with
    | returned v m' =>
      obtain hb | ⟨m₁, hb, hc⟩ := hbc
      · exact h.complete scratch hb
      · exact (h.complete scratch hb).trans fun scratch' => h'.complete scratch' hc
    | completed m' =>
      obtain ⟨m₁, hb, hc⟩ := hbc
      exact (h.complete scratch hb).trans fun scratch' => h'.complete scratch' hc

theorem leave (h : Implements calls block i j b) (hj : Passes calls block j j') :
    Implements calls block i j' b := by
  constructor
  case sound =>
    intro n stack m scratch e hn
    obtain ⟨e₀, hb, he⟩ := h.sound hn
    refine ⟨e₀, hb, ?_⟩
    cases e₀ with
    | returned v m' => exact he
    | completed m' =>
      obtain ⟨n', scratch', hle, hn'⟩ := he
      obtain ⟨n'', rfl, hn''⟩ := (hj _ n' e).mp hn'
      exact ⟨n'', scratch', Nat.le_of_succ_le hle, hn''⟩
  case complete =>
    intro stack m e₀ scratch hb
    have hl : Leads calls block _ j stack e₀ := h.complete scratch hb
    cases e₀ with
    | returned v m' => exact hl
    | completed m' => exact hl.trans fun scratch' => ⟨scratch', fun e he => (hj _).ends_iff.mpr he⟩

theorem ofEval {x : Eval World Unit} {code : List Command}
    (hc : Computes calls [] code (fun _ => []) x) (hs : ∀ c ∈ code, c.IsStraight)
    (h : CodeAt block i code) : Implements calls block i (i + code.length) (ofEval x) := by
  constructor
  case sound =>
    intro n stack m scratch e hn
    cases hx : x m with
    | none => exact (hc.not_endsIn h hs hx stack scratch hn).elim
    | some p =>
      obtain ⟨⟨⟩, m'⟩ := p
      obtain ⟨scratch', hr⟩ := hc.reaches h hs hx stack scratch
      obtain ⟨n', rfl, hn'⟩ := (hr n e).mp hn
      exact ⟨_, ⟨(), m', hx, rfl⟩, n', scratch', Nat.le_add_right n' _, hn'⟩
  case complete =>
    intro stack m e₀ scratch hb
    obtain ⟨⟨⟩, m', hx, rfl⟩ := hb
    obtain ⟨scratch', hr⟩ := hc.reaches h hs hx stack scratch
    exact ⟨scratch', fun e he => hr.ends_iff.mpr he⟩

theorem returns {x : Eval World Word} {code : List Command}
    (hc : Computes calls [] code ([·]) x) (hs : ∀ c ∈ code, c.IsStraight)
    (h : CodeAt block i (code ++ [.return])) : Implements calls block i j (after x returns) := by
  constructor
  case sound =>
    intro n stack m scratch e hn
    cases hx : x m with
    | none => exact (hc.not_endsIn h.left hs hx stack scratch hn).elim
    | some p =>
      obtain ⟨v, m'⟩ := p
      obtain ⟨scratch', hr⟩ := hc.reaches h.left hs hx stack scratch
      obtain ⟨n', rfl, hn'⟩ := (hr n e).mp hn
      obtain ⟨-, rfl⟩ := (endsIn_return h.right).mp hn'
      exact ⟨_, ⟨v, m', hx, rfl⟩, rfl⟩
  case complete =>
    intro stack m e₀ scratch hb
    obtain ⟨v, m', hx, rfl⟩ := hb
    obtain ⟨scratch', hr⟩ := hc.reaches h.left hs hx stack scratch
    exact hr.ends_iff.mpr ⟨0, (endsIn_return h.right).mpr ⟨rfl, rfl⟩⟩

theorem branch {no yes : Nat} {x : Eval World Word} (hx : Decides calls block i no yes x)
    (hb : Implements calls block no j b) (hc : Implements calls block yes j c) :
    Implements calls block i j (after x fun v => if v = 0 then b else c) := by
  have hbc (v : Word) :
      Implements calls block (if v = 0 then no else yes) j (if v = 0 then b else c) := by
    split
    · exact hb
    · exact hc
  constructor
  case sound =>
    intro n stack m scratch e hn
    cases hv : x m with
    | none => exact (hx.stuck hv hn).elim
    | some p =>
      obtain ⟨v, m'⟩ := p
      obtain ⟨a, scratch', -, hr⟩ := hx.goes stack scratch hv
      obtain ⟨n', rfl, hn'⟩ := (hr n e).mp hn
      obtain ⟨e₀, he₀, he⟩ := (hbc v).sound hn'
      exact ⟨e₀, ⟨v, m', hv, he₀⟩, he.mono (Nat.le_add_right n' a)⟩
  case complete =>
    intro stack m e₀ scratch he₀
    obtain ⟨v, m', hv, he₀⟩ := he₀
    obtain ⟨a, scratch', -, hr⟩ := hx.goes stack scratch hv
    exact ((hbc v).complete scratch' he₀).of_reaches hr

/-- The condition is tested at `i`, the body begins at `p` and goes back to `i` from `q`. -/
theorem loop {p q d : Nat} {x : Eval World Word}
    (hx : Decides calls block i p d (do let v ← x; pure (~~~v)))
    (hb : Implements calls block p q b) (hq : Passes calls block q i) (hd : Passes calls block d j) :
    Implements calls block i j (Loop x b) := by
  have hx' {m m' : Memory World} {v : Word} (hv : x m = some (v, m')) :
      (do let v ← x; pure (~~~v) : Eval World Word) m = some (~~~v, m') := by
    simp [hv]
  constructor
  case sound =>
    intro n
    induction n using Nat.strongRecOn with
    | ind n ih =>
      intro stack m scratch e hn
      cases hv : x m with
      | none => exact (hx.stuck (by simp [hv]) hn).elim
      | some r =>
        obtain ⟨v, m₁⟩ := r
        obtain ⟨a, scratch₁, ha, hr⟩ := hx.goes stack scratch (hx' hv)
        obtain ⟨n₁, rfl, hn₁⟩ := (hr n e).mp hn
        by_cases hz : ~~~v = 0
        · rw [if_pos hz] at hn₁
          obtain ⟨e₁, he₁, hcont⟩ := hb.sound hn₁
          cases e₁ with
          | returned w m₂ => exact ⟨_, .returns hv hz he₁, hcont⟩
          | completed m₂ =>
            obtain ⟨n₂, scratch₂, hle, hn₂⟩ := hcont
            obtain ⟨n₃, rfl, hn₃⟩ := (hq _ n₂ e).mp hn₂
            obtain ⟨e₀, hl, he⟩ := ih n₃ (by omega) hn₃
            exact ⟨e₀, .again hv hz he₁ hl, he.mono (by omega)⟩
        · rw [if_neg hz] at hn₁
          obtain ⟨n₂, rfl, hn₂⟩ := (hd _ n₁ e).mp hn₁
          exact ⟨_, .leave hv hz, n₂, scratch₁, by omega, hn₂⟩
  case complete =>
    intro stack m e₀ scratch hl
    induction hl generalizing scratch with
    | leave hv hz =>
      obtain ⟨a, scratch₁, -, hr⟩ := hx.goes stack scratch (hx' hv)
      rw [if_neg hz] at hr
      exact ⟨scratch₁, fun e he => hr.ends_iff.mpr ((hd _).ends_iff.mpr he)⟩
    | again hv hz he₁ _ ih =>
      obtain ⟨a, scratch₁, -, hr⟩ := hx.goes stack scratch (hx' hv)
      rw [if_pos hz] at hr
      refine ((hb.complete scratch₁ he₁).of_reaches hr).trans fun scratch₂ => ?_
      exact (ih scratch₂).of_reaches (hq _)
    | returns hv hz he₁ =>
      obtain ⟨a, scratch₁, -, hr⟩ := hx.goes stack scratch (hx' hv)
      rw [if_pos hz] at hr
      exact (hb.complete scratch₁ he₁).of_reaches hr

end VM.Implements

theorem Expression.straight_code (e : Expression) : ∀ c ∈ e.code, c.IsStraight :=
  fun c hc => (e.quiet_code c hc).isStraight

theorem Term.straight_code (t : Term) : ∀ c ∈ t.code, c.IsStraight :=
  fun c hc => (t.quiet_code c hc).isStraight

@[simp] theorem Variable.isStraight_push (v : Variable) : v.push.IsStraight := trivial

@[simp] theorem Variable.isStraight_pop (v : Variable) : v.pop.IsStraight := trivial

theorem Variable.computes_pop (calls : Calls World) (target : Variable) (v : Word) :
    Computes calls [v] [target.pop] (fun _ => []) (target.assign v) :=
  Computes.single fun _ _ scratch => ⟨scratch, target.run_pop calls v _ _ scratch⟩

theorem Variable.computes_address (calls : Calls World) (array : Variable) (i : Word) :
    Computes calls [i] [array.push, .arithmetic .add] ([·]) (array.address i) := by
  intro stack m scratch
  exact ⟨scratch, by simp [Arithmetic.apply]⟩

theorem computes_storeElement (calls : Calls World) (address v : Word) :
    Computes calls [v, address] storeElement (fun _ => []) (storeAt address v) := by
  intro stack m scratch
  refine ⟨{ that := address, temp := setAt scratch.temp 0 v }, ?_⟩
  simp [storeElement]

theorem computes_assign (calls : Calls World) (target : Variable) (value : Expression)
    (h : Fit value.arities) :
    Computes calls [] (value.code ++ [target.pop]) (fun _ => [])
      (do let v ← value.eval calls; target.assign v) :=
  (value.computes calls h).append fun v _ _ _ => target.computes_pop calls v

theorem computes_store (calls : Calls World) (array : Variable) (index value : Expression)
    (hi : Fit index.arities) (hv : Fit value.arities) :
    Computes calls []
      (index.code ++ ([array.push, .arithmetic .add] ++ (value.code ++ storeElement)))
      (fun _ => [])
      (do
        let i ← index.eval calls
        let a ← array.address i
        let v ← value.eval calls
        storeAt a v) := by
  refine (index.computes calls hi).append fun i _ _ _ => ?_
  refine (array.computes_address calls i).append fun a _ _ _ => ?_
  exact ((value.computes calls hv).above [a]).append fun v _ _ _ => computes_storeElement calls a v

theorem computes_do (calls : Calls World) (callee : Callee) (arguments : List Expression)
    (h : Fit (Term.call callee arguments).arities) :
    Computes calls [] ((Term.call callee arguments).code ++ [.pop .temp 0]) (fun _ => [])
      (do let _ ← (Term.call callee arguments).eval calls) := by
  refine ((Term.call callee arguments).computes calls h).append fun v _ _ _ => ?_
  intro stack m scratch
  exact ⟨{ scratch with temp := setAt scratch.temp 0 v }, by simp⟩

theorem computes_not (calls : Calls World) (condition : Expression) (h : Fit condition.arities) :
    Computes calls [] (condition.code ++ [.arithmetic .not]) ([·])
      (do let v ← condition.eval calls; pure (~~~v)) :=
  (condition.computes calls h).append fun v _ _ _ => UnaryOp.computes calls .not v

section Places

variable (calls : Calls World) {block : List Command}

mutual

theorem Statement.implements (hl : (labels block).Nodup) (s : Statement) (hf : Fit s.arities)
    (k : LabelCount) (i : Nat) (h : CodeAt block i (s.code k).1) :
    Implements calls block i (i + (s.code k).1.length) (s.behaviour calls) := by
  cases s with
  | assign target value =>
    simp only [Statement.code] at h ⊢
    refine Implements.ofEval (computes_assign calls target value hf) ?_ h
    simpa [or_imp, forall_and] using value.straight_code
  | store array index value =>
    obtain ⟨hi, hv⟩ := fit_append.mp hf
    simp only [Statement.code, List.append_assoc] at h ⊢
    refine Implements.ofEval (computes_store calls array index value hi hv) ?_ h
    simpa [or_imp, forall_and, storeElement] using And.intro index.straight_code value.straight_code
  | «do» callee arguments =>
    simp only [Statement.code] at h ⊢
    refine Implements.ofEval (computes_do calls callee arguments hf) ?_ h
    simpa [or_imp, forall_and] using (Term.call callee arguments).straight_code
  | «return» value =>
    cases value with
    | none =>
      have hr : Implements calls block i (i + 2) (after (pure 0) returns) :=
        .returns (computes_constant calls 0) (by simp) h
      rwa [after_pure] at hr
    | some value => exact Implements.returns (value.computes calls hf) value.straight_code h
  | ifThen condition yes =>
    obtain ⟨hcondition, hfy⟩ := fit_append.mp hf
    have hyes := Statement.implements_all hl yes hfy k.forIf.2
    simp only [Statement.code, List.append_assoc, List.cons_append, List.nil_append] at h ⊢
    have hgoto := h.right.tail
    have htrue := hgoto.tail
    have hfalse := htrue.tail.right
    have hc := Decides.of_computes (condition.computes calls hcondition) condition.straight_code h
      (htrue.target hl)
    have hskip : Implements calls block _ _ skip := .enter (passes_label hfalse) .skip
    have hn := hskip.enter (passes_goto hgoto (hfalse.target hl))
    have hy := ((hyes _ htrue.tail.left).leave (passes_label hfalse)).enter (passes_label htrue)
    refine (Implements.branch hc hn hy).cast ?_
    simp
    omega
  | ifElse condition yes no =>
    obtain ⟨hfy, hfn⟩ := fit_append.mp hf
    obtain ⟨hcondition, hfy⟩ := fit_append.mp hfy
    have hyes := Statement.implements_all hl yes hfy k.forIf.2
    have hno := Statement.implements_all hl no hfn (Statement.codeAll k.forIf.2 yes).2
    simp only [Statement.code, List.append_assoc, List.cons_append, List.nil_append] at h ⊢
    have hgoto := h.right.tail
    have htrue := hgoto.tail
    have hexit := htrue.tail.right
    have hfalse := hexit.tail
    have hdone := hfalse.tail.right
    have hc := Decides.of_computes (condition.computes calls hcondition) condition.straight_code h
      (htrue.target hl)
    have hy := ((hyes _ htrue.tail.left).leave (passes_goto hexit (hdone.target hl))).leave
      (passes_label hdone)
    have hn := ((hno _ hfalse.tail.left).leave (passes_label hdone)).enter (passes_label hfalse)
    refine (Implements.branch hc (hn.enter (passes_goto hgoto (hfalse.target hl)))
      (hy.enter (passes_label htrue))).cast ?_
    simp
    omega
  | «while» condition body =>
    obtain ⟨hcondition, hfb⟩ := fit_append.mp hf
    have hbody := Statement.implements_all hl body hfb k.forWhile.2
    simp only [Statement.code, List.append_assoc, List.cons_append, List.nil_append] at h ⊢
    have htest := h.tail
    rw [List.append_cons] at htest
    have hback := htest.right.tail.right
    have hdone := hback.tail
    have hs : ∀ c ∈ condition.code ++ [.arithmetic .not], c.IsStraight := by
      simpa [or_imp, forall_and] using condition.straight_code
    have hc := (Decides.of_computes (computes_not calls condition hcondition) hs htest
      (hdone.target hl)).enter (passes_label h)
    refine (Implements.loop hc (hbody _ htest.right.tail.left) (passes_goto hback (h.target hl))
      (passes_label hdone)).cast ?_
    simp
    omega

theorem Statement.implements_all (hl : (labels block).Nodup) (ss : List Statement)
    (hf : Fit (Statement.aritiesAll ss)) (k : LabelCount) (i : Nat)
    (h : CodeAt block i (Statement.codeAll k ss).1) :
    Implements calls block i (i + (Statement.codeAll k ss).1.length)
      (Statement.behaviourAll calls ss) := by
  match ss with
  | [] => exact Implements.skip
  | s :: ss =>
    obtain ⟨hfs, hfss⟩ := fit_append.mp hf
    have hs := s.implements hl hfs k i h.left
    have hss := Statement.implements_all hl ss hfss (s.code k).2 _ h.right
    rw [Nat.add_assoc, ← List.length_append] at hss
    exact hs.andThen hss

end

end Places

/-- If each call in it has fewer arguments than 16 bits can count, the code of a body behaves as the
statements of it do, whatever the calls do and whatever is on the stack. From the place where it begins, runs leave the block by the same returns of the same
values, or at its end, with the same memories; and where the statements have no ending, because of
a loop that does not end or a call that does not return, no run leaves the block. -/
theorem Subroutine.code_preserves_behaviour (calls : Calls World) (className : String)
    (fields : Nat) (s : Subroutine) (hf : Fit s.arities) (state : State World) (e : Ending World) :
    Ends calls (s.code className fields) ⟨1 + (s.kind.prologue fields).length, state⟩ e ↔
      Statement.behaviourAll calls s.body state.memory e := by
  have hl : (labels (s.code className fields)).Nodup := by
    rw [s.labels_code]
    exact (Statement.numbered_all .zero s.body).nodup
  have hc : CodeAt (s.code className fields) (1 + (s.kind.prologue fields).length)
      (Statement.codeAll .zero s.body).1 := by
    refine ⟨.function (className ++ "." ++ s.name) (Declaration.total s.locals) ::
      s.kind.prologue fields, [], by simp [Subroutine.code], by simp [Nat.add_comm]⟩
  have hj : 1 + (s.kind.prologue fields).length + (Statement.codeAll .zero s.body).1.length =
      (s.code className fields).length := by
    simp [Subroutine.code]
    omega
  have hi := (Statement.implements_all calls hl s.body hf .zero _ hc).cast hj
  constructor
  · rintro ⟨n, hn⟩
    obtain ⟨e₀, hb, he⟩ := hi.sound hn
    cases e₀ with
    | returned v m =>
      cases he
      exact hb
    | completed m =>
      obtain ⟨k, scratch, -, hk⟩ := he
      obtain ⟨-, rfl⟩ := endsIn_length.mp hk
      exact hb
  · intro hb
    have he : Leads calls _ _ _ state.stack e := hi.complete state.scratch hb
    cases e with
    | returned v m => exact he
    | completed m =>
      obtain ⟨scratch, he⟩ := he
      exact he _ ⟨0, endsIn_length.mpr ⟨rfl, rfl⟩⟩

def counter : Variable := ⟨"n", "int", .argument, 1⟩

/-- `method int zero(int n) { while (n > 0) { let n = less(n); } return n; }` of the class `A`. -/
def countdown : Subroutine where
  kind := .method
  returnType := .value .int
  name := "zero"
  parameters := [⟨.int, "n"⟩]
  locals := []
  body :=
    [.while (.chain (.variable counter) [(.gt, .integer 0)])
      [.assign counter (.chain (.call (.own "A" "less") [.chain (.variable counter) []]) [])],
    .return (some (.chain (.variable counter) []))]

/-- The body begins behind the command that names the subroutine and the two that set `pointer 0`. The
loop is gone through once. -/
theorem countdown_returns_zero : Fit countdown.arities ∧
    Ends lessCalls (countdown.code "A" 0) ⟨3, oneGiven⟩ (.returned 0 (counter.set oneGiven.memory 0)) := by
  have hfit : Fit countdown.arities := by decide
  refine ⟨hfit, (countdown.code_preserves_behaviour lessCalls "A" 0 hfit oneGiven _).mpr ?_⟩
  refine .inr ⟨counter.set oneGiven.memory 0, ?loop, .inl ⟨_, _, rfl, rfl⟩⟩
  have hleave (body : Behaviour Unit) :
      Loop ((Expression.chain (.variable counter) [(.gt, .integer 0)]).eval lessCalls) body
        (counter.set oneGiven.memory 0) (.completed (counter.set oneGiven.memory 0)) :=
    .leave (v := truth false) rfl (by decide)
  exact .again (v := truth true) rfl (by decide) ⟨_, ⟨(), _, rfl, rfl⟩, rfl⟩ (hleave _)

end Jack
