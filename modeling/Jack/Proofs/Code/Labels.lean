import Jack.Proofs.Code.Leaves

namespace Jack

open VM (Command Label)

namespace VM

@[simp] def Command.label? : Command → Option Label
  | .label l => some l
  | _ => none

def labels (code : List Command) : List Label :=
  code.filterMap Command.label?

@[simp] theorem labels_nil : labels [] = [] := rfl

@[simp] theorem labels_cons (c : Command) (code : List Command) :
    labels (c :: code) = c.label?.toList ++ labels code := by
  cases h : c.label? with
  | none => exact List.filterMap_cons_none h
  | some l => exact List.filterMap_cons_some h

@[simp] theorem labels_append (c d : List Command) : labels (c ++ d) = labels c ++ labels d :=
  List.filterMap_append

theorem mem_labels {l : Label} {code : List Command} : l ∈ labels code ↔ .label l ∈ code := by
  simp only [labels, List.mem_filterMap]
  constructor
  · rintro ⟨c, hc, h⟩
    cases c with
    | label k =>
      cases h
      exact hc
    | push | pop | arithmetic | goto | ifGoto | function | call | «return» => cases h
  · exact fun h => ⟨.label l, h, rfl⟩

end VM

open VM (labels labels_append)

/-- A label that is given out from the count `k` on and before the count `k'`. -/
def LabelCount.Gives (k k' : LabelCount) (l : Label) : Prop :=
  match l.role with
  | .ifTrue | .ifFalse | .ifEnd => k.ifs ≤ l.id ∧ l.id < k'.ifs
  | .whileCondition | .whileEnd => k.whiles ≤ l.id ∧ l.id < k'.whiles

def LabelCount.Le (k k' : LabelCount) : Prop :=
  k.ifs ≤ k'.ifs ∧ k.whiles ≤ k'.whiles

/-- The code defines labels between the two counts, each at most once. -/
structure Numbered (k k' : LabelCount) (code : List Command) : Prop where
  le : k.Le k'
  gives : ∀ l ∈ labels code, k.Gives k' l
  nodup : (labels code).Nodup

theorem LabelCount.Gives.mono {k₁ k₂ k₃ k₄ : LabelCount} {l : Label} (h : k₂.Gives k₃ l)
    (h₁ : k₁.Le k₂) (h₃ : k₃.Le k₄) : k₁.Gives k₄ l := by
  obtain ⟨role, id⟩ := l
  obtain ⟨hi, hw⟩ := h₁
  obtain ⟨hi', hw'⟩ := h₃
  cases role <;> simp only [LabelCount.Gives] at h ⊢ <;> omega

theorem LabelCount.Gives.ne {k₁ k₂ k₃ : LabelCount} {l l' : Label} (h : k₁.Gives k₂ l)
    (h' : k₂.Gives k₃ l') : l ≠ l' := by
  rintro rfl
  obtain ⟨role, id⟩ := l
  cases role <;> simp only [LabelCount.Gives] at h h' <;> omega

namespace Numbered

variable {k k' k'' : LabelCount} {c d : List Command}

theorem of_labels_eq_nil (h : labels c = []) : Numbered k k c :=
  ⟨⟨Nat.le_refl _, Nat.le_refl _⟩, by simp [h], by simp [h]⟩

theorem append (hc : Numbered k k' c) (hd : Numbered k' k'' d) : Numbered k k'' (c ++ d) := by
  refine ⟨⟨Nat.le_trans hc.le.1 hd.le.1, Nat.le_trans hc.le.2 hd.le.2⟩, ?_, ?_⟩
  · intro l hl
    rw [labels_append, List.mem_append] at hl
    obtain hl | hl := hl
    · exact (hc.gives l hl).mono ⟨Nat.le_refl _, Nat.le_refl _⟩ hd.le
    · exact (hd.gives l hl).mono hc.le ⟨Nat.le_refl _, Nat.le_refl _⟩
  · rw [labels_append, List.nodup_append]
    exact ⟨hc.nodup, hd.nodup, fun a ha b hb => (hc.gives a ha).ne (hd.gives b hb)⟩

/-- The labels `own` of a construct are given out before those of what is nested in it. -/
theorem around (hc : Numbered k' k'' c) (own : List Label) (hl : k.Le k')
    (hg : ∀ l ∈ own, k.Gives k' l) (hn : own.Nodup) (hp : (labels d).Perm (own ++ labels c)) :
    Numbered k k'' d := by
  refine ⟨⟨Nat.le_trans hl.1 hc.le.1, Nat.le_trans hl.2 hc.le.2⟩, ?_, ?_⟩
  · intro l h
    obtain h | h := List.mem_append.mp (hp.mem_iff.mp h)
    · exact (hg l h).mono ⟨Nat.le_refl _, Nat.le_refl _⟩ hc.le
    · exact (hc.gives l h).mono hl ⟨Nat.le_refl _, Nat.le_refl _⟩
  · rw [hp.nodup_iff, List.nodup_append]
    exact ⟨hn, hc.nodup, fun a ha b hb => (hg a ha).ne (hc.gives b hb)⟩

end Numbered

theorem VM.Command.IsQuiet.label?_eq_none {c : Command} (h : c.IsQuiet) : c.label? = none := by
  cases c with
  | label => exact h.elim
  | push | pop | arithmetic | goto | ifGoto | function | call | «return» => rfl

theorem labels_eq_nil_of_quiet {code : List Command} (h : ∀ c ∈ code, c.IsQuiet) :
    labels code = [] :=
  List.filterMap_eq_nil_iff.mpr fun c hc => (h c hc).label?_eq_none

@[simp] theorem Expression.labels_code (e : Expression) : labels e.code = [] :=
  labels_eq_nil_of_quiet e.quiet_code

@[simp] theorem Term.labels_code (t : Term) : labels t.code = [] :=
  labels_eq_nil_of_quiet t.quiet_code

mutual

theorem Statement.numbered (k : LabelCount) (s : Statement) :
    Numbered k (s.code k).2 (s.code k).1 := by
  cases s with
  | assign target value =>
    refine Numbered.of_labels_eq_nil ?_
    simp [Statement.code, Variable.pop]
  | store array index value =>
    refine Numbered.of_labels_eq_nil ?_
    simp [Statement.code, storeElement, Variable.push]
  | ifThen condition yes =>
    have hy := Statement.numbered_all k.forIf.2 yes
    refine hy.around [k.forIf.1.onTrue, k.forIf.1.onFalse] ?_ ?_ ?_ ?_
    · simp [LabelCount.Le, LabelCount.forIf]
    · simp [LabelCount.Gives, LabelCount.forIf]
    · simp [LabelCount.forIf]
    · simp [Statement.code]
  | ifElse condition yes no =>
    have hy := Statement.numbered_all k.forIf.2 yes
    have hn := Statement.numbered_all (Statement.codeAll k.forIf.2 yes).2 no
    refine (hy.append hn).around [k.forIf.1.onTrue, k.forIf.1.onFalse, k.forIf.1.done] ?_ ?_ ?_ ?_
    · simp [LabelCount.Le, LabelCount.forIf]
    · simp [LabelCount.Gives, LabelCount.forIf]
    · simp [LabelCount.forIf]
    · rw [List.perm_iff_count]
      intro l
      simp [Statement.code, List.count_cons]
      omega
  | «while» condition body =>
    have hb := Statement.numbered_all k.forWhile.2 body
    refine hb.around [k.forWhile.1.condition, k.forWhile.1.done] ?_ ?_ ?_ ?_
    · simp [LabelCount.Le, LabelCount.forWhile]
    · simp [LabelCount.Gives, LabelCount.forWhile]
    · simp [LabelCount.forWhile]
    · simp [Statement.code]
  | «do» callee arguments =>
    refine Numbered.of_labels_eq_nil ?_
    simp [Statement.code]
  | «return» value =>
    cases value <;>
    · refine Numbered.of_labels_eq_nil ?_
      simp [Statement.code]

theorem Statement.numbered_all (k : LabelCount) (ss : List Statement) :
    Numbered k (Statement.codeAll k ss).2 (Statement.codeAll k ss).1 := by
  cases ss with
  | nil => exact .of_labels_eq_nil rfl
  | cons s ss => exact (s.numbered k).append (Statement.numbered_all (s.code k).2 ss)

end

theorem Subroutine.labels_code (className : String) (fields : Nat) (s : Subroutine) :
    labels (s.code className fields) = labels (Statement.codeAll .zero s.body).1 := by
  cases hk : s.kind <;> simp [Subroutine.code, SubroutineKind.prologue, hk]

end Jack
