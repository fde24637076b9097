import Jack.Proofs.Meaning.Expression

namespace Jack.VM

variable {World α β : Type} {calls : Calls World}

@[simp] theorem exec_nil (s : State World) : exec calls [] s = some s := rfl

@[simp] theorem exec_cons (c : Command) (cs : List Command) (s : State World) :
    exec calls (c :: cs) s = (c.run calls s).bind (exec calls cs) := rfl

theorem exec_append (cs ds : List Command) (s : State World) :
    exec calls (cs ++ ds) s = (exec calls cs s).bind (exec calls ds) := by
  induction cs generalizing s with
  | nil => rfl
  | cons c cs ih =>
    cases h : c.run calls s with
    | none => simp [h]
    | some t => simpa [h] using ih t

/-- Above any stack, the code takes the words `given` from the stack and leaves those that the
result of `x` is laid out as. The memory afterwards is that of `x`. -/
def Computes (calls : Calls World) (given : List Word) (code : List Command)
    (layout : α → List Word) (x : Eval World α) : Prop :=
  ∀ stack m scratch,
    match x m with
    | none => exec calls code ⟨given ++ stack, m, scratch⟩ = none
    | some (a, m') =>
      ∃ scratch', exec calls code ⟨given ++ stack, m, scratch⟩ = some ⟨layout a ++ stack, m', scratch'⟩

namespace Computes

variable {given : List Word} {c₁ c₂ : List Command} {layout : α → List Word}
  {layout' : β → List Word} {x : Eval World α} {f : α → Eval World β}

theorem append (h₁ : Computes calls given c₁ layout x)
    (h₂ : ∀ a m m', x m = some (a, m') → Computes calls (layout a) c₂ layout' (f a)) :
    Computes calls given (c₁ ++ c₂) layout' (x >>= f) := by
  intro stack m scratch
  have h := h₁ stack m scratch
  cases hx : x m with
  | none =>
    rw [hx] at h
    simp [hx, exec_append, h]
  | some p =>
    obtain ⟨a, m'⟩ := p
    rw [hx] at h
    obtain ⟨scratch', h⟩ := h
    simpa [hx, exec_append, h] using h₂ a m m' hx stack m' scratch'

/-- The first piece of code leaves what the second takes, whatever the memory. -/
theorem after {a : α} {y : Eval World β} (h₁ : Computes calls given c₁ layout (pure a))
    (h₂ : Computes calls (layout a) c₂ layout' y) : Computes calls given (c₁ ++ c₂) layout' y := by
  intro stack m scratch
  obtain ⟨scratch', h⟩ := h₁ stack m scratch
  simpa [exec_append, h] using h₂ stack m scratch'

theorem above (below : List Word) (h : Computes calls given c₁ layout x) :
    Computes calls (given ++ below) c₁ (fun a => layout a ++ below) x := by
  intro stack m scratch
  simpa only [List.append_assoc] using h (below ++ stack) m scratch

theorem nil {a : α} (h : layout a = given) : Computes calls given [] layout (pure a) := by
  intro stack m scratch
  exact ⟨scratch, by rw [h]; rfl⟩

theorem map {g : α → β} (h : Computes calls given c₁ layout x)
    (hg : ∀ a, layout' (g a) = layout a) :
    Computes calls given c₁ layout' (x >>= fun a => pure (g a)) := by
  have hc : Computes calls given (c₁ ++ []) layout' (x >>= fun a => pure (g a)) :=
    h.append fun a _ _ _ => nil (hg a)
  rwa [List.append_nil] at hc

theorem single {c : Command}
    (h : ∀ stack m scratch, match x m with
      | none => c.run calls ⟨given ++ stack, m, scratch⟩ = none
      | some (a, m') => ∃ scratch',
        c.run calls ⟨given ++ stack, m, scratch⟩ = some ⟨layout a ++ stack, m', scratch'⟩) :
    Computes calls given [c] layout x := by
  intro stack m scratch
  have h := h stack m scratch
  cases hx : x m with
  | none =>
    rw [hx] at h
    simp [h]
  | some p =>
    rw [hx] at h
    obtain ⟨scratch', h⟩ := h
    exact ⟨scratch', by simp [h]⟩

theorem arithmetic {op : Arithmetic} {v : Word} (h : ∀ stack, op.apply (given ++ stack) = some (v :: stack)) :
    Computes calls given [.arithmetic op] ([·]) (pure v) :=
  single fun stack m scratch => ⟨scratch, by simp [h]⟩

theorem call (name : String) (vs : List Word) :
    Computes calls vs.reverse [.call name vs.length] ([·]) (callValue calls name vs) := by
  refine single fun stack m scratch => ?_
  have h' : (vs.reverse ++ stack).drop vs.length = stack := List.drop_left' vs.length_reverse
  cases ha : calls.answer name vs m <;> simp [callValue, Command.run_call, h', ha]

theorem push {segment : Segment} {i : Nat} {v : Memory World → Word}
    (h : ∀ s : State World, s.load segment i = some (v s.memory)) :
    Computes calls [] [.push segment i] ([·]) fun m => some (v m, m) :=
  single fun stack m scratch => ⟨scratch, by simp [h]⟩

end Computes

end Jack.VM
