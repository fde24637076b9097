import Jack.Proofs.Code.Arity
import Jack.Proofs.Reading.Paced

namespace Jack.Parse

theorem Fueled.bind_eq_ok {α β : Type} {x : Fueled α} {f : α → Fueled β} {w v : Window} {b : β}
    (h : (x >>= f) w = .ok (.ok (b, v))) : ∃ a u, x w = .ok (.ok (a, u)) ∧ f a u = .ok (.ok (b, v)) := by
  rw [bind_apply] at h
  cases hx : x w with
  | error reason => rw [hx] at h; cases h
  | ok z =>
    rw [hx] at h
    cases z with
    | error s => cases h
    | ok z => exact ⟨z.1, z.2, rfl, h⟩

/-- Each item takes one of the fuel. -/
theorem Fueled.length_loop {α σ : Type} {starts : List TokenKind} {item : σ → Fueled (α × σ)} {n : Nat}
    {xs : List α} {s : σ} {w v : Window} {p : List α × σ} (h : loop starts item n xs s w = .ok (.ok (p, v))) :
    p.1.length < xs.length + n := by
  induction n generalizing xs s w with
  | zero => cases h
  | succ n ih =>
    rw [loop, choose] at h
    split at h
    next =>
      obtain ⟨q, u, -, hq⟩ := bind_eq_ok h
      have hp := ih hq
      rw [List.length_cons] at hp
      omega
    next =>
      cases h
      simp

/-- `x` does what `y` does, or gives up because of a sum, for which `O` has to hold. Of what `y` returns `C`
holds exactly if `P` holds and `x` does not give up. -/
structure Guards {α : Type} (O P : Prop) (C : α → Prop) (x y : Fueled α) : Prop where
  agrees (w : Window) : (x w = .error .overflow ∧ O) ∨ x w = y w
  exact {w v : Window} {a : α} : y w = .ok (.ok (a, v)) → (C a ↔ P ∧ x w ≠ .error .overflow)

namespace Guards

variable {α β σ : Type} {O P Q : Prop} {C D : α → Prop} {E : β → Prop} {x x' y y' : Fueled α} {n : Nat}
  {starts kinds : List TokenKind}

theorem congr (h : Guards O P C x y) (hP : P ↔ Q) (hC : ∀ a, C a ↔ D a) : Guards O Q D x y :=
  ⟨h.agrees, fun hy => by rw [← hC, ← hP, h.exact hy]⟩

theorem widen (h : Guards O P C x y) (hO : O → Q) : Guards Q P C x y :=
  ⟨fun w => (h.agrees w).imp_left fun hx => ⟨hx.1, hO hx.2⟩, h.exact⟩

theorem frame (h : Guards O True C x y) (P : Prop) : Guards O P (fun a => P ∧ C a) x y :=
  ⟨h.agrees, fun hy => by rw [h.exact hy, true_and]⟩

theorem of (m : Reading α) : Guards O P (fun _ => P) (Fueled.of m) (Fueled.of m) :=
  ⟨fun _ => .inr rfl, fun _ => ⟨fun h => ⟨h, nofun⟩, And.left⟩⟩

theorem fail (fault : Fault) : Guards O P C (Fueled.of (Reading.fail fault)) (Fueled.of (Reading.fail fault)) :=
  ⟨fun _ => .inr rfl, nofun⟩

theorem refuse (expected : List TokenKind) :
    Guards O P C (Fueled.of (Reading.refuse expected)) (Fueled.of (Reading.refuse expected)) :=
  ⟨fun _ => .inr rfl, nofun⟩

theorem spent : Guards O P C (Fueled.giveUp .spent) (Fueled.giveUp .spent) :=
  ⟨fun _ => .inr rfl, nofun⟩

theorem give {a : α} (h : C a ↔ P) : Guards O P C (pure a) (pure a) where
  agrees _ := .inr rfl
  exact hy := by
    cases hy
    exact h.trans ⟨fun hP => ⟨hP, nofun⟩, And.left⟩

theorem bind_of {f g : α → Fueled β} (h : Guards O P C x y)
    (hf : ∀ a, (∃ w v, y w = .ok (.ok (a, v))) → Guards O (C a) E (f a) (g a)) :
    Guards O P E (x >>= f) (y >>= g) where
  agrees w := by
    rw [Fueled.bind_apply, Fueled.bind_apply]
    obtain hx | hx := h.agrees w
    · exact .inl ⟨by rw [hx.1], hx.2⟩
    · rw [hx]
      cases hy : y w with
      | error reason => exact .inr rfl
      | ok z =>
        cases z with
        | error s => exact .inr rfl
        | ok z => exact (hf z.1 ⟨w, z.2, hy⟩).agrees z.2
  exact {w v b} hb := by
    obtain ⟨a, u, hy, hb⟩ := Fueled.bind_eq_ok hb
    rw [(hf a ⟨w, u, hy⟩).exact hb, h.exact hy, and_assoc, Fueled.bind_apply]
    refine and_congr_right fun _ => ?_
    obtain hx | hx := h.agrees w
    · simp [hx.1]
    · simp [hx, hy]

theorem bind {f g : α → Fueled β} (h : Guards O P C x y) (hf : ∀ a, Guards O (C a) E (f a) (g a)) :
    Guards O P E (x >>= f) (y >>= g) :=
  h.bind_of fun a _ => hf a

theorem choose (h : Guards O P C x y) (h' : Guards O P C x' y') :
    Guards O P C (Fueled.choose kinds x x') (Fueled.choose kinds y y') where
  agrees w := by
    rw [Fueled.choose, Fueled.choose]
    split
    next => exact h.agrees w
    next => exact h'.agrees w
  exact {w v a} hy := by
    rw [Fueled.choose] at hy
    rw [Fueled.choose]
    split at hy
    next hk => rw [if_pos hk, h.exact hy]
    next hk => rw [if_neg hk, h'.exact hy]

theorem inRule {rule : Rule} (h : Guards O P C x y) :
    Guards O P C (Fueled.inRule rule x) (Fueled.inRule rule y) :=
  (of _).bind fun _ => h.bind fun _ => (of _).bind fun _ => give Iff.rfl

/-- A number that 16 bits hold is added to. -/
theorem add_bind {f g : Nat → Fueled β} {k l : Nat}
    (h : Guards O (k + l < 65536 ∧ P) E (f ((k + l) % 65536)) (g ((k + l) % 65536)))
    (hO : 65536 ≤ k + l → O) :
    Guards O (k < 65536 ∧ P) E (Fueled.add .checked (k % 65536) l >>= f)
      (Fueled.add .wrapping (k % 65536) l >>= g) := by
  have hg : Fueled.add .wrapping (k % 65536) l >>= g = g ((k + l) % 65536) := by
    rw [Fueled.add, pure_bind, Nat.mod_add_mod]
  rw [hg, Fueled.add]
  by_cases hl : k % 65536 + l < 65536
  · have hs : k % 65536 + l = (k + l) % 65536 := by rw [← Nat.mod_add_mod, Nat.mod_eq_of_lt hl]
    rw [if_pos hl, pure_bind, hs]
    refine ⟨h.agrees, fun hy => ?_⟩
    rw [h.exact hy]
    refine and_congr_left fun _ => and_congr_left fun _ => ?_
    omega
  · rw [if_neg hl]
    refine ⟨fun _ => .inl ⟨rfl, hO (by omega)⟩, fun hy => ⟨fun hE => ?_, fun hP => absurd rfl hP.2⟩⟩
    have hk := ((h.exact hy).mp hE).1.1
    omega

theorem loop {f g : σ → Fueled (α × σ)} (h : ∀ s, Guards O True (fun p => C p.1) (f s) (g s)) (xs : List α)
    (s : σ) : Guards O (∀ a ∈ xs, C a) (fun p => ∀ a ∈ p.1, C a) (Fueled.loop starts f n xs s)
      (Fueled.loop starts g n xs s) := by
  induction n generalizing xs s with
  | zero => exact spent
  | succ n ih =>
    refine choose (((h s).frame _).bind fun p => ?_) (give (by simp))
    exact (ih (p.1 :: xs) p.2).congr (by simp [and_comm]) fun _ => Iff.rfl

theorem loop_nil {f g : σ → Fueled (α × σ)} (h : ∀ s, Guards O True (fun p => C p.1) (f s) (g s)) (s : σ) :
    Guards O True (fun p => ∀ a ∈ p.1, C a) (Fueled.loop starts f n [] s) (Fueled.loop starts g n [] s) :=
  (loop h [] s).congr (by simp) fun _ => Iff.rfl

theorem repeated (h : Guards O True C x y) :
    Guards O True (fun as => ∀ a ∈ as, C a) (Fueled.repeated starts x n) (Fueled.repeated starts y n) :=
  (loop_nil (fun _ => h.bind fun _ => give Iff.rfl) ()).bind fun _ => give Iff.rfl

theorem calm_loop {f : σ → Fueled (α × σ)} (h : ∀ s, Guards O True (fun _ => True) (f s) (f s)) (s : σ) :
    Guards O True (fun _ => True) (Fueled.loop starts f n [] s) (Fueled.loop starts f n [] s) :=
  (loop_nil (C := fun _ => True) h s).congr Iff.rfl fun _ => by simp

theorem counting (h : Guards O True C x y) (xs : List α) (hO : 65535 ≤ xs.length + n → O) :
    Guards O (xs.length + 1 < 65536 ∧ ∀ a ∈ xs, C a) (fun p => p.1.length + 1 < 65536 ∧ ∀ a ∈ p.1, C a)
      (Fueled.loop starts (Fueled.counting .checked x) n xs ((xs.length + 1) % 65536))
      (Fueled.loop starts (Fueled.counting .wrapping y) n xs ((xs.length + 1) % 65536)) := by
  induction n generalizing xs with
  | zero => exact spent
  | succ n ih =>
    refine choose ?_ (give (by simp))
    simp only [Fueled.counting, bind_assoc, pure_bind]
    refine (h.frame _).bind fun a => ?_
    have hO (hn : 65535 ≤ (a :: xs).length + n) : O := hO (by rw [List.length_cons] at hn; omega)
    refine (add_bind (P := ∀ b ∈ a :: xs, C b) (ih (a :: xs) hO) fun hk => hO (by omega)).congr ?_ fun _ => Iff.rfl
    rw [List.forall_mem_cons, List.length_cons, and_left_comm, and_comm]

theorem counting_nil (h : Guards O True C x y) (hO : 65535 ≤ n → O) :
    Guards O True (fun p => p.1.length + 1 < 65536 ∧ ∀ a ∈ p.1, C a)
      (Fueled.loop starts (Fueled.counting .checked x) n [] 1)
      (Fueled.loop starts (Fueled.counting .wrapping y) n [] 1) :=
  (counting h [] (by simpa using hO)).congr (by simp) fun _ => Iff.rfl

end Guards

end Jack.Parse
