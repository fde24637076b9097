import Jack.Proofs.Lexeme.Break

namespace Jack

namespace Location

variable {before cs : List Char}

def Precedes (l l' : Location) : Prop :=
  l.line < l'.line ∨ l.line = l'.line ∧ l.column < l'.column

theorem sinceNewline_append (h : '\n' ∉ cs) : sinceNewline (before ++ cs) = sinceNewline before + cs.length := by
  have hcs : ∀ c ∈ cs.reverse, decide (c ≠ '\n') = true := fun c hc => by
    simpa using ne_of_mem_of_not_mem (List.mem_reverse.mp hc) h
  rw [sinceNewline, sinceNewline, List.reverse_append, List.takeWhile_append_of_pos hcs, List.length_append,
    List.length_reverse, Nat.add_comm]

theorem behind_precedes (h : cs ≠ []) : (behind before).Precedes (behind (before ++ cs)) := by
  by_cases hn : '\n' ∈ cs
  · have := List.count_pos_iff.mpr hn
    exact .inl (by simp only [behind, List.count_append]; omega)
  · have := List.length_pos_iff.mpr h
    refine .inr ⟨by simp [behind, List.count_eq_zero.mpr hn], ?_⟩
    simp only [behind, sinceNewline_append hn]
    omega

end Location

namespace Lexeme

variable {before cs f text rest : List Char} {c : Char} {t : Token} {items : Array Item} {xs : List Lexeme}

theorem Filler.ne_nil (h : Filler f) : f ≠ [] := by
  cases h <;> simp

theorem Spells.ne_nil (h : Spells text t) : text ≠ [] := by
  cases h with
  | keyword k => cases k <;> decide
  | symbol | identifier | integer | string => simp

theorem Spells.ne_eof (h : Spells text t) : t ≠ .eof := by
  cases h <;> exact Token.noConfusion

theorem Spells.ne_newline {tl : List Char} (h : Spells (c :: tl) t) : c ≠ '\n' := by
  rintro rfl
  generalize ht : '\n' :: tl = text at h
  cases h with
  | symbol s => cases s <;> cases ht
  | keyword k =>
    have := isWordStart_of_head_text k '\n' (by rw [← ht]; rfl)
    exact absurd this (by decide)
  | identifier hc =>
    cases ht
    exact absurd hc (by decide)
  | integer hd =>
    cases ht
    exact absurd (hd '\n' (List.mem_cons_self ..)) (by decide)
  | string => cases ht

namespace Layout

def placed (before : List Char) : Layout → List Lexeme
  | .last _ => []
  | .next gap text token rest => ⟨token, .behind (before ++ gap)⟩ :: rest.placed (before ++ gap ++ text)

/-- The layout is one of the text in front of `tail`. -/
def ValidBefore (tail : List Char) : Layout → Prop
  | .last gap => Gap gap
  | .next gap text token rest =>
    Gap gap ∧ Spells text token ∧ Separate token (rest.text ++ tail) ∧ rest.ValidBefore tail

theorem Valid.placed_eq {a : Layout} (h : a.Valid) (before : List Char) :
    a.placed before = a.lexemes ((⟨1, 0⟩ : Location).after before) := by
  induction a generalizing before with
  | last => rfl
  | next gap text token rest ih =>
    obtain ⟨-, hx, -, hr⟩ := h
    rw [placed, lexemes, ih hr, ← Location.after_append, ← Location.after_append, List.append_assoc]
    cases text with
    | nil => exact (hx.ne_nil rfl).elim
    | cons c tl =>
      have hl : (⟨1, 0⟩ : Location).after (before ++ (gap ++ [c])) = .behind (before ++ gap) := by
        rw [← List.append_assoc, Location.after_append, Location.after_cons, Location.step_after hx.ne_newline,
          Location.after_nil]
      rw [List.take_succ_cons, List.take_zero, hl]

theorem placed_prepend (f before : List Char) (a : Layout) :
    (a.prepend f).placed before = a.placed (before ++ f) := by
  cases a <;> simp [prepend, placed]

theorem ValidBefore.prepend {a : Layout} {tail : List Char} (h : a.ValidBefore tail) (hf : Filler f) :
    (a.prepend f).ValidBefore tail := by
  cases a with
  | last gap => exact .append hf h
  | next gap text token rest => exact ⟨.append hf h.1, h.2⟩

theorem exists_behind_of_mem_placed {a : Layout} {x : Lexeme} (h : x ∈ a.placed before) :
    ∃ cs, x.location = .behind (before ++ cs) := by
  induction a generalizing before with
  | last => cases h
  | next gap text token rest ih =>
    obtain rfl | h := List.mem_cons.mp h
    · exact ⟨gap, rfl⟩
    · obtain ⟨cs, hx⟩ := ih h
      exact ⟨gap ++ text ++ cs, by simp [hx]⟩

def Spelled : Layout → Prop
  | .last _ => True
  | .next _ text token rest => Spells text token ∧ rest.Spelled

theorem Valid.spelled {a : Layout} (h : a.Valid) : a.Spelled := by
  induction a with
  | last => trivial
  | next gap text token rest ih => exact ⟨h.2.1, ih h.2.2.2⟩

theorem ValidBefore.spelled {a : Layout} {tail : List Char} (h : a.ValidBefore tail) : a.Spelled := by
  induction a with
  | last => trivial
  | next gap text token rest ih => exact ⟨h.2.1, ih h.2.2.2⟩

theorem Spelled.exists_spells {a : Layout} {x : Lexeme} (h : a.Spelled) (hx : x ∈ a.placed before) :
    ∃ text, Spells text x.token := by
  induction a generalizing before with
  | last => cases hx
  | next gap text token rest ih =>
    obtain rfl | hx := List.mem_cons.mp hx
    · exact ⟨text, h.1⟩
    · exact ih h.2 hx

theorem Spelled.pairwise_placed {a : Layout} (h : a.Spelled) (before : List Char) :
    (a.placed before).Pairwise fun x y => x.location.Precedes y.location := by
  induction a generalizing before with
  | last => exact .nil
  | next gap text token rest ih =>
    refine .cons (fun y hy => ?_) (ih h.2 _)
    obtain ⟨cs, hy⟩ := exists_behind_of_mem_placed hy
    rw [hy, List.append_assoc]
    exact Location.behind_precedes (List.append_ne_nil_of_left_ne_nil h.1.ne_nil cs)

theorem Spelled.length_placed_le {a : Layout} (h : a.Spelled) (before : List Char) :
    (a.placed before).length ≤ a.text.length := by
  induction a generalizing before with
  | last => exact Nat.zero_le _
  | next gap text token rest ih =>
    have := List.length_pos_iff.mpr h.1.ne_nil
    have := ih h.2 (before ++ gap ++ text)
    simp only [placed, Layout.text, List.length_cons, List.length_append]
    omega

end Layout

/-- What the scanner makes of `cs`, which comes behind `before`. -/
inductive Scanned (before cs : List Char) : Array Item → Prop where
  | whole (a : Layout) (valid : a.Valid) (text : a.text = cs) :
      Scanned before cs ((a.placed before).map .ok).toArray
  | broken (a : Layout) {tail : List Char} {e : Error} {more : List Item} (valid : a.ValidBefore tail)
      (text : a.text ++ tail = cs) (breaks : Breaks (before ++ a.text) tail e more) :
      Scanned before cs ((a.placed before).map Except.ok ++ Except.error e :: more).toArray

namespace Scanned

theorem filler (h : Scanned (before ++ f) rest items) (hf : Filler f) : Scanned before (f ++ rest) items := by
  cases h with
  | whole a valid text =>
    have : Scanned before _ _ := whole (a.prepend f) (valid.prepend hf) (a.text_prepend f)
    rwa [a.placed_prepend, text] at this
  | @broken a tail e more valid text breaks =>
    rw [List.append_assoc, ← a.text_prepend] at breaks
    have := broken (a.prepend f) (valid.prepend hf) rfl breaks
    rwa [a.placed_prepend, a.text_prepend, List.append_assoc, text] at this

theorem lexeme (h : Scanned (before ++ text) rest items) (hx : Spells text t) (hs : Separate t rest) :
    Scanned before (text ++ rest) (#[.ok ⟨t, .behind before⟩] ++ items) := by
  cases h with
  | whole a valid he =>
    have : Scanned before _ _ := whole (.next [] text t a) ⟨.nil, hx, he ▸ hs, valid⟩ rfl
    simpa [Layout.placed, Layout.text, he] using this
  | @broken a tail e more valid he breaks =>
    have hv : (Layout.next [] text t a).ValidBefore tail := ⟨.nil, hx, he ▸ hs, valid⟩
    have := broken (.next [] text t a) hv rfl (by simpa [Layout.text] using breaks)
    simpa [Layout.placed, Layout.text, he] using this

end Scanned

theorem scanned (before cs : List Char) :
    Scanned before cs (scanFrom #[] ((⟨1, 0⟩ : Location).after before) cs) := by
  induction hn : cs.length using Nat.strongRecOn generalizing before cs with
  | ind n ih =>
    subst hn
    cases cs with
    | nil =>
      rw [scanFrom]
      exact .whole (.last []) (.closed .nil) rfl
    | cons c cs =>
      have hread := reads_step before c cs
      rw [scanFrom]
      generalize step c (((⟨1, 0⟩ : Location).after before).step c) cs = outcome at hread
      cases hread with
      | @filler tl rest hlt hf he =>
        have := ih _ hlt (before ++ c :: tl) rest rfl
        rw [Location.after_append] at this
        exact he ▸ this.filler hf
      | @lineComment body rest hlt hb hc he hr =>
        subst hc he
        cases rest with
        | nil =>
          have : Scanned before _ _ := .whole (.last ('/' :: '/' :: body)) (.lineComment .nil hb) rfl
          change Scanned before _ (scanFrom #[] _ [])
          rw [scanFrom]
          simpa [Layout.placed, Layout.text] using this
        | cons d rest =>
          -- The newline that ends the comment is read by a step of its own.
          cases hr d rfl
          have hlt' : rest.length < ('/' :: ('/' :: body ++ '\n' :: rest)).length := by
            simp
            omega
          have := (ih _ hlt' (before ++ ('/' :: '/' :: body ++ ['\n'])) rest rfl).filler (.lineComment hb)
          change Scanned before _ (scanFrom #[] _ ('\n' :: rest))
          rw [scanFrom, step_blank (by decide)]
          simpa [Location.after_append] using this
      | @lexeme tl rest t hlt hx hs he =>
        have := (ih _ hlt (before ++ c :: tl) rest rfl).lexeme hx hs
        change Scanned before _ (scanFrom (#[].push (.ok ⟨t, _⟩)) _ rest)
        rw [scanFrom_eq_append, Location.step_after hx.ne_newline, Location.after_behind hx.ne_newline]
        exact he ▸ this
      | stop hb =>
        have := Scanned.broken (.last []) .nil rfl (by simpa [Layout.text] using hb)
        simpa [Layout.placed, Layout.text] using this

theorem scanned_scan (source : String) : Scanned [] source.toList (scan source) :=
  scanned [] source.toList

/-- The lexemes that a source text yields stand at the places of their first characters, each behind the one before
it. If the text is given up, the error comes next: at the character that is out of place, or where the lexeme or the
comment begins that cannot be read. -/
theorem scan_locations (source : String) :
    ∃ a : Layout, (a.placed []).Pairwise (fun x y => x.location.Precedes y.location) ∧
      (a.Valid ∧ a.text = source.toList ∧ scan source = ((a.placed []).map .ok).toArray ∨
        ∃ (tail : List Char) (e : Error) (more : List Item), a.ValidBefore tail ∧
          a.text ++ tail = source.toList ∧ Breaks a.text tail e more ∧
          scan source = ((a.placed []).map Except.ok ++ Except.error e :: more).toArray) := by
  have h := scanned_scan source
  generalize scan source = items at h ⊢
  cases h with
  | whole a valid text => exact ⟨a, valid.spelled.pairwise_placed [], .inl ⟨valid, text, rfl⟩⟩
  | broken a valid text breaks =>
    exact ⟨a, valid.spelled.pairwise_placed [], .inr ⟨_, _, _, valid, text, breaks, rfl⟩⟩

end Lexeme

end Jack
