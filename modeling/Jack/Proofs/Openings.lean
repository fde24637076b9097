import Jack.Proofs.Lookahead
import Jack.Proofs.Language
import Jack.Proofs.Markup.Reader

namespace Jack

namespace Lexeme

variable {g : List Char} {a : Layout}

theorem Gap.head? (h : Gap g) : ∀ c ∈ g.head?, isBlank c ∨ c = '/' := by
  cases h with
  | nil => simp
  | append hf _ =>
    cases hf with
    | blank hc => simp [hc]
    | lineComment | blockComment => simp

theorem Layout.Valid.head?_text {k : Keyword} {ts : List Token} (h : a.Valid)
    (ht : a.tokens = .keyword k :: ts) :
    ∃ c ∈ a.text.head?, (isBlank c ∨ c = '/') ∨ c ∈ k.text.toList.head? := by
  cases a with
  | last gap => cases ht
  | next gap text token rest =>
    obtain ⟨hg, hs, -, -⟩ := h
    obtain ⟨rfl, -⟩ := List.cons.inj ht
    rw [Layout.text]
    cases gap with
    | cons c cs => exact ⟨c, rfl, .inl (hg.head? c rfl)⟩
    | nil =>
      cases hs with
      | keyword =>
        cases hk : k.text.toList with
        | nil => exact ((Spells.keyword k).ne_nil hk).elim
        | cons c cs => exact ⟨c, rfl, .inr rfl⟩

end Lexeme

variable {recorded : Bool} {source text : String} {p : Compiled}

/-- The class that a text is compiled from is laid out in it. -/
theorem exists_class_of_compile (h : compile recorded source = .ok p) :
    ∃ (a : Lexeme.Layout) (c : Grammar.Class) (r : Class), a.Valid ∧ a.text = source.toList ∧ a.tokens = c.tokens ∧
      p = ⟨r.name, r.code, if recorded then c.derivation ++ [.consumed .eof] else []⟩ := by
  obtain ⟨xs, hs, hxs⟩ := exists_lexemes_of_compile h
  obtain ⟨a, ha, htext, hx⟩ := Lexeme.exists_layout hs
  rw [compile, hs] at h
  obtain ⟨c, hc, r, -, hp⟩ := (compileItems_eq_ok_iff hxs).mp h
  exact ⟨a, c, r, ha, htext, by rw [hc, ← hx, a.map_token_lexemes], hp⟩

theorem head?_of_compile (h : compile recorded source = .ok p) :
    ∃ c ∈ source.toList.head?, Lexeme.isBlank c ∨ c = '/' ∨ c = 'c' := by
  obtain ⟨a, c, -, ha, htext, htokens, -⟩ := exists_class_of_compile h
  obtain ⟨d, hd, h⟩ := ha.head?_text (k := .class) htokens
  rw [htext] at hd
  obtain (hblank | hslash) | hword := h
  · exact ⟨d, hd, .inl hblank⟩
  · exact ⟨d, hd, .inr (.inl hslash)⟩
  · exact ⟨d, hd, .inr (.inr (Option.some.inj hword).symm)⟩

/-- The code of a class begins with a function, if there is any. -/
theorem head?_vmText (h : compile recorded source = .ok p) : ∀ c ∈ p.vmText.toList.head?, c = 'f' := by
  obtain ⟨-, -, r, -, -, -, rfl⟩ := exists_class_of_compile h
  rw [Compiled.vmText, Class.code]
  cases r.subroutines with
  | nil => simp [VM.render]
  | cons s ss => simp [Subroutine.code, VM.render, VM.Command.text]

theorem head?_xmlText (h : compile recorded source = .ok p) : ∀ c ∈ p.xmlText.toList.head?, c = '<' := by
  obtain ⟨-, c, r, -, -, -, rfl⟩ := exists_class_of_compile h
  rw [Compiled.xmlText]
  cases recorded with
  | false => simp [Event.xml, Event.writeFrom]
  | true =>
    simp [Event.xml, Grammar.Class.derivation, Event.span, Event.writeFrom_cons, Event.line, Event.indent]

/-- No class can be compiled from what is stored for a class. -/
theorem compile_stored_ne_ok (h : compile recorded source = .ok p) (ht : text = p.vmText ∨ text = p.xmlText)
    (recorded' : Bool) (q : Compiled) : compile recorded' text ≠ .ok q := by
  intro hq
  obtain ⟨c, hc, hcs⟩ := head?_of_compile hq
  obtain rfl | rfl : c = 'f' ∨ c = '<' := by
    obtain rfl | rfl := ht
    · exact .inl (head?_vmText h c hc)
    · exact .inr (head?_xmlText h c hc)
  · revert hcs
    decide
  · revert hcs
    decide

end Jack
