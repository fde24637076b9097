import Jack.Proofs.Language

namespace Jack

/-- The lexemes of a stream up to the end of the file, or to the first error. -/
def lexemesOf : List Item → List Lexeme
  | .ok x :: items => if x.token = .eof then [] else x :: lexemesOf items
  | _ => []

theorem lexemesOf_map_ok {xs : List Lexeme} (h : ∀ x ∈ xs, x.token ≠ .eof) :
    lexemesOf (xs.map .ok) = xs := by
  induction xs with
  | nil => rfl
  | cons x xs ih =>
    rw [List.forall_mem_cons] at h
    rw [List.map_cons, lexemesOf, if_neg h.1, ih h.2]

namespace Window

variable {w v : Window} {t : Token} {es : List Event}

def ahead (w : Window) : List Lexeme :=
  if w.next.token = .eof then [] else w.next :: lexemesOf (w.items.toList.drop w.asked)

theorem ahead_of_slide {u : Unit} (h : slide w = .ok u v) (hw : w.next.token ≠ .eof) :
    w.ahead = v.last :: v.ahead := by
  unfold slide at h
  split at h
  next x hx =>
    cases h
    have hd : lexemesOf (w.items.toList.drop w.asked) =
        if x.token = .eof then [] else x :: lexemesOf (w.items.toList.drop (w.asked + 1)) := by
      by_cases ha : w.asked < w.items.toList.length
      · have hi : w.items.toList[w.asked] = .ok x := by
          simpa [incoming, Array.getElem?_eq_getElem (Array.length_toList ▸ ha)] using hx
        rw [List.drop_eq_getElem_cons ha, hi, lexemesOf]
      · have hx : x.token = .eof := by
          have hi : w.items[w.asked]? = none := by simpa using ha
          simp only [incoming, hi, Option.getD_none, Except.ok.injEq] at hx
          rw [← hx]
        rw [List.drop_of_length_le (Nat.not_lt.mp ha), if_pos hx]
        rfl
    rw [ahead, if_neg hw, hd]
    rfl
  next => cases h

@[simp] theorem ahead_note (w : Window) (e : Event) : (w.note e).ahead = w.ahead := rfl

@[simp] theorem last_note (w : Window) (e : Event) : (w.note e).last = w.last := rfl

theorem ahead_recording (w : Window) (recorded : Bool) :
    (if recorded then w.startRecord else w).ahead = w.ahead := by
  cases recorded <;> rfl

theorem ahead_of_perform (h : w.perform (.consumed t) = some v) (ht : t ≠ .eof) :
    w.ahead = v.last :: v.ahead ∧ v.last.token = t := by
  have hn := next_token_of_perform h
  simp only [perform, hn, if_true] at h
  split at h
  next u hu =>
    cases h
    rw [ahead_note, last_note]
    exact ⟨ahead_of_slide hu (hn ▸ ht), last_token_of_slide hu ▸ hn⟩
  next => cases h

/-- What has been read was ahead. -/
theorem ahead_of_follow (h : w.follow es = some v) (he : .eof ∉ Event.tokens es) :
    ∃ xs, w.ahead = xs ++ v.ahead ∧ xs.map (·.token) = Event.tokens es ∧ v.last = xs.getLastD w.last := by
  induction es generalizing w with
  | nil =>
    cases h
    exact ⟨[], rfl, rfl, rfl⟩
  | cons e es ih =>
    obtain ⟨u, hu, hv⟩ := follow_cons_iff.mp h
    cases e with
    | enter rule | leave rule =>
      cases hu
      obtain ⟨xs, hxs, hts, hl⟩ := ih hv he
      exact ⟨xs, hxs, hts, hl⟩
    | consumed t =>
      rw [Event.tokens_consumed, List.mem_cons, not_or] at he
      obtain ⟨ha, ht⟩ := ahead_of_perform hu (Ne.symm he.1)
      obtain ⟨xs, hxs, hts, hl⟩ := ih hv he.2
      refine ⟨u.last :: xs, by rw [ha, hxs, List.cons_append], by simp [ht, hts], ?_⟩
      rw [hl, List.getLastD_cons]

theorem ahead_ofItems {items : Array Item} (h : ofItems items = .ok w) :
    w.ahead = lexemesOf items.toList := by
  obtain ⟨items⟩ := items
  cases items with
  | nil =>
    cases h
    rfl
  | cons i items => cases i with
    | error e => cases h
    | ok x =>
      cases h
      rfl

end Window

/-- What is compiled is the code of a class that the lexemes spell, its names resolved. -/
theorem exists_tree_of_compileItems {recorded : Bool} {items : Array Item} {p : Compiled}
    (h : compileItems recorded items = .ok p) :
    ∃ c : Grammar.Class, c.tokens = (lexemesOf items.toList).map (·.token) ∧
      ∃ r, c.resolve = some r ∧ p.commands = r.code := by
  rw [compileItems, bind_eq_ok_iff] at h
  obtain ⟨w, hw, h⟩ := h
  split at h
  next r v hp =>
    cases h
    obtain ⟨u, hu, hv⟩ := parse_eq_ok_iff.mp hp
    obtain ⟨c, hf, hr⟩ := Grammar.yields_classDec.mp hu
    obtain ⟨xs, hxs, hts, -⟩ := Window.ahead_of_follow hf c.eof_not_mem
    have hend : u.ahead = [] := if_pos (Window.next_token_of_perform hv)
    rw [Window.ahead_recording, Window.ahead_ofItems hw, hend, List.append_nil] at hxs
    exact ⟨c, by rw [hxs, hts]; rfl, r, hr, rfl⟩
  next => cases h

end Jack
