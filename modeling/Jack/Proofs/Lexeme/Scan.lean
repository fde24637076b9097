import Jack.Proofs.Lexeme.Place

namespace Jack.Lexeme

variable {c : Char} {f g r r' rest text text' cs : List Char} {t t' : Token} {items : Array Item}
  {last l : Location}

section Unique

theorem step_of_filler {tl : List Char} (h : Filler (c :: tl)) (start : Location) (rest : List Char) :
    ∃ l r hlt, step c start (tl ++ rest) = .gap l r hlt := by
  generalize hf : c :: tl = f at h
  cases h with
  | blank h =>
    cases hf
    exact ⟨_, _, _, step_blank h⟩
  | @lineComment body h =>
    cases hf
    have he : ('/' :: body).append ['\n'] ++ rest = '/' :: body ++ '\n' :: rest := by simp
    have hr : ∀ d ∈ ('\n' :: rest).head?, d = '\n' := by simp
    obtain ⟨hlt, hs⟩ := step_lineComment start h hr
    rw [he]
    exact ⟨_, _, hlt, hs⟩
  | blockComment h =>
    cases hf
    obtain ⟨hlt, hs⟩ := step_blockComment start rest h
    exact ⟨_, _, hlt, hs⟩

theorem eq_of_notMem_of_append (hf : '\n' ∉ f) (hg : '\n' ∉ g) (h : f ++ '\n' :: r = g ++ '\n' :: r') :
    f = g := by
  have ht {as bs : List Char} (ha : '\n' ∉ as) : (as ++ '\n' :: bs).takeWhile (· ≠ '\n') = as :=
    takeWhile_append_of_head (fun d hd => by simpa using ne_of_mem_of_not_mem hd ha) (by simp)
  rw [← ht hf, h, ht hg]

theorem Filler.eq_of_append (h : Filler f) (h' : Filler g) (he : f ++ r = g ++ r') : f = g := by
  cases h with
  | blank h =>
    cases h' with
    | blank => cases he; rfl
    | lineComment | blockComment => cases he; exact absurd h (by decide)
  | @lineComment body h =>
    cases h' with
    | blank h' => cases he; exact absurd h' (by decide)
    | blockComment => cases he
    | @lineComment body' h' =>
      have hb : body ++ '\n' :: r = body' ++ '\n' :: r' := by simpa using he
      rw [eq_of_notMem_of_append h h' hb]
  | @blockComment body h =>
    cases h' with
    | blank h' => cases he; exact absurd h' (by decide)
    | lineComment => cases he
    | @blockComment body' h' =>
      have hb : body ++ '*' :: '/' :: r = body' ++ '*' :: '/' :: r' := by simpa using he
      have hs : afterBlockComment .origin (body ++ '*' :: '/' :: r) = some (_, r) :=
        afterBlockComment_eq_some_iff.mpr ⟨body, h, rfl, rfl⟩
      have hs' : afterBlockComment .origin (body ++ '*' :: '/' :: r) = some (_, r') :=
        afterBlockComment_eq_some_iff.mpr ⟨body', h', hb, rfl⟩
      cases (Prod.mk.inj (Option.some.inj (hs.symm.trans hs'))).2
      rw [List.append_cancel_right hb]

/-- The text does not begin with a filler. -/
def Unfilled (text : List Char) : Prop := ∀ f rest, Filler f → text ≠ f ++ rest

theorem unfilled_nil : Unfilled [] := by
  intro f rest hf he
  exact hf.ne_nil (List.append_eq_nil_iff.mp he.symm).1

theorem unfilled_lineComment {body : List Char} (h : '\n' ∉ body) :
    Unfilled ('/' :: '/' :: body) := by
  intro f rest hf he
  cases hf with
  | blank hb => cases he; exact absurd hb (by decide)
  | lineComment => cases he; simp at h
  | blockComment => cases he

theorem unfilled_of_spells (h : Spells text t) (hs : Separate t rest) : Unfilled (text ++ rest) := by
  intro f r hf he
  cases text with
  | nil => exact h.ne_nil rfl
  | cons c tl =>
    cases f with
    | nil => exact hf.ne_nil rfl
    | cons d fl =>
      obtain ⟨rfl, hcs⟩ := List.cons.inj he
      have hg := step_of_filler hf .origin r
      rw [← List.append_eq, ← hcs] at hg
      obtain ⟨l, r', hlt, hg⟩ := hg
      obtain ⟨hlt', hx⟩ := step_of_spells .origin h hs
      cases hx.symm.trans hg

theorem Gap.eq_of_append (h : Gap f) (h' : Gap g) (hr : Unfilled r) (hr' : Unfilled r')
    (he : f ++ r = g ++ r') : f = g := by
  induction h generalizing g with
  | nil =>
    cases h' with
    | nil => rfl
    | @append f' g' hf hg =>
      exact (hr f' (g' ++ r') hf (by simpa using he)).elim
  | @append f₁ f₂ hf₁ hf₂ ih =>
    cases h' with
    | nil => exact (hr' f₁ (f₂ ++ r) hf₁ (by simpa using he.symm)).elim
    | @append g₁ g₂ hg₁ hg₂ =>
      rw [List.append_assoc, List.append_assoc] at he
      cases hf₁.eq_of_append hg₁ he
      rw [ih hg₂ (List.append_cancel_left he)]

theorem Spells.ne_lineComment {body : List Char} (h : Spells text t) (hs : Separate t rest)
    (hb : '\n' ∉ body) : text ++ rest ≠ '/' :: '/' :: body := by
  intro he
  cases text with
  | nil => exact h.ne_nil rfl
  | cons c tl =>
    obtain ⟨rfl, hcs⟩ := List.cons.inj he
    have hr : ∀ d ∈ ([] : List Char).head?, d = '\n' := by simp
    have hg := step_lineComment .origin hb hr
    rw [List.append_nil, ← hcs] at hg
    obtain ⟨hlt, hg⟩ := hg
    obtain ⟨hlt', hx⟩ := step_of_spells .origin h hs
    cases hx.symm.trans hg

/-- There is no lexeme in what stands behind the last lexeme. -/
theorem LastGap.ne_append (hl : LastGap f) (hg : Gap g) (h : Spells text t) (hs : Separate t rest) :
    f ≠ g ++ (text ++ rest) := by
  have hu := unfilled_of_spells h hs
  intro he
  cases hl with
  | closed hf =>
    rw [← List.append_nil f] at he
    cases hf.eq_of_append hg unfilled_nil hu he
    exact h.ne_nil (List.append_eq_nil_iff.mp (List.append_cancel_left he).symm).1
  | @lineComment g' body hg' hb =>
    cases hg'.eq_of_append hg (unfilled_lineComment hb) hu he
    exact h.ne_lineComment hs hb (List.append_cancel_left he).symm

theorem Spells.eq_of_append (h : Spells text t) (hs : Separate t r) (h' : Spells text' t')
    (hs' : Separate t' r') (he : text ++ r = text' ++ r') : text = text' ∧ t = t' ∧ r = r' := by
  match text, text', h, h' with
  | [], _, h, _ => exact (h.ne_nil rfl).elim
  | _, [], _, h' => exact (h'.ne_nil rfl).elim
  | c :: tl, d :: tl', h, h' =>
    obtain ⟨rfl, hcs⟩ := List.cons.inj he
    have hx' := step_of_spells .origin h' hs'
    rw [← List.append_eq, ← hcs] at hx'
    obtain ⟨hlt', hx'⟩ := hx'
    obtain ⟨hlt, hx⟩ := step_of_spells .origin h hs
    obtain ⟨ht, -, hr⟩ := Step.lexeme.inj (hx.symm.trans hx')
    cases hr
    rw [List.append_cancel_right hcs, (Lexeme.mk.inj ht).1]
    exact ⟨rfl, rfl, rfl⟩

namespace Layout

theorem Valid.eq_of_text {a b : Layout} (ha : a.Valid) (hb : b.Valid) (h : a.text = b.text) :
    a = b := by
  induction a generalizing b with
  | last gap =>
    cases b with
    | last => exact congrArg Layout.last h
    | next gap' text token rest =>
      obtain ⟨hg, hx, hs, -⟩ := hb
      rw [Layout.text, Layout.text, List.append_assoc] at h
      exact (LastGap.ne_append ha hg hx hs h).elim
  | next gap text token rest ih =>
    cases b with
    | last gap' =>
      obtain ⟨hg, hx, hs, -⟩ := ha
      rw [Layout.text, Layout.text, List.append_assoc] at h
      exact (LastGap.ne_append hb hg hx hs h.symm).elim
    | next gap' text' token' rest' =>
      obtain ⟨hg, hx, hs, hr⟩ := ha
      obtain ⟨hg', hx', hs', hr'⟩ := hb
      rw [Layout.text, Layout.text, List.append_assoc, List.append_assoc] at h
      cases hg.eq_of_append hg' (unfilled_of_spells hx hs) (unfilled_of_spells hx' hs') h
      obtain ⟨rfl, rfl, he⟩ := hx.eq_of_append hs hx' hs' (List.append_cancel_left h)
      rw [ih hr hr' he]

end Layout

end Unique

section Scanning

theorem scanFrom_of_gap {tl : List Char} (h : ∃ hlt, step c (last.step c) tl = .gap l rest hlt) :
    scanFrom items last (c :: tl) = scanFrom items l rest := by
  obtain ⟨hlt, h⟩ := h
  rw [scanFrom, h]

theorem scanFrom_filler (h : Filler f) (items : Array Item) (last : Location) (rest : List Char) :
    scanFrom items last (f ++ rest) = scanFrom items (last.after f) rest := by
  cases h with
  | blank h => exact scanFrom_of_gap ⟨_, step_blank h⟩
  | @lineComment body h =>
    have hr : ∀ d ∈ ('\n' :: rest).head?, d = '\n' := by simp
    have hs : scanFrom items last ('/' :: '/' :: body ++ '\n' :: rest) = _ :=
      scanFrom_of_gap (step_lineComment _ h hr)
    rw [List.append_assoc, List.singleton_append, hs, scanFrom_of_gap ⟨_, step_blank (by decide)⟩]
    simp [Location.after_append]
  | @blockComment body h =>
    exact scanFrom_of_gap (step_blockComment _ rest h)

theorem scanFrom_gap (h : Gap g) (items : Array Item) (last : Location) (rest : List Char) :
    scanFrom items last (g ++ rest) = scanFrom items (last.after g) rest := by
  induction h generalizing last with
  | nil => rfl
  | append hf _ ih => rw [List.append_assoc, scanFrom_filler hf, ih, Location.after_append]

theorem scanFrom_lastGap (h : LastGap g) (items : Array Item) (last : Location) :
    scanFrom items last g = items := by
  cases h with
  | closed h =>
    have hg := scanFrom_gap h items last []
    rwa [List.append_nil, scanFrom] at hg
  | @lineComment g body hg hb =>
    have hr : ∀ d ∈ ([] : List Char).head?, d = '\n' := by simp
    have hs := step_lineComment ((last.after g).step '/') hb hr
    rw [List.append_nil] at hs
    rw [scanFrom_gap hg, scanFrom_of_gap hs, scanFrom]

theorem scanFrom_spells (h : Spells text t) (hs : Separate t rest) (items : Array Item)
    (last : Location) :
    scanFrom items last (text ++ rest) =
      scanFrom (items.push (.ok ⟨t, last.after (text.take 1)⟩)) (last.after text) rest := by
  cases text with
  | nil => exact (h.ne_nil rfl).elim
  | cons c tl =>
    obtain ⟨hlt, hx⟩ := step_of_spells (last.step c) h hs
    rw [List.cons_append, scanFrom, hx]
    rfl

namespace Layout

theorem Valid.scanFrom_text {a : Layout} (h : a.Valid) (items : Array Item) (last : Location) :
    scanFrom items last a.text = items ++ ((a.lexemes last).map .ok).toArray := by
  induction a generalizing items last with
  | last gap => simp [Layout.text, Layout.lexemes, scanFrom_lastGap h]
  | next gap text token rest ih =>
    obtain ⟨hg, hx, hs, hr⟩ := h
    rw [Layout.text, List.append_assoc, scanFrom_gap hg, scanFrom_spells hx hs, ih hr,
      Layout.lexemes, Location.after_append, Location.after_append]
    simp

end Layout

/-- Of a text there are lexemes first, none of which is the end of the file. What comes behind them
begins with an error. -/
theorem exists_lexemes_scanFrom (cs : List Char) :
    ∃ (xs : List Lexeme) (more : List Item), scanFrom #[] ⟨1, 0⟩ cs = (xs.map Except.ok ++ more).toArray ∧
      (∀ x ∈ xs, x.token ≠ .eof) ∧ ∀ i ∈ more.head?, ∃ e, i = .error e := by
  have hs : Scanned [] cs (scanFrom #[] ⟨1, 0⟩ cs) := scanned [] cs
  have hx {a : Layout} (ha : a.Spelled) : ∀ x ∈ a.placed [], x.token ≠ .eof := fun x hx => by
    obtain ⟨text, ht⟩ := ha.exists_spells hx
    exact ht.ne_eof
  generalize scanFrom #[] ⟨1, 0⟩ cs = items at hs ⊢
  cases hs with
  | whole a valid => exact ⟨a.placed [], [], by simp, hx valid.spelled, by simp⟩
  | @broken a tail e more valid => exact ⟨a.placed [], .error e :: more, rfl, hx valid.spelled, by simp⟩

theorem exists_layout {xs : List Lexeme} (h : scanFrom #[] ⟨1, 0⟩ cs = (xs.map .ok).toArray) :
    ∃ a : Layout, a.Valid ∧ a.text = cs ∧ a.lexemes ⟨1, 0⟩ = xs := by
  have hs : Scanned [] cs (scanFrom #[] ⟨1, 0⟩ cs) := scanned [] cs
  rw [h] at hs
  generalize hi : (xs.map Except.ok).toArray = items at hs
  cases hs with
  | whole a valid text =>
    have hx : xs = a.placed [] :=
      (List.map_inj_right fun _ _ => Except.ok.inj).mp (congrArg Array.toList hi)
    exact ⟨a, valid, text, by rw [hx, valid.placed_eq]; rfl⟩
  | @broken a tail e more =>
    have he : Except.error e ∈ (xs.map Except.ok).toArray := by
      rw [hi]
      simp
    obtain ⟨x, -, hx⟩ := List.mem_map.mp (List.mem_toArray.mp he)
    cases hx

/-- A text is scanned without an error just if it has a layout, and then it has only that one. -/
theorem scan_eq_ok_iff (source : String) (ts : List Token) :
    (∃ xs : List Lexeme, scan source = (xs.map .ok).toArray ∧ xs.map (·.token) = ts) ↔
      ∃ a : Layout, (a.Valid ∧ a.text = source.toList ∧ a.tokens = ts) ∧
        ∀ b : Layout, b.Valid → b.text = source.toList → b = a := by
  constructor
  · rintro ⟨xs, hs, rfl⟩
    obtain ⟨a, ha, ht, rfl⟩ := exists_layout hs
    refine ⟨a, ⟨ha, ht, (a.map_token_lexemes _).symm⟩, fun b hb hbt => ?_⟩
    exact hb.eq_of_text ha (hbt.trans ht.symm)
  · rintro ⟨a, ⟨ha, ht, rfl⟩, -⟩
    refine ⟨a.lexemes ⟨1, 0⟩, ?_, a.map_token_lexemes _⟩
    rw [scan, ← ht, ha.scanFrom_text, Array.empty_append]

end Scanning

end Jack.Lexeme
