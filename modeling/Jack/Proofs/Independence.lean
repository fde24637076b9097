import Jack.Proofs.Code.Blocks
import Jack.Proofs.Flaw.Class

namespace Jack

open VM (Command)
open Event (tokens)
open Parse (Flaw Stops)
open Grammar (anything)

theorem mapM_eq_pure {m : Type → Type} [Monad m] [LawfulMonad m] {α β : Type} {f : α → m β}
    {g : α → β} {xs : List α} (h : ∀ x ∈ xs, f x = pure (g x)) :
    xs.mapM f = pure (xs.map g) := by
  induction xs with
  | nil => rfl
  | cons x xs ih =>
    rw [List.forall_mem_cons] at h
    simp [h.1, ih h.2]

theorem exists_first_eq_none {α β : Type} [Nonempty β] (f : α → Option β) (xs : List α) :
    ∃ r : α → β, (∀ x ∈ xs, f x = some (r x)) ∨
      ∃ before x behind, xs = before ++ x :: behind ∧
        (∀ y ∈ before, f y = some (r y)) ∧ f x = none := by
  inhabit β
  have hr {x : α} (h : f x ≠ none) : f x = some ((f x).getD default) := by
    obtain ⟨y, hy⟩ := Option.ne_none_iff_exists'.mp h
    rw [hy]
    rfl
  refine ⟨fun x => (f x).getD default, ?_⟩
  cases hx : xs.find? fun x => (f x).isNone with
  | none =>
    refine .inl fun x h => hr fun hn => ?_
    simpa [hn] using List.find?_eq_none.mp hx x h
  | some x =>
    obtain ⟨hn, before, behind, rfl, hb⟩ := List.find?_eq_some_iff_append.mp hx
    refine .inr ⟨before, x, behind, rfl, fun y h => hr fun hy => ?_, Option.isNone_iff_eq_none.mp hn⟩
    simpa [hy] using hb y h

/-- The events up to a flaw lead to one of the lexemes that are read. -/
theorem Parse.Flaw.exists_place {f : Flaw} {es : List Event} (hf : f.before <+: es)
    (hn : tokens f.before ≠ []) {xs : List Lexeme} (hx : xs.map (·.token) = tokens es) :
    ∃ ys y zs, xs = ys ++ y :: zs ∧ (ys ++ [y]).map (·.token) = tokens f.before := by
  obtain ⟨behind, rfl⟩ := hf
  rw [Event.tokens_append, List.map_eq_append_iff] at hx
  obtain ⟨front, zs, rfl, hfront, -⟩ := hx
  obtain rfl | ⟨ys, y, rfl⟩ := List.eq_nil_or_concat' front
  · exact (hn hfront.symm).elim
  · exact ⟨ys, y, zs, by simp, hfront⟩

theorem compileItems_eq_error {c : Grammar.Class} {f : Flaw}
    (hf : f.Shows c.derivation anything fun w => Stops (Parse.classDec w)) {ys zs : List Lexeme}
    {y : Lexeme} (hc : (ys ++ y :: zs).map (·.token) = c.tokens)
    (hy : (ys ++ [y]).map (·.token) = tokens f.before) (recorded : Bool) :
    compileItems recorded ((ys ++ y :: zs).map .ok).toArray = .error ⟨y.location, f.fault⟩ := by
  obtain ⟨w, hw, hh, -⟩ := Window.ofItems_holds (ys ++ y :: zs)
  obtain ⟨w', hw'⟩ : ∃ w', (if recorded then w.startRecord else w) = w' := ⟨_, rfl⟩
  have hh' : w'.Holds (tokens c.derivation ++ []) := by
    rw [List.append_nil, ← Grammar.Class.tokens, ← hc, ← hw']
    exact hh.recording recorded
  have ha : w'.ahead = ys ++ y :: zs := by
    rw [← hw', Window.ahead_recording, Window.ahead_ofItems hw]
    exact lexemesOf_map_ok (Grammar.Class.token_ne_eof_of hc)
  obtain ⟨v, hv, -⟩ := hh'.follow
  obtain ⟨u, hu, v', hs⟩ := hf.stops w' v hv trivial
  have he : .eof ∉ tokens f.before := fun h => c.eof_not_mem ((hf.initial.filterMap _).subset h)
  obtain ⟨xs, hxs, hts, hl⟩ := Window.ahead_of_follow hu he
  -- What has been read up to the flaw ends with the lexeme at which the flaw is reported.
  have happ : xs ++ u.ahead = (ys ++ [y]) ++ zs := by
    rw [← hxs, ha, List.append_assoc, List.singleton_append]
  have hlen : xs.length = (ys ++ [y]).length := by
    rw [← List.length_map (·.token), hts, ← hy, List.length_map]
  rw [hl, (List.append_inj happ hlen).1, List.getLastD_concat] at hs
  have hp : parse w' = .error ⟨⟨y.location, f.fault⟩, v'⟩ := by
    rw [parse, hs]
    rfl
  simp only [compileItems, hw, bind, Except.bind, hw', hp]
  rfl

/-- The lexemes of a class in front of its subroutines and behind them. -/
structure Frame where
  name : String
  declarations : List (Grammar.ClassVariable × Grammar.Variables)
  opening : List Lexeme
  closing : Lexeme
  opens : opening.map (·.token) = tokens (Grammar.Class.opening name declarations)
  closes : closing.token = .symbol .rightBrace

/-- The lexemes are those of the subroutine, each at its own place. -/
def Spells (s : List Lexeme) (g : Grammar.Subroutine) : Prop :=
  s.map (·.token) = tokens g.derivation

theorem map_token_flatten {tree : List Lexeme → Grammar.Subroutine} {ss : List (List Lexeme)}
    (hs : ∀ s ∈ ss, Spells s (tree s)) :
    ss.flatten.map (·.token) = tokens ((ss.map tree).flatMap (·.derivation)) := by
  rw [List.map_flatten, ← List.flatMap_def, Event.tokens_flatMap, List.flatMap_map]
  exact List.flatMap_congr hs

namespace Frame

variable (k : Frame) (recorded : Bool) {tree : List Lexeme → Grammar.Subroutine} {scopes : Scopes}
  {r : List Lexeme → Subroutine} {ss : List (List Lexeme)}

def compile (s : List Lexeme) : Except Error (List Command) :=
  (compileItems recorded ((k.opening ++ s ++ [k.closing]).map .ok).toArray).map (·.commands)

def grammar (gs : List Grammar.Subroutine) : Grammar.Class :=
  ⟨k.name, k.declarations, gs⟩

def entries : List Entry :=
  (k.grammar []).entries

def fields : Nat :=
  k.entries.countP (·.kind = .field)

theorem map_token (hs : ∀ s ∈ ss, Spells s (tree s)) :
    (k.opening ++ ss.flatten ++ [k.closing]).map (·.token) = (k.grammar (ss.map tree)).tokens := by
  rw [Grammar.Class.tokens, grammar, Grammar.Class.derivation_eq]
  simp [k.opens, k.closes, map_token_flatten hs]

theorem mapM_resolve (hr : ∀ s ∈ ss, (tree s).resolve k.name scopes = some (r s)) :
    (ss.map tree).mapM (·.resolve k.name scopes) = some (ss.map r) := by
  rw [List.mapM_map]
  exact mapM_eq_pure hr

theorem compile_eq_ok (hd : Scopes.empty.enterAll k.entries = some scopes)
    (hs : ∀ s ∈ ss, Spells s (tree s))
    (hr : ∀ s ∈ ss, (tree s).resolve k.name scopes = some (r s)) :
    k.compile recorded ss.flatten = .ok (ss.map fun s => (r s).code k.name k.fields).flatten := by
  have ht := k.map_token hs
  let resolved : Class :=
    ⟨k.name, k.declarations.map fun d => d.2.declaration d.1.kind, ss.map r⟩
  have hr : (k.grammar (ss.map tree)).resolve = some resolved :=
    Grammar.Class.resolve_eq_some_iff.mpr ⟨scopes, hd, ss.map r, k.mapM_resolve hr, rfl⟩
  have hf : resolved.fields = (k.grammar (ss.map tree)).entries.countP (·.kind = .field) :=
    Grammar.Class.fields_of_resolve hr
  have hcode : resolved.code = (ss.map fun s => (r s).code k.name k.fields).flatten := by
    rw [Class.code, hf, List.flatMap_map, List.flatMap_def]
    rfl
  rw [compile, (compileItems_eq_ok_iff (Grammar.Class.token_ne_eof_of ht)).mpr
    ⟨_, ht.symm, resolved, hr, rfl⟩, Except.map, hcode]

theorem compile_eq_error_of_declarations (hd : Scopes.empty.enterAll k.entries = none) :
    ∃ e, ∀ (tree : List Lexeme → Grammar.Subroutine) (ss : List (List Lexeme)),
      (∀ s ∈ ss, Spells s (tree s)) → k.compile recorded ss.flatten = .error e := by
  obtain ⟨f, hf, hs⟩ := Grammar.Class.shows_of_declarations hd
  obtain ⟨ys, y, zs, hx, hy⟩ := f.exists_place hf (hs []).tokens k.opens
  refine ⟨⟨y.location, f.fault⟩, fun tree ss hss => ?_⟩
  have ht := k.map_token hss
  have he : k.opening ++ ss.flatten ++ [k.closing] =
      ys ++ y :: (zs ++ ss.flatten ++ [k.closing]) := by
    simp [hx]
  rw [he] at ht
  rw [compile, he, compileItems_eq_error (hs (ss.map tree)) ht hy recorded]
  rfl

/-- A subroutine that cannot be resolved is refused in the same way behind whatever subroutines that
can be. -/
theorem compile_eq_error_of_subroutine (hd : Scopes.empty.enterAll k.entries = some scopes)
    {s : List Lexeme} (hs : Spells s (tree s)) (hr : (tree s).resolve k.name scopes = none) :
    ∃ e, ∀ before behind : List (List Lexeme),
      (∀ t ∈ before ++ s :: behind, Spells t (tree t)) →
      (∀ t ∈ before, (tree t).resolve k.name scopes = some (r t)) →
        k.compile recorded (before ++ s :: behind).flatten = .error e := by
  obtain ⟨f, hf⟩ := (tree s).flawed hr
  obtain ⟨ys, y, zs, hx, hy⟩ := f.exists_place hf.initial hf.tokens hs
  refine ⟨⟨y.location, f.fault⟩, fun before behind hss hrs => ?_⟩
  have hshows := Grammar.Class.shows_of_subroutine hd hf (k.mapM_resolve hrs) (behind.map tree)
  have ht := k.map_token hss
  have he : k.opening ++ (before ++ s :: behind).flatten ++ [k.closing] =
      (k.opening ++ before.flatten ++ ys) ++ y :: (zs ++ behind.flatten ++ [k.closing]) := by
    simp [hx]
  rw [he, List.map_append (f := tree), List.map_cons (f := tree)] at ht
  have hp : (k.opening ++ before.flatten ++ ys ++ [y]).map (·.token) =
      tokens (Grammar.Class.opening k.name k.declarations ++
        (before.map tree).flatMap (·.derivation) ++ f.before) := by
    rw [List.forall_mem_append] at hss
    rw [List.append_assoc, List.map_append, List.map_append, k.opens, map_token_flatten hss.1, hy,
      Event.tokens_append, Event.tokens_append]
  rw [compile, he, compileItems_eq_error hshows ht hp recorded]
  rfl

theorem compile_eq_ok_of_single (hd : Scopes.empty.enterAll k.entries = some scopes)
    {s : List Lexeme} (hs : Spells s (tree s)) (hr : (tree s).resolve k.name scopes = some (r s)) :
    k.compile recorded s = .ok ((r s).code k.name k.fields) := by
  have h := k.compile_eq_ok recorded hd (List.forall_mem_singleton.mpr hs)
    (List.forall_mem_singleton.mpr hr)
  simpa using h

/-- Either all can be resolved, or there is a first subroutine that is refused when it is the only one,
and the error is the same. -/
theorem compile_cases (hn : ss ≠ []) (hs : ∀ s ∈ ss, Spells s (tree s)) :
    (∃ (scopes : Scopes) (r : List Lexeme → Subroutine),
      Scopes.empty.enterAll k.entries = some scopes ∧
        ∀ s ∈ ss, (tree s).resolve k.name scopes = some (r s)) ∨
      ∃ before s behind e, ss = before ++ s :: behind ∧
        (∃ block : List Lexeme → List Command, ∀ t ∈ before, k.compile recorded t = .ok (block t)) ∧
        k.compile recorded s = .error e ∧ k.compile recorded ss.flatten = .error e := by
  cases hd : Scopes.empty.enterAll k.entries with
  | none =>
    -- The first subroutine is as good as any other.
    obtain ⟨e, he⟩ := k.compile_eq_error_of_declarations recorded hd
    obtain ⟨s, ss, rfl⟩ := List.exists_cons_of_ne_nil hn
    have h₁ : k.compile recorded s = .error e := by
      simpa using he tree [s] (List.forall_mem_singleton.mpr (hs s List.mem_cons_self))
    exact .inr ⟨[], s, ss, e, rfl, ⟨fun _ => [], List.forall_mem_nil _⟩, h₁, he tree _ hs⟩
  | some scopes =>
    have : Nonempty Subroutine := ⟨⟨.function, .void, "", [], [], []⟩⟩
    obtain ⟨r, hr | ⟨before, s, behind, rfl, hr, hnone⟩⟩ :=
      exists_first_eq_none (fun s => (tree s).resolve k.name scopes) ss
    · exact .inl ⟨scopes, r, rfl, hr⟩
    · have hb := fun t h => hs t (List.mem_append_left _ h)
      have hs' := hs s (List.mem_append_right _ List.mem_cons_self)
      obtain ⟨e, he⟩ := k.compile_eq_error_of_subroutine recorded hd hs' hnone
      have h₁ : k.compile recorded s = .error e := by
        simpa using he [] [] (List.forall_mem_singleton.mpr hs') (List.forall_mem_nil _)
      refine .inr ⟨before, s, behind, e, rfl, ⟨fun t => (r t).code k.name k.fields, fun t h => ?_⟩, h₁,
        he before behind hs hr⟩
      exact k.compile_eq_ok_of_single recorded hd (hb t h) (hr t h)

end Frame

/-- Subroutines do not depend on each other. What comes of several of them is what comes of each
alone, one after the other, up to the first that is refused. So each has a block of code that stays
what it is when the subroutines are permuted. -/
theorem subroutines_are_independent (k : Frame) (recorded : Bool) {ss : List (List Lexeme)}
    (hn : ss ≠ []) (hs : ∀ s ∈ ss, ∃ g, Spells s g) :
    k.compile recorded ss.flatten = (ss.mapM (k.compile recorded)).map List.flatten ∧
      ∀ code, k.compile recorded ss.flatten = .ok code →
        ∃ block : List Lexeme → List Command,
          (∀ s ∈ ss, k.compile recorded s = .ok (block s)) ∧
          ∀ ss' : List (List Lexeme), ss'.Perm ss →
            k.compile recorded ss'.flatten = .ok (ss'.map block).flatten ∧
              VM.blocks (ss'.map block).flatten = ss'.map block := by
  have : Nonempty Grammar.Subroutine := (hs _ (List.head_mem hn)).nonempty
  choose! tree hs using hs
  obtain ⟨scopes, r, hd, hr⟩ | ⟨before, s, behind, e, rfl, ⟨block, hb⟩, he, hss⟩ :=
    k.compile_cases recorded hn hs
  · let block (s : List Lexeme) : List Command := (r s).code k.name k.fields
    have hone : ∀ s ∈ ss, k.compile recorded s = .ok (block s) := fun s h =>
      k.compile_eq_ok_of_single recorded hd (hs s h) (hr s h)
    have hm : ss.mapM (k.compile recorded) = .ok (ss.map block) := mapM_eq_pure hone
    refine ⟨?_, fun _ _ => ⟨block, hone, fun ss' hp => ⟨?_, ?_⟩⟩⟩
    · rw [k.compile_eq_ok recorded hd hs hr, hm]
      rfl
    · exact k.compile_eq_ok recorded hd (fun s h => hs s (hp.mem_iff.mp h))
        (fun s h => hr s (hp.mem_iff.mp h))
    · exact VM.blocks_flatten (List.forall_mem_map.mpr fun s _ => (r s).isBlock_code k.name k.fields)
  · have hm : before.mapM (k.compile recorded) = .ok (before.map block) := mapM_eq_pure hb
    refine ⟨?_, fun code hc => ?_⟩
    · rw [hss, List.mapM_append, hm, List.mapM_cons, he]
      rfl
    · rw [hss] at hc
      cases hc

namespace Grammar

/-- The tokens of a subroutine, each at the same place. -/
def Subroutine.lexemes (g : Subroutine) : List Lexeme :=
  (tokens g.derivation).map (⟨·, .origin⟩)

theorem Subroutine.spells_lexemes (g : Subroutine) : Spells g.lexemes g := by
  simp [Spells, lexemes, Function.comp_def]

def Class.frame (c : Class) : Frame where
  name := c.name
  declarations := c.declarations
  opening := (Event.tokens (Class.opening c.name c.declarations)).map (⟨·, .origin⟩)
  closing := ⟨.symbol .rightBrace, .origin⟩
  opens := by simp [Function.comp_def]
  closes := rfl

theorem Class.lexemes_eq (c : Class) :
    c.lexemes = c.frame.opening ++ (c.subroutines.map (·.lexemes)).flatten ++ [c.frame.closing] := by
  have hd : c.derivation = opening c.name c.declarations ++
      (c.subroutines.flatMap (·.derivation) ++ [.symbol .rightBrace, .leave .class]) :=
    derivation_eq c.subroutines
  rw [lexemes, Class.tokens, hd]
  simp [frame, Subroutine.lexemes, Event.tokens_flatMap, List.map_flatMap, ← List.flatMap_def]

end Grammar

theorem gauge_is_independent :
    ∃ ss : List (List Lexeme), ss ≠ [] ∧ (∀ s ∈ ss, ∃ g, Spells s g) ∧
      ∃ code, Grammar.gauge.frame.compile false ss.flatten = .ok code ∧
        ∃ block : List Lexeme → List Command,
          (∀ s ∈ ss, Grammar.gauge.frame.compile false s = .ok (block s)) ∧
            VM.blocks (ss.map block).flatten = ss.map block := by
  have hn : Grammar.gauge.subroutines.map (·.lexemes) ≠ [] := by simp [Grammar.gauge]
  have hs : ∀ s ∈ Grammar.gauge.subroutines.map (·.lexemes), ∃ g, Spells s g :=
    List.forall_mem_map.mpr fun g _ => ⟨g, g.spells_lexemes⟩
  obtain ⟨r, -, p, hp, -⟩ := Grammar.gauge_static.compiles
  have hc : Grammar.gauge.frame.compile false (Grammar.gauge.subroutines.map (·.lexemes)).flatten =
      .ok p.commands := by
    rw [Frame.compile, ← Grammar.gauge.lexemes_eq, hp]
    rfl
  obtain ⟨-, h⟩ := subroutines_are_independent Grammar.gauge.frame false hn hs
  obtain ⟨block, hb, hall⟩ := h _ hc
  exact ⟨_, hn, hs, _, hc, block, hb, (hall _ (List.Perm.refl _)).2⟩

end Jack
