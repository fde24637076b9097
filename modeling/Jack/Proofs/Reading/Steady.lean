import Jack.Proofs.Parse.Run
import Jack.Proofs.Reading.Basic

/-!
Steady programs: those that take tokens one by one, decide by the kind of the token ahead alone, and find
fault with nothing but that token or the one consumed last. Where a program says what it has expected,
nothing that it would have gone on with is left out and nothing else is named.
-/

namespace Jack

namespace Fault

/-- The fault lies in this token alone, not in where it stands. -/
def Blames : Fault → Token → Prop
  | .unresolved x, t | .redeclared x, t | .outOfRange (.slotsUsedUp _ x), t => t = .identifier x
  | .outOfRange (.largeInteger value), t => t = .integer value ∧ maxConstant < value
  | .outOfRange fault, t => ∃ text, t = .string text ∧ Parse.stringFault? text = some fault
  | _, _ => False

theorem not_blames_eof (fault : Fault) : ¬ fault.Blames .eof := by
  cases fault with
  | lexical | unexpected => exact id
  | unresolved | redeclared => exact fun h => nomatch h
  | outOfRange fault =>
    cases fault with
    | largeInteger => exact fun h => nomatch h.1
    | slotsUsedUp => exact fun h => nomatch h
    | longString | foreignCharacter | other => exact fun ⟨_, h, _⟩ => nomatch h

end Fault

namespace Parse

open Event (tokens)

/-- What is known where a program stands: about the token consumed last, about the kind of the token
ahead, and whether that token is going to be consumed. -/
structure Place where
  last : Token → Prop
  next : TokenKind → Prop
  due : Prop

namespace Place

def anywhere : Place := ⟨fun _ => True, fun _ => True, False⟩

/-- Behind a token of which `a` has been made. -/
def behind {α : Type} (read : Token → Option α) (a : α) : Place :=
  ⟨fun t => read t = some a, fun _ => True, False⟩

/-- Where the token ahead has been found to be of one of the kinds. Only for a token that is going to be
consumed is this decided. -/
def among (c : Place) (kinds : List TokenKind) : Place :=
  ⟨c.last, fun k => c.next k ∧ k ∈ kinds, True⟩

def notAmong (c : Place) (kinds : List TokenKind) : Place :=
  ⟨c.last, fun k => c.next k ∧ k ∉ kinds, c.due⟩

/-- No token is left that is going to be consumed. -/
def Clear (c : Place) : Prop := c.due → ∀ k, ¬ c.next k

def Expects (c : Place) (kinds : List TokenKind) : Prop := c.due → ∀ k, c.next k → k ∈ kinds

structure Under (c d : Place) : Prop where
  last : ∀ t, c.last t → d.last t
  next : ∀ k, c.next k → d.next k
  due : c.due → d.due

structure Fits (c : Place) (w : Window) : Prop where
  last : c.last w.last.token
  next : c.next w.next.token.kind

variable {c d : Place} {kinds : List TokenKind} {w : Window}

theorem Under.among (h : c.Under d) (kinds : List TokenKind) : (c.among kinds).Under (d.among kinds) :=
  ⟨h.last, fun k hk => ⟨h.next k hk.1, hk.2⟩, id⟩

theorem Under.notAmong (h : c.Under d) (kinds : List TokenKind) :
    (c.notAmong kinds).Under (d.notAmong kinds) :=
  ⟨h.last, fun k hk => ⟨h.next k hk.1, hk.2⟩, h.due⟩

theorem Under.anywhere (h : ¬ c.due) : c.Under .anywhere :=
  ⟨fun _ _ => trivial, fun _ _ => trivial, h⟩

theorem Expects.among (c : Place) (kinds : List TokenKind) : (c.among kinds).Expects kinds :=
  fun _ _ hk => hk.2

theorem Expects.of_not_due (h : ¬ c.due) : c.Expects kinds := fun hd => (h hd).elim

theorem Clear.under (h : d.Clear) (hc : c.Under d) : c.Clear :=
  fun hd k hk => h (hc.due hd) k (hc.next k hk)

theorem Fits.among (h : c.Fits w) (hw : w.nextIsAmong kinds = true) : (c.among kinds).Fits w :=
  ⟨h.last, h.next, by simpa [Window.nextIsAmong] using hw⟩

theorem Fits.notAmong (h : c.Fits w) (hw : w.nextIsAmong kinds = false) : (c.notAmong kinds).Fits w :=
  ⟨h.last, h.next, by simpa [Window.nextIsAmong] using hw⟩

theorem fits_anywhere (w : Window) : anywhere.Fits w := ⟨trivial, trivial⟩

end Place

open Reading

/-- The token ahead is taken if it is one that is going to be consumed or that is named as expected. -/
def Place.Takes {α : Type} (c : Place) (expected : List TokenKind) (read : Token → Option α) : Prop :=
  ∀ t : Token, c.next t.kind → (c.due ∨ t.kind ∈ expected) → (read t).isSome

/-- Where fewer than `r` tokens are left, the program is steady. -/
inductive Steady {α : Type} : Nat → Place → Reading α → Prop where
  | zero (c : Place) (m : Reading α) : Steady 0 c m
  | give {r : Nat} {c : Place} (hc : c.Clear) (a : α) : Steady r c (pure a)
  | mark {r : Nat} {c : Place} {e : Event} {m : Reading α} (he : tokens [e] = []) (hm : Steady r c m) :
      Steady r c (do Reading.mark e; m)
  | take {β : Type} {r : Nat} {c : Place} {expected : List TokenKind} {read : Token → Option β}
      {f : β → Reading α} (hc : c.Takes expected read) (heof : read .eof = none)
      (hf : ∀ b, Steady r (.behind read b) (f b)) : Steady (r + 1) c (take expected read >>= f)
  | takeEnd {β : Type} {r : Nat} {c : Place} {expected : List TokenKind} {read : Token → Option β}
      (hc : c.Takes expected read) (a : α) : Steady r c (do let _ ← take expected read; pure a)
  | choose {r : Nat} {c : Place} {kinds : List TokenKind} {m l : Reading α}
      (hm : Steady r (c.among kinds) m) (hl : Steady r (c.notAmong kinds) l) :
      Steady r c (choose kinds m l)
  | refuse {r : Nat} {c : Place} {expected : List TokenKind} (hc : c.Clear)
      (he : ∀ k ∈ expected, ¬ c.next k) : Steady r c (refuse expected)
  | fail {r : Nat} {c : Place} {fault : Fault} (hc : c.Clear) (hf : ∀ t, c.last t → fault.Blames t) :
      Steady r c (fail fault)

namespace Steady

variable {α β σ : Type} {r : Nat} {c d : Place} {m : Reading α}

theorem le {k : Nat} (h : Steady r c m) (hk : k ≤ r) : Steady k c m := by
  induction h generalizing k with
  | zero => exact Nat.le_zero.mp hk ▸ .zero _ _
  | give hc a => exact .give hc a
  | mark he _ ih => exact .mark he (ih hk)
  | take hc heof _ ih =>
    cases k with
    | zero => exact .zero _ _
    | succ k => exact .take hc heof fun b => ih b (Nat.le_of_succ_le_succ hk)
  | takeEnd hc a => exact .takeEnd hc a
  | choose _ _ ih ih' => exact .choose (ih hk) (ih' hk)
  | refuse hc he => exact .refuse hc he
  | fail hc hf => exact .fail hc hf

theorem under (h : Steady r d m) (hc : c.Under d) : Steady r c m := by
  have takes {β : Type} {expected : List TokenKind} {read : Token → Option β} {c d : Place}
      (h : d.Takes expected read) (hc : c.Under d) : c.Takes expected read :=
    fun t ht ho => h t (hc.next _ ht) (ho.imp_left hc.due)
  induction h generalizing c with
  | zero => exact .zero _ _
  | give hd a => exact .give (hd.under hc) a
  | mark he _ ih => exact .mark he (ih hc)
  | take hd heof hf => exact .take (takes hd hc) heof hf
  | takeEnd hd a => exact .takeEnd (takes hd hc) a
  | choose _ _ ih ih' => exact .choose (ih (hc.among _)) (ih' (hc.notAmong _))
  | refuse hd he => exact .refuse (hd.under hc) fun k hk hn => he k hk (hc.next k hn)
  | fail hd hf => exact .fail (hd.under hc) fun t ht => hf t (hc.last t ht)

theorem weaken (h : Steady (r + 1) c m) : Steady r c m := h.le (Nat.le_succ r)

theorem undue (h : Steady r .anywhere m) (hc : ¬ c.due) : Steady r c m := h.under (.anywhere hc)

end Steady

section Tokens

variable {α : Type} {r : Nat} {c : Place}

theorem Place.Expects.takes_exactly {t : Token} (hc : c.Expects [t.kind])
    (ht : ∀ u : Token, u.kind = t.kind → u = t) :
    c.Takes [t.kind] fun u => if u = t then some () else none := by
  intro u hu ho
  have hk : u.kind = t.kind := List.mem_singleton.mp (ho.elim (fun hd => hc hd _ hu) id)
  simp [ht u hk]

theorem Steady.symbol {s : Symbol} {m : Reading α} (hc : c.Expects [.symbol s])
    (hm : Steady r .anywhere m) : Steady (r + 1) c (do exactly (.symbol s); m) :=
  .take (hc.takes_exactly fun _ => Token.kind_eq_symbol_iff.mp) (by simp) fun _ => hm.undue id

theorem Steady.keyword {kw : Keyword} {m : Reading α} (hc : c.Expects [.keyword kw])
    (hm : Steady r .anywhere m) : Steady (r + 1) c (do exactly (.keyword kw); m) :=
  .take (hc.takes_exactly fun _ => Token.kind_eq_keyword_iff.mp) (by simp) fun _ => hm.undue id

theorem Steady.name {f : String → Reading α} (hc : c.Expects [.identifier])
    (hf : ∀ x, Steady r (.behind Token.name? x) (f x)) : Steady (r + 1) c (name >>= f) := by
  refine .take (fun t ht ho => ?_) rfl hf
  have hk : t.kind = .identifier := List.mem_singleton.mp (ho.elim (fun hd => hc hd _ ht) id)
  obtain ⟨x, rfl⟩ := Token.kind_eq_identifier_iff.mp hk
  rfl

theorem Steady.close {starts : List TokenKind} {m : Reading α} (hm : Steady r .anywhere m) :
    Steady (r + 1) (.notAmong .anywhere starts) (do
      Reading.take (starts ++ [.symbol .rightBrace])
        fun t => if t = .symbol .rightBrace then some () else none
      m) := by
  refine .take (fun t ht ho => ?_) (by simp) fun _ => hm.undue id
  have hk : t.kind = .symbol .rightBrace := by
    simpa [ht.2, Place.notAmong, Place.anywhere] using ho
  rw [if_pos (Token.kind_eq_symbol_iff.mp hk)]
  rfl

end Tokens

/-- The program consumes a token at least, and is steady up to where it hands over. -/
def Reads {α : Type} (r : Nat) (c : Place) (m : Reading α) : Prop :=
  ∀ {β : Type} (f : α → Reading β), (∀ a, Steady r .anywhere (f a)) → Steady (r + 1) c (m >>= f)

section Reads

variable {α β σ : Type} {r : Nat} {c : Place} {m : Reading α} {f : α → Reading β}

theorem Reads.steady (h : ∀ k < r, Reads k c m) (hf : ∀ a, Steady r .anywhere (f a)) :
    Steady r c (m >>= f) := by
  cases r with
  | zero => exact .zero _ _
  | succ r => exact h r (Nat.lt_succ_self r) f fun a => (hf a).le (Nat.le_succ r)

theorem Steady.loop {starts : List TokenKind}
    {item : σ → (v : Window) → Attempt (Parsed v.remaining (α × σ))} {f : List α × σ → Reading β}
    (hitem : ∀ k < r, ∀ s, Reads k (.among .anywhere starts) (reading (item s)))
    (hf : ∀ p, Steady r (.notAmong .anywhere starts) (f p)) (xs : List α) (s : σ) :
    Steady r .anywhere (Reading.loop starts item xs s >>= f) := by
  induction r generalizing xs s with
  | zero => exact .zero _ _
  | succ r ih =>
    rw [loop_eq, choose_bind, bind_assoc, pure_bind]
    refine .choose ?_ (hf _)
    refine hitem r (Nat.lt_succ_self r) s _ fun p => ?_
    exact ih (fun k hk => hitem k (Nat.lt_succ_of_lt hk)) (fun p => (hf p).le (Nat.le_succ r)) _ _

theorem Steady.repeated {starts : List TokenKind} {item : (v : Window) → Attempt (Parsed v.remaining α)}
    {f : List α → Reading β} (hitem : ∀ k < r, Reads k (.among .anywhere starts) (reading item))
    (hf : ∀ xs, Steady r (.notAmong .anywhere starts) (f xs)) :
    Steady r .anywhere (Parse.repeated starts item >>= f) := by
  rw [Parse.repeated, bind_assoc]
  refine .loop (fun k hk u => ?_) (fun p => hf p.1) _ _
  intro γ g hg
  rw [reading_each, bind_assoc]
  exact hitem k hk _ fun a => hg (a, ())

end Reads

end Parse

end Jack
