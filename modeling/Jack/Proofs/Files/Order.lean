import Mathlib.Order.Basic
import Mathlib.Data.String.Basic
import Mathlib.Tactic.SplitIfs

namespace Jack.Text

open String (utf8EncodeChar)

def bytes (text : String) : List UInt8 := text.toUTF8.data.toList

theorem exists_digits {v : Nat} (hv : v < 0x110000) :
    ∃ a b c d, a < 8 ∧ b < 64 ∧ c < 64 ∧ d < 64 ∧ v = 262144 * a + 4096 * b + 64 * c + d ∧
      v / 262144 % 8 = a ∧ v / 4096 % 64 = b ∧ v / 64 % 64 = c ∧ v % 64 = d :=
  ⟨v / 262144 % 8, v / 4096 % 64, v / 64 % 64, v % 64, by omega, by omega, by omega, by omega, by omega,
    rfl, rfl, rfl, rfl⟩

theorem toNat_lt (c : Char) : c.val.toNat < 0x110000 := by
  have h := c.valid
  simp only [UInt32.isValidChar, Nat.isValidChar] at h
  omega

/-- The bytes of a smaller character come first, whatever follows. -/
theorem utf8EncodeChar_lt {c d : Char} (h : c < d) (x y : List UInt8) :
    utf8EncodeChar c ++ x < utf8EncodeChar d ++ y := by
  have hlt : c.val.toNat < d.val.toNat := h
  obtain ⟨c₁, c₂, c₃, c₄, h₁, h₂, h₃, h₄, hc, e₁, e₂, e₃, e₄⟩ := exists_digits (toNat_lt c)
  obtain ⟨d₁, d₂, d₃, d₄, k₁, k₂, k₃, k₄, hd, f₁, f₂, f₃, f₄⟩ := exists_digits (toNat_lt d)
  have hc₁ : c.val.toNat ≤ 0xffff → c.val.toNat / 4096 % 0x10 = c₂ := by omega
  have hd₁ : d.val.toNat ≤ 0xffff → d.val.toNat / 4096 % 0x10 = d₂ := by omega
  have hc₂ : c.val.toNat ≤ 0x7ff → c.val.toNat / 64 % 0x20 = c₃ := by omega
  have hd₂ : d.val.toNat ≤ 0x7ff → d.val.toNat / 64 % 0x20 = d₃ := by omega
  unfold utf8EncodeChar
  dsimp only
  rw [e₁, e₂, e₃, e₄, f₁, f₂, f₃, f₄]
  clear e₁ e₂ e₃ e₄ f₁ f₂ f₃ f₄
  split_ifs
  all_goals
    simp only [List.cons_append, List.nil_append, List.cons_lt_cons_iff, UInt8.lt_iff_toNat_lt,
      ← UInt8.toNat_inj, UInt8.toNat_ofNat']
    omega

theorem bytes_eq (text : String) : bytes text = text.toList.flatMap utf8EncodeChar := by
  have h : text.toUTF8 = text.toList.utf8Encode := String.utf8Encode_toList.symm
  rw [bytes, h, List.utf8Encode, List.data_toByteArray]

theorem flatMap_utf8EncodeChar_lt {cs ds : List Char} (h : cs < ds) :
    cs.flatMap utf8EncodeChar < ds.flatMap utf8EncodeChar := by
  induction cs generalizing ds with
  | nil =>
    cases ds with
    | nil => exact absurd h (List.lt_irrefl _)
    | cons d ds =>
      rw [List.flatMap_nil, List.flatMap_cons]
      obtain ⟨b, bs, hb⟩ := List.exists_cons_of_ne_nil (String.utf8EncodeChar_ne_nil (c := d))
      rw [hb, List.cons_append]
      exact List.nil_lt_cons _ _
  | cons c cs ih =>
    cases ds with
    | nil => exact absurd h (List.not_lt_nil _)
    | cons d ds =>
      rw [List.flatMap_cons, List.flatMap_cons]
      obtain hcd | ⟨rfl, hlt⟩ := List.cons_lt_cons_iff.mp h
      · exact utf8EncodeChar_lt hcd _ _
      · exact List.append_left_lt (ih hlt)

theorem bytes_lt_iff {s t : String} : bytes s < bytes t ↔ s < t := by
  rw [bytes_eq, bytes_eq, String.lt_iff]
  refine ⟨fun h => ?_, flatMap_utf8EncodeChar_lt⟩
  obtain hlt | heq | hgt := lt_trichotomy s.toList t.toList
  · exact hlt
  · rw [heq] at h
    exact absurd h (List.lt_irrefl _)
  · exact absurd (List.lt_trans h (flatMap_utf8EncodeChar_lt hgt)) (List.lt_irrefl _)

end Jack.Text
