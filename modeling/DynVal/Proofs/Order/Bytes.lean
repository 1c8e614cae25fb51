import DynVal.Text.Utf8
import Mathlib.Data.List.Lex
import Mathlib.Data.String.Basic

/-!
# The order of texts is that of their bytes

A lesser character has a lesser encoding, whatever follows either of them: the first bytes differ as
the widths do, and within one width the payloads are the digits of the code points. So texts are
ordered by their bytes as they are by their characters (`Utf8.encode_lt_iff`).
-/

namespace DynVal.Utf8

theorem toList_loop (bs : ByteArray) (i : Nat) (r : List UInt8) :
    ByteArray.toList.loop bs i r = r.reverse ++ bs.data.toList.drop i := by
  unfold ByteArray.toList.loop
  by_cases h : i < bs.size
  · have hi : i < bs.data.toList.length := h
    have hget : bs.get! i = bs.data.toList[i] := by simp [ByteArray.get!, h]
    rw [if_pos h, toList_loop bs (i + 1), hget, List.reverse_cons, List.append_assoc,
      List.singleton_append, ← List.drop_eq_getElem_cons hi]
  · have hi : bs.data.toList.length ≤ i := Nat.le_of_not_lt h
    rw [if_neg h, List.drop_eq_nil_of_le hi, List.append_nil]
termination_by bs.size - i

theorem encode_eq (s : String) : encode s = s.toList.flatMap String.utf8EncodeChar := by
  rw [encode, String.toUTF8, ← String.utf8Encode_toList, ByteArray.toList, toList_loop]
  simp [List.utf8Encode]

theorem byte_lt_iff {k l : Nat} (hk : k < 256) (hl : l < 256) (bs cs : List UInt8) :
    UInt8.ofNat k :: bs < UInt8.ofNat l :: cs ↔ k < l ∨ k = l ∧ bs < cs := by
  have heq : UInt8.ofNat k = UInt8.ofNat l ↔ k = l := by
    rw [← UInt8.toNat_inj, UInt8.toNat_ofNat_of_lt' hk, UInt8.toNat_ofNat_of_lt' hl]
  rw [List.cons_lt_cons_iff, UInt8.ofNat_lt_iff_lt hk hl, heq]

/-- Numbers are ordered as they are without their last digit, or else as their last digits are. -/
theorem digits_lt {k l : Nat} (h : k < l) :
    k / 64 < l / 64 ∨ k / 64 = l / 64 ∧ k % 64 < l % 64 := by
  omega

theorem bytes_lt_of_char_lt {c d : Char} (h : c < d) (bs cs : List UInt8) :
    String.utf8EncodeChar c ++ bs < String.utf8EncodeChar d ++ cs := by
  have hlt : c.val.toNat < d.val.toNat := h
  have hd : d.val.toNat < 0x110000 := by
    rcases d.valid with h | h
    · exact Nat.lt_trans h (by decide)
    · exact h.2
  unfold String.utf8EncodeChar
  generalize c.val.toNat = k at *
  generalize d.val.toNat = l at *
  have hdigits : k / 262144 < l / 262144 ∨ k / 262144 = l / 262144 ∧
      (k / 4096 % 64 < l / 4096 % 64 ∨ k / 4096 % 64 = l / 4096 % 64 ∧
      (k / 64 % 64 < l / 64 % 64 ∨ k / 64 % 64 = l / 64 % 64 ∧ k % 64 < l % 64)) := by
    have h₀ := digits_lt hlt
    have h₁ := @digits_lt (k / 64) (l / 64)
    have h₂ := @digits_lt (k / 4096) (l / 4096)
    simp only [Nat.div_div_eq_div_mul, Nat.reduceMul] at h₁ h₂
    omega
  have hk : k / 262144 < 8 := by omega
  have hl : l / 262144 < 8 := by omega
  dsimp only
  rw [Nat.mod_eq_of_lt hk, Nat.mod_eq_of_lt hl]
  split_ifs <;>
    simp (disch := omega) only [List.cons_append, List.nil_append, byte_lt_iff] <;> omega

theorem bytes_lt_of_chars_lt {xs ys : List Char} (h : xs < ys) :
    xs.flatMap String.utf8EncodeChar < ys.flatMap String.utf8EncodeChar := by
  induction h with
  | @nil c cs =>
    obtain ⟨b, bs, hb⟩ := List.exists_cons_of_ne_nil (@String.utf8EncodeChar_ne_nil c)
    rw [List.flatMap_nil, List.flatMap_cons, hb]
    exact List.nil_lt_cons _ _
  | cons _ ih => exact List.append_left_lt ih
  | rel h => exact bytes_lt_of_char_lt h _ _

theorem encode_lt_iff {s t : String} : encode s < encode t ↔ s < t := by
  have hmono {s t : String} (h : s < t) : encode s < encode t := by
    rw [encode_eq, encode_eq]
    exact bytes_lt_of_chars_lt (String.lt_iff_toList_lt.mp h)
  refine ⟨fun h => ?_, hmono⟩
  rcases lt_trichotomy s t with hlt | rfl | hgt
  · exact hlt
  · exact absurd h (List.lt_irrefl _)
  · exact absurd (hmono hgt) (List.lt_asymm h)

end DynVal.Utf8
