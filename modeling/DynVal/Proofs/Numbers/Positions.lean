import DynVal.Access
import DynVal.Proofs.Numbers.Rounding

/-!
# Numbers as positions

Lists and tuples are addressed by number. What a finite number stands for (`Number.value`) decides
whether it is taken for a position, and for which one; that numbers are read by their bits and that
large ones are cut off does not show.

* `Number.value_eq_iff`: a number stands for an integer just if nothing is cut off when its integer
  part is taken, which is that integer then.
* `Value.indexArg_of_isInteger`, `Value.indexArg_of_not_isInteger`: how a key is read as a position.
-/

namespace DynVal

namespace Number

/-- What a finite number stands for, up to its sign. -/
def size (n : Number) : ℚ := n.significand * 2 ^ n.exponent

/-- What a finite number stands for. -/
def value (n : Number) : ℚ := if n.negative then -n.size else n.size

/-- The integer part up to the sign. -/
def whole (n : Number) : Nat :=
  if 0 ≤ n.exponent then n.significand <<< n.exponent.natAbs
  else n.significand >>> n.exponent.natAbs

variable {n : Number}

theorem size_nonneg (n : Number) : 0 ≤ n.size :=
  mul_nonneg n.significand.cast_nonneg (two_zpow_pos _).le

theorem isIntegral_iff (hf : n.isFinite = true) : n.isIntegral = true ↔
    0 ≤ n.exponent ∨ n.significand % (1 <<< n.exponent.natAbs) = 0 := by
  simp [isIntegral, hf]

/-- The size is a natural just if nothing is shifted out, and what is left is that natural. -/
theorem size_eq_iff (hf : n.isFinite = true) {m : Nat} :
    n.size = m ↔ n.isIntegral = true ∧ n.whole = m := by
  rw [isIntegral_iff hf]
  unfold size whole
  by_cases he : 0 ≤ n.exponent
  · have habs : (n.exponent.natAbs : Int) = n.exponent := by omega
    simp only [he, true_or, true_and, if_true]
    rw [← Nat.cast_inj (R := ℚ), shiftLeft_eq_zpow, habs]
  · have hexp : n.exponent = -(n.exponent.natAbs : Int) := by omega
    have hpos : 0 < 2 ^ n.exponent.natAbs := Nat.two_pow_pos _
    have hscale : n.significand * (2 : ℚ) ^ n.exponent = m ↔
        n.significand = m * 2 ^ n.exponent.natAbs := by
      rw [hexp, zpow_neg, zpow_natCast, ← div_eq_mul_inv, div_eq_iff (by positivity),
        Int.natAbs_neg, Int.natAbs_natCast]
      exact_mod_cast Iff.rfl
    simp only [he, false_or, if_false, Nat.shiftLeft_eq, one_mul, Nat.shiftRight_eq_div_pow]
    rw [hscale]
    constructor
    · intro h
      rw [h]
      exact ⟨Nat.mul_mod_left _ _, Nat.mul_div_cancel _ hpos⟩
    · rintro ⟨hmod, rfl⟩
      exact (Nat.div_mul_cancel (Nat.dvd_of_mod_eq_zero hmod)).symm

theorem exists_nat_of_nonneg {q : ℚ} (hq : 0 ≤ q) {z : Int} (h : q = z) :
    ∃ m : Nat, z = m ∧ q = m := by
  have hz : 0 ≤ z := by
    rw [h] at hq
    exact_mod_cast hq
  obtain ⟨m, rfl⟩ := Int.eq_ofNat_of_zero_le hz
  exact ⟨m, rfl, h⟩

/-- A number stands for an integer just if nothing is cut off and this is its integer part. -/
theorem value_eq_iff (hf : n.isFinite = true) {z : Int} :
    n.value = z ↔ n.isIntegral = true ∧ n.truncate = z := by
  have htruncate : n.truncate = if n.negative then -(n.whole : Int) else n.whole := rfl
  rw [htruncate, value]
  by_cases hn : n.negative = true
  · rw [if_pos hn, if_pos hn]
    constructor
    · intro h
      have hsize : n.size = ((-z : Int) : ℚ) := by
        push_cast
        linarith
      obtain ⟨m, hm, hs⟩ := exists_nat_of_nonneg n.size_nonneg hsize
      obtain ⟨hi, hw⟩ := (size_eq_iff hf).mp hs
      exact ⟨hi, by omega⟩
    · rintro ⟨hi, rfl⟩
      rw [(size_eq_iff hf).mpr ⟨hi, rfl⟩]
      push_cast
      rfl
  · rw [if_neg hn, if_neg hn]
    constructor
    · intro h
      obtain ⟨m, rfl, hs⟩ := exists_nat_of_nonneg n.size_nonneg h
      obtain ⟨hi, hw⟩ := (size_eq_iff hf).mp hs
      exact ⟨hi, by omega⟩
    · rintro ⟨hi, rfl⟩
      rw [(size_eq_iff hf).mpr ⟨hi, rfl⟩]
      rfl

theorem size_pos_iff : 0 < n.size ↔ n.isZero = false := by
  have hpow := two_zpow_pos n.exponent
  constructor
  · intro h
    by_contra hz
    have hm : n.magnitude = 0 := isZero_iff.mp (by simpa using hz)
    rcases n.parts with ⟨-, hs, -⟩ | ⟨hs, -⟩
    · rw [size, hs, hm, Nat.cast_zero, zero_mul] at h
      exact lt_irrefl _ h
    · exact hs (by rw [scaleBits, hm, Nat.zero_div])
  · intro hz
    have hpos : (0 : ℚ) < n.significand := by exact_mod_cast significand_pos hz
    exact mul_pos hpos hpow

theorem isBelowZero_iff (hf : n.isFinite = true) : n.isBelowZero = true ↔ n.value < 0 := by
  have hnan : n.isNaN = false := by
    simp only [isFinite, isNaN, decide_eq_true_eq, decide_eq_false_iff_not] at hf ⊢
    omega
  have hbelow : n.isBelowZero = true ↔ n.negative = true ∧ 0 < n.size := by
    rw [size_pos_iff]
    simp [isBelowZero, hnan]
  rw [hbelow, value]
  by_cases hn : n.negative = true
  · rw [if_pos hn, neg_neg_iff_pos]
    exact and_iff_right hn
  · rw [if_neg hn]
    exact iff_of_false (fun h => hn h.1) n.size_nonneg.not_gt

end Number

namespace Value

/-- The key is a finite number that stands for this integer. -/
def IsInteger (key : Value) (z : Int) : Prop :=
  ∃ n : Number, key = .number n ∧ n.isFinite = true ∧ n.value = z

variable {key : Value} {z : Int} {op : String} {length : Nat}

/-- An integer below zero is refused, one from the last position of 64 bits on is taken for it. -/
theorem indexArg_of_isInteger (h : key.IsInteger z) : indexArg op key length =
    if z < 0 then .error (.indexOutOfBounds op (max (-0x8000000000000000) z) length)
    else .ok (min z.toNat 0xffffffffffffffff) := by
  obtain ⟨n, rfl, hf, hv⟩ := h
  obtain ⟨hi, rfl⟩ := (Number.value_eq_iff hf).mp hv
  have hbelow : n.isBelowZero = true ↔ n.truncate < 0 := by
    rw [Number.isBelowZero_iff hf, hv]
    exact_mod_cast Iff.rfl
  rw [indexArg, if_pos hi]
  by_cases hz : n.truncate < 0
  · rw [if_pos (hbelow.mpr hz), if_pos hz]
    congr 2
    unfold Number.toInt64 Number.clamp
    omega
  · rw [if_neg (hbelow.not.mpr hz), if_neg hz]
    congr 1
    unfold Number.toPosition Number.clamp
    omega

/-- NaN, the infinities, numbers with a fraction and all other values are refused. -/
theorem indexArg_of_not_isInteger (h : ∀ z, ¬ key.IsInteger z) :
    indexArg op key length = .error (.typeMismatch op "integer index" key.typeName) := by
  unfold indexArg
  split
  · rename_i n
    rw [if_neg]
    intro hi
    have hf : n.isFinite = true := by
      simp only [Number.isIntegral, Bool.and_eq_true] at hi
      exact hi.1
    exact h n.truncate ⟨n, rfl, hf, (Number.value_eq_iff hf).mpr ⟨hi, rfl⟩⟩
  · rfl

end Value
end DynVal
