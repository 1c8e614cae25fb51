import Mathlib.Data.Rat.Lemmas
import Mathlib.Algebra.Order.Field.Power
import Mathlib.Tactic.FieldSimp
import Mathlib.Tactic.Linarith
import Mathlib.Tactic.Positivity
import Mathlib.Tactic.Ring
import DynVal.Number.Decimal
import DynVal.Number.Literal
import DynVal.Proofs.Order.Leaves

/-!
# Rounding to a number

A finite number is `significand * 2 ^ exponent`, up to its sign (`Number.magnitude_eq`). The
quotients that round to it form an interval (`Rounds.Covers`), and `Number.ofRatio` takes each of
them back to the number (`ofRatio_of_covers`).

The interval lies within one binade, with one exception: half of the gap below a power of two is in
the binade below, where the grid is twice as fine. What is rounded up there is carried into the next
binade.
-/

namespace DynVal.Number

/-! ## Significand and exponent -/

section Parts

variable {n : Number}

theorem parts (n : Number) :
    (n.scaleBits = 0 ∧ n.significand = n.magnitude ∧ n.exponent = -1074) ∨
      (n.scaleBits ≠ 0 ∧ n.significand = n.magnitude % leadingOne + leadingOne ∧
        n.exponent = n.scaleBits - 1075) := by
  by_cases h : n.scaleBits = 0
  · exact .inl ⟨h, if_pos h, if_pos h⟩
  · exact .inr ⟨h, if_neg h, if_neg h⟩

theorem le_exponent (n : Number) : -1074 ≤ n.exponent := by
  rcases n.parts with ⟨-, -, he⟩ | ⟨hs, -, he⟩ <;> omega

/-- The bits of the magnitude are scale and significand, the leading one being in both. -/
theorem magnitude_eq (n : Number) :
    (n.exponent + 1074).toNat * leadingOne + n.significand = n.magnitude := by
  rcases n.parts with ⟨-, hm, he⟩ | ⟨hs, hm, he⟩
  · rw [hm, he]
    simp
  · rw [hm, he]
    simp only [scaleBits, leadingOne] at hs ⊢
    omega

theorem significand_lt (n : Number) : n.significand < 2 * leadingOne := by
  rcases n.parts with ⟨hs, hm, -⟩ | ⟨-, hm, -⟩ <;> simp only [scaleBits, leadingOne] at * <;> omega

theorem leadingOne_le_significand (h : -1074 < n.exponent) : leadingOne ≤ n.significand := by
  rcases n.parts with ⟨-, -, he⟩ | ⟨-, hm, -⟩ <;> omega

theorem one_lt_scaleBits (h : -1074 < n.exponent) : 1 < n.scaleBits := by
  rcases n.parts with ⟨-, -, he⟩ | ⟨-, -, he⟩ <;> omega

theorem exponent_le (h : n.isFinite = true) : n.exponent ≤ 971 := by
  simp only [isFinite, decide_eq_true_eq] at h
  rcases n.parts with ⟨-, -, he⟩ | ⟨-, -, he⟩
  · omega
  · simp only [scaleBits, leadingOne] at he
    omega

theorem significand_pos (h : n.isZero = false) : 0 < n.significand := by
  have hm : n.magnitude ≠ 0 := fun h' => by simp [isZero_iff.mpr h'] at h
  rcases n.parts with ⟨-, hs, -⟩ | ⟨-, hs, -⟩
  · omega
  · rw [hs]
    simp only [leadingOne]
    omega

end Parts

/-! ## The nearest natural -/

/-- A quotient that is at most half off a natural rounds to it, if it is even or nothing else is as
near. -/
theorem roundQuotient_eq {num den m : Nat} (hden : 0 < den)
    (hlow : (m : ℚ) - 1 / 2 ≤ num / den) (hhigh : (num : ℚ) / den ≤ m + 1 / 2)
    (htie : m % 2 = 1 → (m : ℚ) - 1 / 2 < num / den ∧ (num : ℚ) / den < m + 1 / 2) :
    roundQuotient num den = m := by
  have hq : (0 : ℚ) < den := by exact_mod_cast hden
  rw [le_div_iff₀ hq] at hlow
  rw [div_le_iff₀ hq] at hhigh
  rw [lt_div_iff₀ hq, div_lt_iff₀ hq] at htie
  -- the same inequalities between naturals
  have hlow : 2 * (m * den) ≤ 2 * num + den := by
    have : (2 * (m * den) : ℚ) ≤ 2 * num + den := by linarith
    exact_mod_cast this
  have hhigh : 2 * num ≤ 2 * (m * den) + den := by
    have : (2 * num : ℚ) ≤ 2 * (m * den) + den := by linarith
    exact_mod_cast this
  have htie : m % 2 = 1 → 2 * (m * den) < 2 * num + den ∧ 2 * num < 2 * (m * den) + den := by
    intro hodd
    obtain ⟨h, h'⟩ := htie hodd
    have h : (2 * (m * den) : ℚ) < 2 * num + den := by linarith
    have h' : (2 * num : ℚ) < 2 * (m * den) + den := by linarith
    exact ⟨by exact_mod_cast h, by exact_mod_cast h'⟩
  have hnum : num = num / den * den + num % den := (Nat.div_add_mod' num den).symm
  have hrest : num % den < den := Nat.mod_lt num hden
  obtain ⟨w, hw⟩ : ∃ w, w = num / den := ⟨_, rfl⟩
  rw [← hw] at hnum
  have hcases : m = w ∨ m = w + 1 := by
    have h1 : m < w + 2 := by
      by_contra hlt
      have : (w + 2) * den ≤ m * den := Nat.mul_le_mul_right den (by omega)
      have : (w + 2) * den = w * den + 2 * den := by ring
      omega
    have h2 : w < m + 1 := by
      by_contra hlt
      have : (m + 1) * den ≤ w * den := Nat.mul_le_mul_right den (by omega)
      have : (m + 1) * den = m * den + den := by ring
      omega
    omega
  simp only [roundQuotient, ← hw]
  rcases hcases with rfl | rfl
  · split
    · rfl
    split
    · omega
    · have : m % 2 ≠ 1 := fun hodd => by
        have := htie hodd
        omega
      omega
  · have hmul : (w + 1) * den = w * den + den := by ring
    rw [hmul] at hlow hhigh htie
    split
    · omega
    split
    · rfl
    · have : (w + 1) % 2 ≠ 1 := fun hodd => by
        have := htie hodd
        omega
      omega

/-! ## The binade of a quotient -/

theorem two_zpow_pos (e : Int) : (0 : ℚ) < 2 ^ e := zpow_pos (by norm_num) e

theorem two_zpow_lt_iff {d e : Int} : (2 : ℚ) ^ d < 2 ^ e ↔ d < e :=
  zpow_lt_zpow_iff_right₀ (by norm_num)

theorem shiftLeft_eq_zpow (a k : Nat) : ((a <<< k : Nat) : ℚ) = a * 2 ^ (k : Int) := by
  rw [Nat.shiftLeft_eq, Nat.cast_mul, Nat.cast_pow, zpow_natCast, Nat.cast_ofNat]

theorem log2_bounds {a : Nat} (ha : 0 < a) :
    (2 : ℚ) ^ (a.log2 : Int) ≤ a ∧ (a : ℚ) < 2 ^ ((a.log2 : Int) + 1) := by
  have hlow : (2 ^ a.log2 : ℚ) ≤ a := by exact_mod_cast Nat.log2_self_le (by omega)
  have hhigh : (a : ℚ) < 2 ^ (a.log2 + 1) := by exact_mod_cast Nat.lt_log2_self
  refine ⟨by rw [zpow_natCast]; exact hlow, ?_⟩
  have : ((a.log2 : Int) + 1) = ((a.log2 + 1 : Nat) : Int) := by push_cast; rfl
  rw [this, zpow_natCast]
  exact hhigh

section Grid

variable {num den : Nat} {q : Int}

/-- The logarithms fix the binade of a quotient up to one. -/
theorem quotient_bounds (hnum : 0 < num) (hden : 0 < den) :
    (2 : ℚ) ^ ((num.log2 : Int) - den.log2 - 1) < num / den ∧
      (num : ℚ) / den < 2 ^ ((num.log2 : Int) - den.log2 + 1) := by
  obtain ⟨hn, hn'⟩ := log2_bounds hnum
  obtain ⟨hd, hd'⟩ := log2_bounds hden
  have hq : (0 : ℚ) < den := by exact_mod_cast hden
  constructor
  · rw [lt_div_iff₀ hq]
    calc (2 : ℚ) ^ ((num.log2 : Int) - den.log2 - 1) * den
        < 2 ^ ((num.log2 : Int) - den.log2 - 1) * 2 ^ ((den.log2 : Int) + 1) :=
          mul_lt_mul_of_pos_left hd' (two_zpow_pos _)
      _ = 2 ^ (num.log2 : Int) := by rw [← zpow_add₀ (by norm_num)]; congr 1; omega
      _ ≤ num := hn
  · rw [div_lt_iff₀ hq]
    calc (num : ℚ) < 2 ^ ((num.log2 : Int) + 1) := hn'
      _ = 2 ^ ((num.log2 : Int) - den.log2 + 1) * 2 ^ (den.log2 : Int) := by
          rw [← zpow_add₀ (by norm_num)]; congr 1; omega
      _ ≤ 2 ^ ((num.log2 : Int) - den.log2 + 1) * den :=
          mul_le_mul_of_nonneg_left hd (two_zpow_pos _).le

/-- Both ways to shift compare the quotient with the same power. -/
theorem fits_iff (hden : 0 < den) (guess : Int) :
    (if 0 ≤ guess then decide (num < den <<< (guess.natAbs + 53))
      else decide (num <<< guess.natAbs < den <<< 53)) = true ↔
      (num : ℚ) / den < 2 ^ (guess + 53) := by
  have hq : (0 : ℚ) < den := by exact_mod_cast hden
  rw [div_lt_iff₀ hq]
  by_cases h : 0 ≤ guess
  · rw [if_pos h, decide_eq_true_eq, ← Nat.cast_lt (α := ℚ), shiftLeft_eq_zpow, mul_comm]
    have : ((guess.natAbs + 53 : Nat) : Int) = guess + 53 := by omega
    rw [this]
  · rw [if_neg h, decide_eq_true_eq, ← Nat.cast_lt (α := ℚ), shiftLeft_eq_zpow, shiftLeft_eq_zpow]
    have hsplit : (2 : ℚ) ^ (guess + 53) * 2 ^ (guess.natAbs : Int) = 2 ^ ((53 : Nat) : Int) := by
      rw [← zpow_add₀ (by norm_num)]
      congr 1
      omega
    rw [← hsplit, ← mul_assoc, mul_lt_mul_iff_left₀ (two_zpow_pos _), mul_comm (den : ℚ)]

/-- The exponent at which a quotient is rounded is that of its binade, or the least one. -/
theorem gridExponent_eq (hnum : 0 < num) (hden : 0 < den) (hq : -1074 ≤ q)
    (hlow : q = -1074 ∨ (2 : ℚ) ^ (q + 52) ≤ num / den)
    (hhigh : (num : ℚ) / den < 2 ^ (q + 53)) : gridExponent num den = q := by
  obtain ⟨hl, hh⟩ := quotient_bounds hnum hden
  have hlt {d e : Int} (h : (2 : ℚ) ^ d ≤ num / den) (h' : (num : ℚ) / den < 2 ^ e) : d < e :=
    two_zpow_lt_iff.mp (h.trans_lt h')
  unfold gridExponent
  dsimp only
  by_cases hfits : (num : ℚ) / den < 2 ^ ((num.log2 : Int) - den.log2 - 53 + 53)
  · rw [if_pos ((fits_iff hden _).mpr hfits)]
    have h1 := hlt hl.le hhigh
    rcases hlow with rfl | hlow
    · omega
    · have := hlt hlow hfits
      omega
  · rw [if_neg fun h => hfits ((fits_iff hden _).mp h)]
    have h1 := hlt (not_lt.mp hfits) hhigh
    rcases hlow with rfl | hlow
    · omega
    · have := hlt hlow hh
      omega

/-- The bits to which a quotient is rounded at an exponent. -/
theorem roundedMagnitude_eq {m : Nat} (hnum : 0 < num) (hden : 0 < den)
    (hq : gridExponent num den = q) (hlow : (m : ℚ) - 1 / 2 ≤ num / den / 2 ^ q)
    (hhigh : (num : ℚ) / den / 2 ^ q ≤ m + 1 / 2)
    (htie : m % 2 = 1 →
      (m : ℚ) - 1 / 2 < num / den / 2 ^ q ∧ (num : ℚ) / den / 2 ^ q < m + 1 / 2) :
    roundedMagnitude num den = min 0x7ff0000000000000 ((q + 1074).toNat * leadingOne + m) := by
  have hround : (if 0 ≤ q then roundQuotient num (den <<< q.natAbs)
      else roundQuotient (num <<< q.natAbs) den) = m := by
    by_cases h : 0 ≤ q
    · rw [if_pos h]
      have hden' : 0 < den <<< q.natAbs := by
        rw [Nat.shiftLeft_eq]
        positivity
      have heq : (num : ℚ) / (den <<< q.natAbs : Nat) = num / den / 2 ^ q := by
        rw [shiftLeft_eq_zpow, div_div]
        congr 3
        omega
      refine roundQuotient_eq hden' ?_ ?_ ?_ <;> rw [heq] <;> assumption
    · rw [if_neg h]
      have heq : ((num <<< q.natAbs : Nat) : ℚ) / den = num / den / 2 ^ q := by
        have habs : (q.natAbs : Int) = -q := by omega
        rw [shiftLeft_eq_zpow, habs, zpow_neg, mul_div_right_comm, ← div_eq_mul_inv]
      refine roundQuotient_eq hden ?_ ?_ ?_ <;> rw [heq] <;> assumption
  unfold roundedMagnitude
  rw [if_neg (by omega)]
  simp only [hq, hround]

end Grid

/-! ## The interval of quotients that round to a number -/

/-- The quotients that round to the number, the ends where they do. -/
def Rounds.Covers (r : Rounds) (x : ℚ) : Prop :=
  if r.closed = true then (r.low : ℚ) / r.den ≤ x ∧ x ≤ r.high / r.den
  else (r.low : ℚ) / r.den < x ∧ x < r.high / r.den

theorem Rounds.Covers.le {r : Rounds} {x : ℚ} (h : r.Covers x) :
    (r.low : ℚ) / r.den ≤ x ∧ x ≤ r.high / r.den := by
  unfold Covers at h
  split at h
  · exact h
  · exact ⟨h.1.le, h.2.le⟩

/-- How far the interval reaches below the significand. -/
def reachBelow (n : Number) : ℚ :=
  if n.significand = leadingOne ∧ 1 < n.scaleBits then 1 / 4 else 1 / 2

section Interval

variable {n : Number}

theorem rounds_den_pos (n : Number) : 0 < n.rounds.den := by
  simp only [rounds, Nat.shiftLeft_eq]
  split <;> positivity

/-- What is scaled by the exponent. -/
theorem scaled_div (n : Number) (k : Nat) :
    ((k * (if 0 ≤ n.exponent then 1 <<< n.exponent.natAbs else 1) : Nat) : ℚ) /
      (4 * (if 0 ≤ n.exponent then 1 else 1 <<< n.exponent.natAbs) : Nat) =
      k / 4 * 2 ^ n.exponent := by
  by_cases h : 0 ≤ n.exponent
  · have habs : (n.exponent.natAbs : Int) = n.exponent := by omega
    rw [if_pos h, if_pos h, Nat.cast_mul, shiftLeft_eq_zpow, habs]
    push_cast
    ring
  · have habs : (n.exponent.natAbs : Int) = -n.exponent := by omega
    rw [if_neg h, if_neg h, Nat.cast_mul, Nat.cast_mul, shiftLeft_eq_zpow, habs, zpow_neg]
    have := two_zpow_pos n.exponent
    push_cast
    field_simp

theorem rounds_value (n : Number) :
    (n.rounds.value : ℚ) / n.rounds.den = n.significand * 2 ^ n.exponent := by
  refine (n.scaled_div (4 * n.significand)).trans ?_
  push_cast
  ring

theorem rounds_high (n : Number) :
    (n.rounds.high : ℚ) / n.rounds.den = (n.significand + 1 / 2) * 2 ^ n.exponent := by
  refine (n.scaled_div (4 * n.significand + 2)).trans ?_
  push_cast
  ring

theorem rounds_low (h : n.isZero = false) :
    (n.rounds.low : ℚ) / n.rounds.den = (n.significand - n.reachBelow) * 2 ^ n.exponent := by
  have hpos := significand_pos h
  refine (n.scaled_div (4 * n.significand -
    if n.significand = leadingOne ∧ 1 < n.scaleBits then 1 else 2)).trans ?_
  unfold reachBelow
  split
  · rw [Nat.cast_sub (by omega)]
    push_cast
    ring
  · rw [Nat.cast_sub (by omega)]
    push_cast
    ring

theorem reachBelow_le (n : Number) : n.reachBelow ≤ 1 / 2 := by
  unfold reachBelow
  split <;> norm_num

/-- Within the interval the significand is the nearest natural, and at an odd one the ends are left
out. -/
theorem Rounds.Covers.nearest {x : ℚ} (h : n.rounds.Covers x) (hz : n.isZero = false) :
    ((n.significand : ℚ) - 1 / 2) * 2 ^ n.exponent ≤ x ∧
      x ≤ (n.significand + 1 / 2) * 2 ^ n.exponent ∧
      (n.significand % 2 = 1 → ((n.significand : ℚ) - 1 / 2) * 2 ^ n.exponent < x ∧
        x < (n.significand + 1 / 2) * 2 ^ n.exponent) := by
  have hlow : ((n.significand : ℚ) - 1 / 2) * 2 ^ n.exponent ≤
      (n.significand - n.reachBelow) * 2 ^ n.exponent := by
    have := n.reachBelow_le
    exact mul_le_mul_of_nonneg_right (by linarith) (two_zpow_pos _).le
  have hle := h.le
  rw [rounds_low hz, rounds_high] at hle
  refine ⟨hlow.trans hle.1, hle.2, fun hodd => ?_⟩
  have hclosed : n.rounds.closed = false := by
    simp only [rounds, beq_eq_false_iff_ne]
    omega
  unfold Rounds.Covers at h
  rw [hclosed, if_neg Bool.false_ne_true, rounds_low hz, rounds_high] at h
  exact ⟨hlow.trans_lt h.1, h.2⟩

/-- All quotients that round to a number other than zero are within the range of numbers. -/
theorem covers_range {x : ℚ} (hf : n.isFinite = true) (hz : n.isZero = false)
    (h : n.rounds.Covers x) : (2 : ℚ) ^ (-1075 : Int) ≤ x ∧ x < 2 ^ (1024 : Int) := by
  obtain ⟨hlow, hhigh, -⟩ := h.nearest hz
  have hpos := two_zpow_pos n.exponent
  constructor
  · have hsig : (1 : ℚ) ≤ n.significand := by exact_mod_cast significand_pos hz
    calc (2 : ℚ) ^ (-1075 : Int) ≤ 2 ^ (n.exponent - 1) :=
          zpow_le_zpow_right₀ (by norm_num) (by have := n.le_exponent; omega)
      _ = 1 / 2 * 2 ^ n.exponent := by rw [zpow_sub_one₀ (by norm_num)]; ring
      _ ≤ (n.significand - 1 / 2) * 2 ^ n.exponent :=
          mul_le_mul_of_nonneg_right (by linarith) hpos.le
      _ ≤ x := hlow
  · have hsig : (n.significand : ℚ) + 1 ≤ 2 * leadingOne := by exact_mod_cast n.significand_lt
    have hone : (2 : ℚ) * leadingOne = 2 ^ (53 : Int) := by norm_num [leadingOne]
    calc x ≤ (n.significand + 1 / 2) * 2 ^ n.exponent := hhigh
      _ < 2 ^ (53 : Int) * 2 ^ n.exponent := mul_lt_mul_of_pos_right (by linarith) hpos
      _ = 2 ^ (53 + n.exponent) := (zpow_add₀ (by norm_num) _ _).symm
      _ ≤ 2 ^ (1024 : Int) :=
          zpow_le_zpow_right₀ (by norm_num) (by have := exponent_le hf; omega)

section Quotient

variable {num den : Nat} (hnum : 0 < num) (hden : 0 < den) (h : n.rounds.Covers ((num : ℚ) / den))
include hnum hden h

/-- Where the quotient is rounded at the exponent of the number, it rounds to its significand. -/
theorem roundedMagnitude_at_exponent (hf : n.isFinite = true) (hz : n.isZero = false)
    (hin : n.exponent = -1074 ∨ (2 : ℚ) ^ (n.exponent + 52) ≤ num / den) :
    roundedMagnitude num den = n.magnitude := by
  obtain ⟨hlow, hhigh, hstrict⟩ := h.nearest hz
  have hpos := two_zpow_pos n.exponent
  have hlt : (n.significand : ℚ) + 1 / 2 < 2 ^ (53 : Int) := by
    have : (n.significand : ℚ) + 1 ≤ 2 * leadingOne := by exact_mod_cast n.significand_lt
    norm_num [leadingOne] at this ⊢
    linarith
  have hbelow : (num : ℚ) / den < 2 ^ (n.exponent + 53) := by
    rw [zpow_add₀ (by norm_num), mul_comm]
    exact hhigh.trans_lt (mul_lt_mul_of_pos_right hlt hpos)
  have hmax : n.magnitude ≤ 0x7ff0000000000000 := by
    simp only [isFinite, decide_eq_true_eq] at hf
    omega
  have hgrid := gridExponent_eq hnum hden n.le_exponent hin hbelow
  rw [← le_div_iff₀ hpos] at hlow
  rw [← div_le_iff₀ hpos] at hhigh
  rw [← lt_div_iff₀ hpos, ← div_lt_iff₀ hpos] at hstrict
  rw [roundedMagnitude_eq hnum hden hgrid hlow hhigh hstrict, magnitude_eq]
  omega

omit hnum hden in
/-- Only at a power of two does the interval reach into the binade below. -/
theorem significand_of_binade_below (hz : n.isZero = false) (he : -1074 < n.exponent)
    (hlt : (num : ℚ) / den < 2 ^ (n.exponent + 52)) : n.significand = leadingOne := by
  have hge := leadingOne_le_significand he
  have hsig : ((n.significand : ℚ) - 1 / 2) < 2 ^ (52 : Int) := by
    rw [zpow_add₀ (by norm_num), mul_comm] at hlt
    exact lt_of_mul_lt_mul_right ((h.nearest hz).1.trans_lt hlt) (two_zpow_pos _).le
  have hone : (leadingOne : ℚ) = 2 ^ (52 : Int) := by norm_num [leadingOne]
  have : (n.significand : ℚ) < leadingOne + 1 := by linarith
  have : n.significand < leadingOne + 1 := by exact_mod_cast this
  omega

/-- In the binade below the quotient is rounded at half the distance and reaches the next binade. -/
theorem roundedMagnitude_below_exponent (hf : n.isFinite = true) (hz : n.isZero = false)
    (he : -1074 < n.exponent) (hlt : (num : ℚ) / den < 2 ^ (n.exponent + 52)) :
    roundedMagnitude num den = n.magnitude := by
  have hone := significand_of_binade_below h hz he hlt
  have hpos := two_zpow_pos (n.exponent - 1)
  have hscaled (k : Int) : (2 : ℚ) ^ (n.exponent - 1 + k) = 2 ^ k * 2 ^ (n.exponent - 1) := by
    rw [add_comm, zpow_add₀ (by norm_num)]
  have hlow : ((2 * leadingOne : Nat) : ℚ) - 1 / 2 ≤ num / den / 2 ^ (n.exponent - 1) := by
    have hle := h.le.1
    have hreach : n.reachBelow = 1 / 4 := if_pos ⟨hone, one_lt_scaleBits he⟩
    have hhalf : (2 : ℚ) ^ n.exponent = 2 * 2 ^ (n.exponent - 1) := by
      rw [← zpow_one_add₀ (by norm_num)]
      congr 1
      omega
    rw [rounds_low hz, hreach, hone, hhalf] at hle
    rw [le_div_iff₀ hpos]
    push_cast
    linarith
  have hhigh : (num : ℚ) / den < 2 ^ (53 : Int) * 2 ^ (n.exponent - 1) := by
    rwa [← hscaled, show n.exponent - 1 + 53 = n.exponent + 52 by omega]
  have hhigh' : (num : ℚ) / den / 2 ^ (n.exponent - 1) ≤ ((2 * leadingOne : Nat) : ℚ) + 1 / 2 := by
    rw [div_le_iff₀ hpos]
    norm_num [leadingOne] at hhigh ⊢
    linarith
  have hgrid : gridExponent num den = n.exponent - 1 := by
    refine gridExponent_eq hnum hden (by omega) (.inr ?_) (by rwa [hscaled])
    rw [le_div_iff₀ hpos] at hlow
    rw [hscaled]
    norm_num [leadingOne] at hlow ⊢
    linarith
  have heven : (2 * leadingOne) % 2 ≠ 1 := by decide
  have hmax : n.magnitude ≤ 0x7ff0000000000000 := by
    simp only [isFinite, decide_eq_true_eq] at hf
    omega
  rw [roundedMagnitude_eq hnum hden hgrid hlow hhigh' fun hodd => absurd hodd heven,
    ← magnitude_eq, hone]
  rw [← magnitude_eq, hone] at hmax
  have : (n.exponent - 1 + 1074).toNat + 1 = (n.exponent + 1074).toNat := by omega
  rw [← this] at hmax ⊢
  simp only [leadingOne] at hmax ⊢
  omega

/-- A quotient in the interval rounds to the bits of the number. -/
theorem roundedMagnitude_of_covers (hf : n.isFinite = true) (hz : n.isZero = false) :
    roundedMagnitude num den = n.magnitude := by
  by_cases hin : n.exponent = -1074 ∨ (2 : ℚ) ^ (n.exponent + 52) ≤ num / den
  · exact roundedMagnitude_at_exponent hnum hden h hf hz hin
  · push Not at hin
    exact roundedMagnitude_below_exponent hnum hden h hf hz
      (lt_of_le_of_ne n.le_exponent (Ne.symm hin.1)) hin.2

end Quotient

theorem ofBits_bits (h : n.isFinite = true) : ofBits n.bits = n := by
  have hnan : ¬0x7ff0000000000000 < n.bits &&& 0x7fffffffffffffff := by
    intro hlt
    simp only [isFinite, decide_eq_true_eq] at h
    unfold magnitude at h
    have := UInt64.lt_iff_toNat_lt.mp hlt
    simp only [UInt64.reduceToNat] at this
    omega
  unfold ofBits
  rw [dif_neg hnan]

theorem ofRatio_of_magnitude {num den : Nat} (hf : n.isFinite = true)
    (h : roundedMagnitude num den = n.magnitude) : ofRatio n.negative num den = n := by
  unfold ofRatio
  rw [h, ← bits_eq_magnitude, UInt64.ofNat_toNat, ofBits_bits hf]

/-- A quotient in the interval rounds to the number. -/
theorem ofRatio_of_covers {num den : Nat} (hf : n.isFinite = true) (hz : n.isZero = false)
    (hnum : 0 < num) (hden : 0 < den) (h : n.rounds.Covers ((num : ℚ) / den)) :
    ofRatio n.negative num den = n :=
  ofRatio_of_magnitude hf (roundedMagnitude_of_covers hnum hden h hf hz)

end Interval

end DynVal.Number
