import DynVal.Proofs.Numbers.Rounding

/-!
# The shortest digits of a number

`Number.shortest` goes down through decimal grids until one of them has a point that rounds to the
number. It starts above the number, by an estimate of the decimal logarithm from the binary one, and
the last grid that it tries is finer than the distance to the lower neighbour. So it finds a point
(`covers_shortest`).
-/

namespace DynVal.Number

section Grid

variable {r : Rounds} {p : Int} {c : Nat}

theorem ten_zpow_pos (p : Int) : (0 : ℚ) < 10 ^ p := zpow_pos (by norm_num) p

/-- The step of a grid as a quotient of naturals. -/
theorem step_div (p : Int) :
    ((if 0 ≤ p then Nat.pow 10 p.natAbs else 1 : Nat) : ℚ) /
      (if 0 ≤ p then 1 else Nat.pow 10 p.natAbs : Nat) = 10 ^ p := by
  have hpow (k : Nat) : ((Nat.pow 10 k : Nat) : ℚ) = 10 ^ (k : Int) := by
    rw [Nat.pow_eq, Nat.cast_pow, zpow_natCast, Nat.cast_ofNat]
  by_cases h : 0 ≤ p
  · have habs : (p.natAbs : Int) = p := by omega
    rw [if_pos h, if_pos h, hpow, habs, Nat.cast_one, div_one]
  · have habs : (p.natAbs : Int) = -p := by omega
    rw [if_neg h, if_neg h, hpow, habs, zpow_neg, Nat.cast_one, one_div, inv_inv]

theorem Rounds.holds_iff {step part : Nat} (hden : 0 < r.den) (hpart : 0 < part) :
    r.holds step part c = true ↔ r.Covers (c * (step / part)) := by
  have hd : (0 : ℚ) < r.den := by exact_mod_cast hden
  have hp : (0 : ℚ) < part := by exact_mod_cast hpart
  have hpoint : (c : ℚ) * (step / part) = ((c * step : Nat) : ℚ) / part := by
    push_cast
    ring
  rw [hpoint]
  unfold Rounds.holds Rounds.Covers
  cases r.closed with
  | true =>
    simp only [if_true, Bool.and_eq_true, decide_eq_true_eq]
    rw [div_le_div_iff₀ hd hp, div_le_div_iff₀ hp hd]
    norm_cast
  | false =>
    simp only [Bool.false_eq_true, if_false, Bool.and_eq_true, decide_eq_true_eq]
    rw [div_lt_div_iff₀ hd hp, div_lt_div_iff₀ hp hd]
    norm_cast

theorem part_pos (p : Int) : 0 < (if 0 ≤ p then 1 else Nat.pow 10 p.natAbs : Nat) := by
  split
  · exact Nat.one_pos
  · exact Nat.pow_pos (by decide)

/-- What the grid has to offer rounds to the number. -/
theorem Rounds.covers_gridPoint? (hden : 0 < r.den) (h : r.gridPoint? p = some c) :
    r.Covers (c * 10 ^ p) := by
  have hpart := part_pos p
  unfold Rounds.gridPoint? at h
  dsimp only at h
  rw [← step_div p]
  generalize (if 0 ≤ p then Nat.pow 10 p.natAbs else 1 : Nat) = step at h ⊢
  generalize (if 0 ≤ p then 1 else Nat.pow 10 p.natAbs : Nat) = part at h hpart ⊢
  rw [← Rounds.holds_iff hden hpart]
  split at h
  · split at h
    · rename_i hup
      cases h
      exact (Bool.and_eq_true_iff.mp hup).1
    · cases h
      assumption
  · split at h
    · cases h
      assumption
    · cases h

/-- A grid that is finer than the distance to the lower end has a point. -/
theorem Rounds.gridPoint?_isSome (hden : 0 < r.den)
    (hfine : (10 : ℚ) ^ p ≤ r.value / r.den - r.low / r.den)
    (hhigh : (r.value : ℚ) / r.den < r.high / r.den) : (r.gridPoint? p).isSome := by
  have hp := ten_zpow_pos p
  have hpart := part_pos p
  unfold Rounds.gridPoint?
  dsimp only
  rw [← step_div p] at hp hfine
  generalize (if 0 ≤ p then Nat.pow 10 p.natAbs else 1 : Nat) = step at hp hfine ⊢
  generalize (if 0 ≤ p then 1 else Nat.pow 10 p.natAbs : Nat) = part at hp hpart hfine ⊢
  have hd : (0 : ℚ) < r.den := by exact_mod_cast hden
  have hq : (0 : ℚ) < part := by exact_mod_cast hpart
  have hs : 0 < step := by
    rcases Nat.eq_zero_or_pos step with rfl | h
    · simp at hp
    · exact h
  -- the last point that is not above the number
  obtain ⟨k, hk⟩ : ∃ k, k = r.value * part / (step * r.den) := ⟨_, rfl⟩
  rw [← hk]
  have hcell : (k : ℚ) * (step * r.den) ≤ r.value * part ∧
      (r.value : ℚ) * part < (step * r.den) * (k + 1) := by
    have hle : k * (step * r.den) ≤ r.value * part := hk ▸ Nat.div_mul_le_self _ _
    have hlt : r.value * part < step * r.den * (k + 1) :=
      hk ▸ Nat.lt_mul_div_succ _ (Nat.mul_pos hs hden)
    exact ⟨by exact_mod_cast hle, by exact_mod_cast hlt⟩
  have hbelow : (k : ℚ) * (step / part) ≤ r.value / r.den := by
    rw [← mul_div_assoc, div_le_div_iff₀ hq hd]
    linarith [hcell.1]
  have habove : (r.value : ℚ) / r.den < (k + 1) * (step / part) := by
    rw [← mul_div_assoc, div_lt_div_iff₀ hd hq]
    linarith [hcell.2]
  have hholds : r.holds step part k = true := by
    rw [Rounds.holds_iff hden hpart]
    have hlow : (r.low : ℚ) / r.den < k * (step / part) := by linarith
    unfold Rounds.Covers
    split
    · exact ⟨hlow.le, hbelow.trans hhigh.le⟩
    · exact ⟨hlow, hbelow.trans_lt hhigh⟩
  rw [if_pos hholds]
  split <;> rfl

/-- Where a grid on the way has a point, the search gives a point of the first such grid. -/
theorem Rounds.covers_search {n i : Nat} (hden : 0 < r.den) (hi : i < n)
    (h : (r.gridPoint? (p - i)).isSome) :
    r.Covers ((r.search n p).1 * 10 ^ (r.search n p).2) := by
  induction n generalizing p i with
  | zero => omega
  | succ n ih =>
    unfold Rounds.search
    split
    · rename_i c hc
      exact Rounds.covers_gridPoint? hden hc
    · rename_i hnone
      cases i with
      | zero => simp [hnone] at h
      | succ i =>
        refine @ih (p - 1) i (by omega) ?_
        have : p - 1 - (i : Int) = p - ((i + 1 : Nat) : Int) := by push_cast; omega
        rw [this]
        exact h

end Grid

/-! ## The estimate of the logarithm -/

/-- `1233 / 4096` is less than the decimal logarithm of two, but not by much. -/
theorem ten_pow_bounds : (10 : ℚ) ^ 1233 ≤ 2 ^ 4096 ∧ (2 : ℚ) ^ 4095 ≤ 10 ^ 1233 := by
  have h : (10 : Nat) ^ 1233 ≤ 2 ^ 4096 := by decide +kernel
  have h' : (2 : Nat) ^ 4095 ≤ 10 ^ 1233 := by decide +kernel
  constructor
  · exact_mod_cast h
  · exact_mod_cast h'

/-- The estimate is at most one binade too high. -/
theorem ten_zpow_le {k : Int} (hk : -4096 ≤ k) : (10 : ℚ) ^ (k * 1233 / 4096) ≤ 2 ^ (k + 1) := by
  obtain ⟨t, ht⟩ : ∃ t, t = k * 1233 / 4096 := ⟨_, rfl⟩
  rw [← ht]
  -- both sides to the power of 4096
  refine (pow_le_pow_iff_left₀ (ten_zpow_pos t).le (two_zpow_pos _).le (n := 4096)
    (by decide)).mp ?_
  rw [← zpow_natCast, ← zpow_mul, ← zpow_natCast, ← zpow_mul]
  have hexp : (10 : ℚ) ^ (t * (4096 : Nat)) ≤ 10 ^ ((1233 : Nat) * k) :=
    zpow_le_zpow_right₀ (by norm_num) (by push_cast; omega)
  refine hexp.trans ?_
  obtain ⟨hup, hdown⟩ := ten_pow_bounds
  rcases Int.le_total 0 k with hpos | hneg
  · obtain ⟨j, rfl⟩ := Int.eq_ofNat_of_zero_le hpos
    calc (10 : ℚ) ^ (((1233 : Nat) : Int) * (j : Int)) = (10 ^ 1233) ^ j := by
          rw [zpow_mul, zpow_natCast, zpow_natCast]
      _ ≤ (2 ^ 4096) ^ j := pow_le_pow_left₀ (by positivity) hup j
      _ = 2 ^ (((4096 : Nat) : Int) * (j : Int)) := by rw [zpow_mul, zpow_natCast, zpow_natCast]
      _ ≤ 2 ^ (((j : Int) + 1) * ((4096 : Nat) : Int)) :=
          zpow_le_zpow_right₀ (by norm_num) (by push_cast; omega)
  · obtain ⟨j, hj⟩ := Int.eq_ofNat_of_zero_le (show 0 ≤ -k by omega)
    obtain rfl : k = -(j : Int) := by omega
    calc (10 : ℚ) ^ (((1233 : Nat) : Int) * -(j : Int)) = ((10 ^ 1233) ^ j)⁻¹ := by
          rw [mul_neg, zpow_neg, zpow_mul, zpow_natCast, zpow_natCast]
      _ ≤ ((2 ^ 4095) ^ j)⁻¹ :=
          inv_anti₀ (by positivity) (pow_le_pow_left₀ (by positivity) hdown j)
      _ = 2 ^ (-(((4095 : Nat) : Int) * (j : Int))) := by
          rw [zpow_neg, zpow_mul, zpow_natCast, zpow_natCast]
      _ ≤ 2 ^ ((-(j : Int) + 1) * ((4096 : Nat) : Int)) :=
          zpow_le_zpow_right₀ (by norm_num) (by push_cast; omega)

/-- The shortest digits stand for a quotient that rounds to the number. -/
theorem covers_shortest {n : Number} (hz : n.isZero = false) :
    n.rounds.Covers (n.shortest.1 * 10 ^ n.shortest.2) := by
  have hden := n.rounds_den_pos
  have he := two_zpow_pos n.exponent
  have hsig : (1 : ℚ) ≤ n.significand := by exact_mod_cast significand_pos hz
  have hvalue := n.rounds_value
  have hval : 0 < n.rounds.value := by
    have hd : (0 : ℚ) < n.rounds.den := by exact_mod_cast hden
    have : (0 : ℚ) < n.rounds.value / n.rounds.den := by
      rw [hvalue]
      positivity
    have := (div_pos_iff_of_pos_right hd).mp this
    exact_mod_cast this
  obtain ⟨hlow, hhigh⟩ := quotient_bounds hval hden
  rw [hvalue] at hlow hhigh
  obtain ⟨k, hk⟩ : ∃ k : Int, k = (n.rounds.value.log2 : Int) - n.rounds.den.log2 + 1 := ⟨_, rfl⟩
  -- the binade of the number
  have hkhigh : k ≤ n.exponent + 54 := by
    have hlt : (n.significand : ℚ) * 2 ^ n.exponent < 2 ^ (n.exponent + 53) := by
      have : (n.significand : ℚ) < 2 * leadingOne := by exact_mod_cast n.significand_lt
      have hone : (2 : ℚ) * leadingOne = 2 ^ (53 : Int) := by norm_num [leadingOne]
      rw [zpow_add₀ (by norm_num), mul_comm]
      exact mul_lt_mul_of_pos_left (this.trans_eq hone) he
    have := two_zpow_lt_iff.mp (hlow.trans hlt)
    omega
  have hklow : -4096 ≤ k := by
    have hge : (2 : ℚ) ^ n.exponent ≤ n.significand * 2 ^ n.exponent :=
      le_mul_of_one_le_left he.le hsig
    have := two_zpow_lt_iff.mp (hge.trans_lt hhigh)
    have := n.le_exponent
    omega
  have hfine : (10 : ℚ) ^ (k * 1233 / 4096 - 21) ≤ 1 / 4 * 2 ^ n.exponent := by
    calc (10 : ℚ) ^ (k * 1233 / 4096 - 21) = 10 ^ (k * 1233 / 4096) / 10 ^ (21 : Int) :=
          zpow_sub₀ (by norm_num) _ _
      _ ≤ 2 ^ (k + 1) / 10 ^ (21 : Int) :=
          div_le_div_of_nonneg_right (ten_zpow_le hklow) (by norm_num)
      _ ≤ 2 ^ (n.exponent + 55) / 10 ^ (21 : Int) :=
          div_le_div_of_nonneg_right (zpow_le_zpow_right₀ (by norm_num) (by omega)) (by norm_num)
      _ ≤ 1 / 4 * 2 ^ n.exponent := by
          rw [div_le_iff₀ (by norm_num), zpow_add₀ (by norm_num)]
          norm_num
          linarith
  unfold shortest
  dsimp only
  rw [← hk]
  refine @Rounds.covers_search _ _ _ 23 hden (by decide) (Rounds.gridPoint?_isSome hden ?_ ?_)
  · have hp : k * 1233 / 4096 + 2 - ((23 : Nat) : Int) = k * 1233 / 4096 - 21 := by
      push_cast
      omega
    have hreach : 1 / 4 ≤ n.reachBelow := by
      unfold reachBelow
      split <;> norm_num
    rw [hp, hvalue, rounds_low hz]
    have := mul_le_mul_of_nonneg_right hreach he.le
    linarith
  · rw [hvalue, rounds_high]
    exact mul_lt_mul_of_pos_right (by linarith) he

end DynVal.Number
