import Mathlib.Data.Nat.Digits.Lemmas
import DynVal.Proofs.Numbers.Shortest

/-!
# Numbers are read back from their text

The text of a finite number is a literal without a power of ten: a sign for negative numbers,
digits, and digits after a point where the last grid is below one. It stands for the digits and the
power that the search for the shortest ones gave, and so for a quotient that rounds to the number.
Reading the text gives the number back, to the bit (`parse?_text`).
-/

namespace DynVal.Number

namespace Literal

/-! ## Digits -/

theorem digitsValue_eq (cs : List Char) : digitsValue cs = Nat.ofDigitChars 10 cs 0 := rfl

theorem digitsValue_toDigits (c : Nat) : digitsValue (Nat.toDigits 10 c) = c :=
  Nat.ofDigitChars_ten_toDigits

theorem digitsValue_append (xs ys : List Char) :
    digitsValue (xs ++ ys) = 10 ^ ys.length * digitsValue xs + digitsValue ys := by
  simp only [digitsValue_eq]
  rw [Nat.ofDigitChars_append, Nat.ofDigitChars_eq_ofDigitChars_zero]

theorem digitsValue_zeros (k : Nat) : digitsValue (List.replicate k '0') = 0 := by
  rw [digitsValue_eq, Nat.ofDigitChars_replicate_zero, Nat.mul_zero]

theorem isDigit_toDigits (c : Nat) : ∀ d ∈ Nat.toDigits 10 c, d.isDigit = true :=
  fun _ hd => Nat.isDigit_of_mem_toDigits (by decide) (by decide) hd

theorem isDigit_zeros (k : Nat) : ∀ d ∈ List.replicate k '0', d.isDigit = true := by
  intro d hd
  rw [List.eq_of_mem_replicate hd]
  rfl

/-! ## Literals without a power of ten -/

section Unsigned

variable {negative : Bool} {ds fs : List Char}

theorem unsigned?_whole (hne : ds ≠ []) (hd : ∀ c ∈ ds, c.isDigit = true) :
    unsigned? negative ds = some ⟨negative, ds, [], 0⟩ := by
  have htake : ds.takeWhile Char.isDigit = ds := by
    simpa using @List.takeWhile_append_of_pos _ _ ds [] hd
  have hdrop : ds.dropWhile Char.isDigit = [] := by
    simpa using @List.dropWhile_append_of_pos _ _ ds [] hd
  simp only [unsigned?, htake, hdrop, if_neg hne]
  rfl

theorem unsigned?_point (hne : ds ≠ []) (hd : ∀ c ∈ ds, c.isDigit = true)
    (hf : ∀ c ∈ fs, c.isDigit = true) :
    unsigned? negative (ds ++ '.' :: fs) = some ⟨negative, ds, fs, 0⟩ := by
  have htake : (ds ++ '.' :: fs).takeWhile Char.isDigit = ds := by
    rw [List.takeWhile_append_of_pos hd, List.takeWhile_cons_of_neg (by decide), List.append_nil]
  have hdrop : (ds ++ '.' :: fs).dropWhile Char.isDigit = '.' :: fs := by
    rw [List.dropWhile_append_of_pos hd, List.dropWhile_cons_of_neg (by decide)]
  have htake' : fs.takeWhile Char.isDigit = fs := by
    simpa using @List.takeWhile_append_of_pos _ _ fs [] hf
  have hdrop' : fs.dropWhile Char.isDigit = [] := by
    simpa using @List.dropWhile_append_of_pos _ _ fs [] hf
  simp only [unsigned?, htake, hdrop, htake', hdrop', if_neg hne]
  rfl

end Unsigned

/-- The quotient that a literal stands for, its sign apart. -/
def quotient (l : Literal) : ℚ :=
  digitsValue (l.whole ++ l.fraction) * 10 ^ (l.power - l.fraction.length)

/-- Digits that are written out are read as what they stand for. -/
theorem unsigned?_positional (negative : Bool) (c : Nat) (p : Int) :
    ∃ l, unsigned? negative (positional c p) = some l ∧ l.negative = negative ∧
      l.quotient = c * 10 ^ p := by
  have hdigits := isDigit_toDigits c
  unfold positional
  dsimp only
  by_cases hp : 0 ≤ p
  · rw [if_pos hp]
    refine ⟨_, unsigned?_whole (by simp) (List.forall_mem_append.mpr ⟨hdigits, isDigit_zeros _⟩),
      rfl, ?_⟩
    have habs : (p.natAbs : Int) = p := by omega
    simp only [quotient, List.append_nil, digitsValue_append, digitsValue_toDigits,
      digitsValue_zeros, List.length_replicate, List.length_nil]
    rw [Nat.add_zero, Nat.cast_mul, Nat.cast_pow, ← zpow_natCast, habs]
    simp [mul_comm]
  · rw [if_neg hp]
    have habs : (p.natAbs : Int) = -p := by omega
    by_cases hlen : p.natAbs < (Nat.toDigits 10 c).length
    · -- the point stands among the digits
      rw [if_pos hlen]
      refine ⟨_, unsigned?_point ?_ (fun d hd => hdigits d (List.mem_of_mem_take hd))
        fun d hd => hdigits d (List.mem_of_mem_drop hd), rfl, ?_⟩
      · intro hnil
        have := congrArg List.length hnil
        rw [List.length_take, List.length_nil] at this
        omega
      · have hpower : (0 : Int) - (List.drop ((Nat.toDigits 10 c).length - p.natAbs)
            (Nat.toDigits 10 c)).length = p := by
          rw [List.length_drop]
          omega
        simp only [quotient, List.take_append_drop, digitsValue_toDigits, hpower]
    · -- zeros come first
      rw [if_neg hlen]
      have hfraction : ∀ d ∈ List.replicate (p.natAbs - (Nat.toDigits 10 c).length) '0' ++
          Nat.toDigits 10 c, d.isDigit = true :=
        List.forall_mem_append.mpr ⟨isDigit_zeros _, hdigits⟩
      have hpoint := @unsigned?_point negative ['0'] _ (by simp) (by simp) hfraction
      refine ⟨_, hpoint, rfl, ?_⟩
      have hpower : (0 : Int) - (List.replicate (p.natAbs - (Nat.toDigits 10 c).length) '0' ++
          Nat.toDigits 10 c).length = p := by
        rw [List.length_append, List.length_replicate]
        omega
      simp only [quotient, hpower]
      rw [digitsValue_append, digitsValue_append, digitsValue_zeros, digitsValue_toDigits]
      simp [digitsValue]

/-! ## The number that a literal stands for -/

/-- The count of digits says between which powers of ten a natural is. -/
theorem toDigits_bounds {d : Nat} (hd : 0 < d) :
    (10 : ℚ) ^ (((Nat.toDigits 10 d).length : Int) - 1) ≤ d ∧
      (d : ℚ) < 10 ^ ((Nat.toDigits 10 d).length : Int) := by
  have hpos : 0 < (Nat.toDigits 10 d).length := Nat.length_toDigits_pos
  have hlt : d < 10 ^ (Nat.toDigits 10 d).length :=
    (Nat.length_toDigits_le_iff (by decide) hpos).mp (Nat.le_refl _)
  constructor
  · by_cases hone : (Nat.toDigits 10 d).length = 1
    · have : 1 ≤ d := hd
      rw [hone]
      simpa using this
    · have hle : 10 ^ ((Nat.toDigits 10 d).length - 1) ≤ d := by
        by_contra hlt'
        have := (Nat.length_toDigits_le_iff (b := 10) (n := d) (by decide)
          (show 0 < (Nat.toDigits 10 d).length - 1 by omega)).mpr (by omega)
        omega
      have hcast : ((Nat.toDigits 10 d).length : Int) - 1 =
          (((Nat.toDigits 10 d).length - 1 : Nat) : Int) := by omega
      rw [hcast, zpow_natCast]
      exact_mod_cast hle
  · rw [zpow_natCast]
    exact_mod_cast hlt

theorem ten_pow_range : (2 : ℚ) ^ 1024 ≤ 10 ^ 400 ∧ (2 : ℚ) ^ 1075 ≤ 10 ^ 401 := by
  have h : (2 : Nat) ^ 1024 ≤ 10 ^ 400 := by decide +kernel
  have h' : (2 : Nat) ^ 1075 ≤ 10 ^ 401 := by decide +kernel
  constructor
  · exact_mod_cast h
  · exact_mod_cast h'

/-- A literal for a quotient that rounds to a number stands for the number: its size is within the
bounds beyond which a literal is infinite or zero. -/
theorem value_of_covers {l : Literal} {n : Number} (hf : n.isFinite = true)
    (hz : n.isZero = false) (hsign : l.negative = n.negative) (h : n.rounds.Covers l.quotient) :
    l.value = n := by
  obtain ⟨hlow, hhigh⟩ := covers_range hf hz h
  obtain ⟨hup, hdown⟩ := ten_pow_range
  unfold quotient at h hlow hhigh
  unfold value
  dsimp only
  rw [hsign]
  generalize digitsValue (l.whole ++ l.fraction) = d at h hlow hhigh ⊢
  generalize l.power - (l.fraction.length : Int) = power at h hlow hhigh ⊢
  have hpower := ten_zpow_pos power
  have hd : 0 < d := by
    have : (0 : ℚ) < d * 10 ^ power := (two_zpow_pos _).trans_le hlow
    have : (0 : ℚ) < d := (mul_pos_iff_of_pos_right hpower).mp this
    exact_mod_cast this
  obtain ⟨hlen, hlen'⟩ := toDigits_bounds hd
  rw [if_neg (by omega)]
  split
  · -- there are not so many digits before the point
    rename_i hsize
    have hge : (10 : ℚ) ^ (400 : Int) ≤ d * 10 ^ power :=
      calc (10 : ℚ) ^ (400 : Int) ≤ 10 ^ (((Nat.toDigits 10 d).length : Int) - 1 + power) :=
            zpow_le_zpow_right₀ (by norm_num) (by omega)
        _ = 10 ^ (((Nat.toDigits 10 d).length : Int) - 1) * 10 ^ power :=
            zpow_add₀ (by norm_num) _ _
        _ ≤ d * 10 ^ power := mul_le_mul_of_nonneg_right hlen hpower.le
    rw [show (400 : Int) = ((400 : Nat) : Int) from rfl, zpow_natCast] at hge
    rw [show (1024 : Int) = ((1024 : Nat) : Int) from rfl, zpow_natCast] at hhigh
    exact absurd hhigh (not_lt.mpr (hup.trans hge))
  split
  · -- nor are there so many zeros behind it
    rename_i hsize
    have hlt : (d : ℚ) * 10 ^ power < 10 ^ (-401 : Int) :=
      calc (d : ℚ) * 10 ^ power < 10 ^ ((Nat.toDigits 10 d).length : Int) * 10 ^ power :=
            mul_lt_mul_of_pos_right hlen' hpower
        _ = 10 ^ (((Nat.toDigits 10 d).length : Int) + power) := (zpow_add₀ (by norm_num) _ _).symm
        _ ≤ 10 ^ (-401 : Int) := zpow_le_zpow_right₀ (by norm_num) (by omega)
    rw [show (-401 : Int) = -((401 : Nat) : Int) from rfl, zpow_neg, zpow_natCast] at hlt
    rw [show (-1075 : Int) = -((1075 : Nat) : Int) from rfl, zpow_neg, zpow_natCast] at hlow
    exact absurd (hlow.trans_lt hlt) (not_lt.mpr (inv_anti₀ (by positivity) hdown))
  split
  · rename_i hpos
    have habs : (power.natAbs : Int) = power := by omega
    refine ofRatio_of_covers hf hz (Nat.mul_pos hd (Nat.pow_pos (by decide))) Nat.one_pos ?_
    rw [Nat.pow_eq, Nat.cast_mul, Nat.cast_pow, ← zpow_natCast, habs, Nat.cast_one, div_one]
    exact h
  · rename_i hneg
    have habs : (power.natAbs : Int) = -power := by omega
    refine ofRatio_of_covers hf hz hd (Nat.pow_pos (by decide)) ?_
    rw [Nat.pow_eq, Nat.cast_pow, ← zpow_natCast, habs, zpow_neg, div_inv_eq_mul]
    exact h

end Literal

/-! ## Texts -/

section Text

variable {n : Number}

/-- The digits of a finite number, its sign apart. -/
def digits (n : Number) : List Char :=
  if n.isZero then ['0'] else positional n.shortest.1 n.shortest.2

theorem text_toList (hf : n.isFinite = true) :
    n.text.toList = if n.negative then '-' :: n.digits else n.digits := by
  simp only [isFinite, decide_eq_true_eq] at hf
  have hnan : n.isNaN = false := by
    simp only [isNaN, decide_eq_false_iff_not]
    omega
  have hinf : n.isInfinite = false := by
    simp only [isInfinite, beq_eq_false_iff_ne]
    omega
  simp [text, digits, hnan, hinf]

/-- The digits start with a digit. -/
theorem exists_digits_eq (n : Number) : ∃ d ds, n.digits = d :: ds ∧ d.isDigit = true := by
  unfold digits positional
  dsimp only
  obtain ⟨d, ds, hds⟩ := List.exists_cons_of_ne_nil (@Nat.toDigits_ne_nil n.shortest.1 10)
  have hd : d.isDigit = true := Literal.isDigit_toDigits n.shortest.1 d (by rw [hds]; simp)
  split
  · exact ⟨'0', [], rfl, rfl⟩
  split
  · rw [hds]
    exact ⟨d, _, rfl, hd⟩
  split
  · rename_i hlen
    rw [hds] at hlen ⊢
    obtain ⟨k, hk⟩ : ∃ k, (d :: ds).length - n.shortest.2.natAbs = k + 1 :=
      ⟨(d :: ds).length - n.shortest.2.natAbs - 1, by omega⟩
    rw [hk]
    exact ⟨d, _, rfl, hd⟩
  · exact ⟨'0', _, rfl, rfl⟩

/-- Numbers with zero bits below the sign. -/
theorem ofRatio_zero (hz : n.isZero = true) : ofRatio n.negative 0 1 = n := by
  have hm := isZero_iff.mp hz
  refine ofRatio_of_magnitude (by simp [isFinite, hm]) ?_
  rw [hm]
  rfl

/-- The digits of a number are read as the number. -/
theorem unsigned?_digits (hf : n.isFinite = true) :
    (Literal.unsigned? n.negative n.digits).map Literal.value = some n := by
  unfold digits
  by_cases hz : n.isZero = true
  · rw [if_pos hz, Literal.unsigned?_whole (by simp) (by simp)]
    exact congrArg some (ofRatio_zero hz)
  · have hz : n.isZero = false := by simpa using hz
    rw [if_neg (by simp [hz])]
    obtain ⟨l, hl, hsign, hquotient⟩ :=
      Literal.unsigned?_positional n.negative n.shortest.1 n.shortest.2
    rw [hl, Option.map_some, Literal.value_of_covers hf hz hsign (hquotient ▸ covers_shortest hz)]

/-- A finite number is read back from its text. -/
theorem parse?_text (hf : n.isFinite = true) : parse? n.text.toList = some n := by
  have hread := unsigned?_digits hf
  obtain ⟨d, ds, hd, hdigit⟩ := n.exists_digits_eq
  rw [text_toList hf, parse?]
  cases hn : n.negative with
  | true =>
    rw [hn] at hread
    exact hread
  | false =>
    rw [hn] at hread
    rw [if_neg Bool.false_ne_true]
    have hsign : Literal.read? n.digits = Literal.unsigned? false n.digits := by
      rw [hd]
      unfold Literal.read?
      split
      · rename_i h
        obtain ⟨rfl, -⟩ := List.cons.inj h
        cases hdigit
      · rfl
    rw [hsign]
    exact hread

end Text

end DynVal.Number
