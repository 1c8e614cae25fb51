import DynVal.Cirru
import DynVal.Name
import DynVal.Number

/-!
# The orders of scalars

Numbers, names and Cirru trees are totally preordered by their comparisons, and so far as they are
told apart by them they differ.

* `Number.compare_eq_place`: a number is compared by its place on a line on which both zeros have
  the same one.
* `Cirru.compareLex_tokens`: trees are ordered as the texts are that go through them from left to
  right, where the end of a list comes before leaves and the beginning of one after them.
-/

namespace DynVal

open Std

/-! ## Numbers -/

namespace Number

/-- The place of a number on the line, the same one for both zeros. -/
def place (n : Number) : Int := if n.isZero then 0 else n.rank

theorem isZero_iff {n : Number} : n.isZero = true ↔ n.magnitude = 0 := beq_iff_eq

theorem bits_eq_magnitude (n : Number) :
    n.bits.toNat = n.magnitude + if n.negative then 0x8000000000000000 else 0 := by
  have hlt := n.bits.toNat_lt
  have hmag : n.magnitude = n.bits.toNat % 0x8000000000000000 := by
    simp only [magnitude, UInt64.toNat_and]
    exact Nat.and_two_pow_sub_one_eq_mod n.bits.toNat 63
  have hneg : n.negative = decide (0x8000000000000000 ≤ n.bits.toNat) := by
    simp [negative, UInt64.le_iff_toNat_le]
  rw [hneg, hmag]
  by_cases h : 0x8000000000000000 ≤ n.bits.toNat
  · simp only [h, decide_true, if_true]
    omega
  · simp only [h, decide_false]
    simp
    omega

theorem eq_of_bits {a b : Number} (h : a.bits = b.bits) : a = b := by
  cases a; cases b; cases h; rfl

theorem eq_of_rank {a b : Number} (h : a.rank = b.rank) : a = b := by
  refine eq_of_bits (UInt64.toNat_inj.mp ?_)
  rw [bits_eq_magnitude a, bits_eq_magnitude b]
  unfold rank at h
  cases ha : a.negative <;> cases hb : b.negative <;> simp only [ha, hb] at h <;>
    simp <;> simp at h <;> omega

theorem place_eq_iff {a b : Number} :
    a.place = b.place ↔ a = b ∨ (a.isZero = true ∧ b.isZero = true) := by
  constructor
  · intro h
    unfold place at h
    split at h
    · rename_i ha
      split at h
      · exact .inr ⟨ha, ‹_›⟩
      · rename_i hb
        rw [isZero_iff] at hb
        unfold rank at h
        split at h <;> omega
    · rename_i ha
      split at h
      · rw [isZero_iff] at ha
        unfold rank at h
        split at h <;> omega
      · exact .inl (eq_of_rank h)
  · rintro (rfl | ⟨ha, hb⟩)
    · rfl
    · simp [place, ha, hb]

theorem same_iff {a b : Number} :
    a.same b = true ↔ (a.isNaN = false ∧ b.isNaN = false) ∧ a.place = b.place := by
  rw [place_eq_iff]
  simp only [same, Bool.and_eq_true, Bool.not_eq_true', Bool.or_eq_true, beq_iff_eq]
  constructor
  · rintro ⟨hn, h | h⟩
    · exact ⟨hn, .inl (eq_of_bits h)⟩
    · exact ⟨hn, .inr h⟩
  · rintro ⟨hn, rfl | h⟩
    · exact ⟨hn, .inl rfl⟩
    · exact ⟨hn, .inr h⟩

theorem not_isNaN_of_isZero {n : Number} (h : n.isZero = true) : n.isNaN = false := by
  simp [isNaN, isZero_iff.mp h]

theorem rank_of_isZero {n : Number} (h : n.isZero = true) : n.rank = 0 ∨ n.rank = -1 := by
  unfold rank
  rw [isZero_iff.mp h]
  split <;> simp

theorem rank_of_not_isZero {n : Number} (h : n.isZero = false) : n.rank ≤ -2 ∨ 1 ≤ n.rank := by
  have hm : n.magnitude ≠ 0 := fun h' => by simp [isZero_iff.mpr h'] at h
  unfold rank
  split <;> omega

theorem compare_congr {a b c d : Int} (hlt : a < b ↔ c < d) (heq : a = b ↔ c = d) :
    Ord.compare a b = Ord.compare c d := by
  show compareOfLessAndEq a b = compareOfLessAndEq c d
  simp only [compareOfLessAndEq, hlt, heq]

theorem compare_eq_place (a b : Number) : a.compare b = Ord.compare a.place b.place := by
  unfold compare
  split
  · rename_i h
    rw [(same_iff.mp h).2]
    exact (ReflOrd.compare_self).symm
  · rename_i h
    cases ha : a.isZero with
    | false =>
      have hra := rank_of_not_isZero ha
      cases hb : b.isZero with
      | false => simp [place, ha, hb]
      | true =>
        have hrb := rank_of_isZero hb
        simp only [place, ha, hb]
        exact compare_congr (by simp; omega) (by simp; omega)
    | true =>
      have hra := rank_of_isZero ha
      cases hb : b.isZero with
      | false =>
        have hrb := rank_of_not_isZero hb
        simp only [place, ha, hb]
        exact compare_congr (by simp; omega) (by simp; omega)
      | true =>
        refine absurd (same_iff.mpr ⟨⟨not_isNaN_of_isZero ha, not_isNaN_of_isZero hb⟩, ?_⟩) h
        exact place_eq_iff.mpr (.inr ⟨ha, hb⟩)

theorem compare_eq_iff {a b : Number} : a.compare b = .eq ↔ a.place = b.place := by
  rw [compare_eq_place]
  exact LawfulEqOrd.compare_eq_iff_eq

instance : TransCmp compare where
  eq_swap {a b} := by
    rw [compare_eq_place, compare_eq_place]
    exact OrientedCmp.eq_swap
  isLE_trans {a b c} := by
    simp only [compare_eq_place]
    exact TransCmp.isLE_trans

end Number

/-! ## Names -/

instance : TransCmp Tag.compare := inferInstanceAs (TransCmp (compareOn Tag.name))

instance : TransCmp Symbol.compare := inferInstanceAs (TransCmp (compareOn Symbol.name))

instance : LawfulEqCmp Tag.compare where
  eq_of_compare {a b} h := by
    cases a; cases b
    exact congrArg Tag.mk (LawfulEqOrd.eq_of_compare h)

instance : LawfulEqCmp Symbol.compare where
  eq_of_compare {a b} h := by
    cases a; cases b
    exact congrArg Symbol.mk (LawfulEqOrd.eq_of_compare h)

/-! ## Trees -/

namespace Cirru

/-- A leaf, or the end or beginning of a list. -/
abbrev Token := Nat × String

def compareTokens : Token → Token → Ordering := compareLex (compareOn Prod.fst) (compareOn Prod.snd)

instance : TransCmp compareTokens := inferInstanceAs (TransCmp (compareLex _ _))

mutual

/-- The tokens of a tree, followed by others. -/
def tokens : Cirru → List Token → List Token
  | .leaf s, rest => (1, s) :: rest
  | .list xs, rest => (2, "") :: tokensAll xs ((0, "") :: rest)

def tokensAll : List Cirru → List Token → List Token
  | [], rest => rest
  | x :: xs, rest => tokens x (tokensAll xs rest)

end

mutual

theorem compareLex_tokens : (a b : Cirru) → (r s : List Token) →
    List.compareLex compareTokens (tokens a r) (tokens b s) =
      (compare a b).then (List.compareLex compareTokens r s)
  | .leaf a, .leaf b, r, s => by
    simp only [tokens, compare, List.compareLex_cons_cons]
    rfl
  | .leaf a, .list ys, r, s => by
    simp only [tokens, compare, List.compareLex_cons_cons]
    rfl
  | .list xs, .leaf b, r, s => by
    simp only [tokens, compare, List.compareLex_cons_cons]
    rfl
  | .list xs, .list ys, r, s => by
    rw [tokens, tokens, compare, List.compareLex_cons_cons]
    exact compareLex_tokensAll xs ys r s

theorem compareLex_tokensAll : (xs ys : List Cirru) → (r s : List Token) →
    List.compareLex compareTokens (tokensAll xs ((0, "") :: r)) (tokensAll ys ((0, "") :: s)) =
      (compareAll xs ys).then (List.compareLex compareTokens r s)
  | [], [], r, s => by
    simp only [tokensAll, compareAll, List.compareLex_cons_cons]
    rfl
  | [], .leaf _ :: ys, r, s => by
    simp only [tokensAll, tokens, compareAll, List.compareLex_cons_cons]
    rfl
  | [], .list _ :: ys, r, s => by
    simp only [tokensAll, tokens, compareAll, List.compareLex_cons_cons]
    rfl
  | .leaf _ :: xs, [], r, s => by
    simp only [tokensAll, tokens, compareAll, List.compareLex_cons_cons]
    rfl
  | .list _ :: xs, [], r, s => by
    simp only [tokensAll, tokens, compareAll, List.compareLex_cons_cons]
    rfl
  | x :: xs, y :: ys, r, s => by
    rw [tokensAll, tokensAll, compareAll, compareLex_tokens x y, compareLex_tokensAll xs ys,
      Ordering.then_assoc]

end

theorem compare_eq_tokens (a b : Cirru) :
    compare a b = List.compareLex compareTokens (tokens a []) (tokens b []) := by
  rw [compareLex_tokens, List.compareLex_nil_nil, Ordering.then_eq]

instance : TransCmp compare where
  eq_swap {a b} := by
    rw [compare_eq_tokens, compare_eq_tokens]
    exact OrientedCmp.eq_swap
  isLE_trans {a b c} := by
    simp only [compare_eq_tokens]
    exact TransCmp.isLE_trans

mutual

theorem eq_of_compare : (a b : Cirru) → compare a b = .eq → a = b
  | .leaf a, .leaf b, h => congrArg leaf (LawfulEqOrd.eq_of_compare h)
  | .leaf _, .list _, h => by simp [compare] at h
  | .list _, .leaf _, h => by simp [compare] at h
  | .list xs, .list ys, h => congrArg list (eq_of_compareAll xs ys h)

theorem eq_of_compareAll : (xs ys : List Cirru) → compareAll xs ys = .eq → xs = ys
  | [], [], _ => rfl
  | [], _ :: _, h => by simp [compareAll] at h
  | _ :: _, [], h => by simp [compareAll] at h
  | x :: xs, y :: ys, h => by
    rw [compareAll, Ordering.then_eq_eq] at h
    rw [eq_of_compare x y h.1, eq_of_compareAll xs ys h.2]

end

instance : LawfulEqCmp compare where
  eq_of_compare h := eq_of_compare _ _ h

end Cirru
end DynVal
