import DynVal.Proofs.Values.Records

/-!
# Finding fields

Bisection finds a field of a record whose names are ordered wherever it stands, and nothing else: a
record has at most one field of a name, and `get?` gives its value (`Record.get?_eq_some_iff`). The
names are ordered in every record that is made by the operations on records (`Record.Built`).
-/

namespace DynVal.Record

variable {ν : Type} {r : Record ν} {t : Tag} {v : ν} {names : Array Tag} {i low high fuel : Nat}

/-! ## Bisection -/

theorem of_bisect (h : bisect names t fuel low high = some i) :
    low ≤ i ∧ i < high ∧ names.getD i default = t := by
  fun_induction bisect names t fuel low high with
  | case1 => cases h
  | case2 low high fuel hlt mid heq =>
    obtain rfl := Option.some.inj h
    exact ⟨by omega, by omega, (Std.LawfulEqCmp.eq_of_compare heq).symm⟩
  | case3 low high fuel hlt mid _ ih =>
    obtain ⟨hlow, hhigh, ht⟩ := ih h
    exact ⟨hlow, by omega, ht⟩
  | case4 low high fuel hlt mid _ ih =>
    obtain ⟨hlow, hhigh, ht⟩ := ih h
    exact ⟨by omega, hhigh, ht⟩
  | case5 => cases h

/-- In an ordered array tags compare as their places do. -/
theorem compare_getD (hnames : names.toList.Pairwise fun s t => s.compare t = .lt)
    (hi : names[i]? = some t) {k : Nat} (hk : k < names.size) :
    t.compare (names.getD k default) = Ord.compare i k := by
  obtain ⟨hsize, rfl⟩ := Array.getElem?_eq_some_iff.mp hi
  have hlt (j k : Nat) (hjk : j < k) (hj : j < names.size) (hk : k < names.size) :
      names[j].compare names[k] = .lt :=
    List.pairwise_iff_getElem.mp hnames j k (by simpa using hj) (by simpa using hk) hjk
  rw [Array.getD_eq_getD_getElem?, Array.getElem?_eq_getElem hk, Option.getD_some]
  rcases Nat.lt_trichotomy i k with h | rfl | h
  · rw [hlt i k h hsize hk, Nat.compare_eq_lt.mpr h]
  · rw [@Std.ReflCmp.compare_self _ Tag.compare, Nat.compare_eq_eq.mpr rfl]
  · rw [@Std.OrientedCmp.eq_swap _ Tag.compare, hlt k i h hk hsize, Nat.compare_eq_gt.mpr h]
    rfl

/-- The half that is given up never holds the tag. -/
theorem bisect_eq_some (hnames : names.toList.Pairwise fun s t => s.compare t = .lt)
    (hi : names[i]? = some t) (hlow : low ≤ i) (hhigh : i < high) (hsize : high ≤ names.size)
    (hfuel : high - low ≤ fuel) : bisect names t fuel low high = some i := by
  fun_induction bisect names t fuel low high with
  | case1 => omega
  | case2 low high fuel hlt mid heq =>
    rw [compare_getD hnames hi (by omega), Nat.compare_eq_eq] at heq
    rw [heq]
  | case3 low high fuel hlt mid hbelow ih =>
    rw [compare_getD hnames hi (by omega), Nat.compare_eq_lt] at hbelow
    exact ih hlow hbelow (by omega) (by omega)
  | case4 low high fuel hlt mid habove ih =>
    rw [compare_getD hnames hi (by omega), Nat.compare_eq_gt] at habove
    exact ih habove hhigh hsize (by omega)
  | case5 => omega

theorem position?_eq_some_iff (hr : r.Ordered) : r.position? t = some i ↔ r.names[i]? = some t := by
  have hsize : r.names.toArray.size = r.size := by simp [names, size]
  constructor
  · intro h
    obtain ⟨-, hi, ht⟩ := of_bisect h
    rw [← hsize] at hi
    rw [← ht, Array.getD_eq_getD_getElem?, Array.getElem?_eq_getElem hi, Option.getD_some,
      ← List.getElem?_toArray, Array.getElem?_eq_getElem hi]
  · intro h
    have hi : r.names.toArray[i]? = some t := by rw [List.getElem?_toArray, h]
    obtain ⟨hlt, -⟩ := Array.getElem?_eq_some_iff.mp hi
    exact bisect_eq_some hr hi (Nat.zero_le i) (hsize ▸ hlt) hsize.ge (Nat.sub_le _ _)

/-! ## Values of fields -/

/-- A field is found with its value. -/
theorem get?_eq_some_iff (hr : r.Ordered) : r.get? t = some v ↔ (t, v) ∈ r.fields := by
  have hvalues (i : Nat) : r.values[i]? = (r.fields[i]?).map (·.2) := List.getElem?_map
  have hnames (i : Nat) : r.names[i]? = (r.fields[i]?).map (·.1) := List.getElem?_map
  rw [List.mem_iff_getElem?]
  constructor
  · intro h
    unfold get? at h
    split at h
    case h_1 i hi =>
      rw [position?_eq_some_iff hr, hnames] at hi
      rw [hvalues] at h
      obtain ⟨f, hf, rfl⟩ := Option.map_eq_some_iff.mp hi
      obtain ⟨f', hf', rfl⟩ := Option.map_eq_some_iff.mp h
      exact ⟨i, by rw [hf, Option.some.inj (hf.symm.trans hf')]⟩
    case h_2 => cases h
  · rintro ⟨i, hi⟩
    have hposition : r.position? t = some i := by
      rw [position?_eq_some_iff hr, hnames, hi]
      rfl
    unfold get?
    rw [hposition]
    dsimp only
    rw [hvalues, hi]
    rfl

theorem isSome_get?_iff (hr : r.Ordered) : (r.get? t).isSome ↔ t ∈ r.names := by
  rw [Option.isSome_iff_exists, names, List.mem_map]
  constructor
  · rintro ⟨v, hv⟩
    exact ⟨(t, v), (get?_eq_some_iff hr).mp hv, rfl⟩
  · rintro ⟨⟨_, v⟩, hf, rfl⟩
    exact ⟨v, (get?_eq_some_iff hr).mpr hf⟩

/-! ## Records that can be made -/

/-- The ways in which records are made. -/
inductive Built : Record Value → Prop where
  | ofPairs {r : Record Value} {name : Tag} {ps : List (Tag × Value)}
    (h : Record.ofPairs name ps = .ok r) : Built r
  | withImpls {r : Record Value} (hr : Built r) (tables : List (Record Value)) :
    Built (r.withImpls tables)
  | assoc {r s : Record Value} {t : Tag} {v : Value} (hr : Built r) (h : r.assoc t v = .ok s) :
    Built s
  | withPairs {r s : Record Value} {ps : List (Tag × Value)} (hr : Built r)
    (h : r.withPairs ps = .ok s) : Built s
  | withFields {r s : Record Value} {ps : List (Tag × Value)} (hr : Built r)
    (h : r.withFields ps = .ok s) : Built s
  | fromEntries {r s : Record Value} {es : List (Value × Value)} (hr : Built r)
    (h : r.fromEntries es = .ok s) : Built s
  | assocAll {r s : Record Value} {op : String} {es : List (Value × Value)} (hr : Built r)
    (h : r.assocAll op es = .ok s) : Built s

theorem Built.ordered {r : Record Value} (h : r.Built) : r.Ordered := by
  induction h with
  | ofPairs h => exact ordered_ofPairs h
  | withImpls _ _ ih => exact ih
  | assoc _ h ih => exact ih.of_names (names_assoc h)
  | withPairs _ h ih => exact ih.of_names (names_withPairs h)
  | withFields _ h ih => exact ih.of_names (names_withFields h)
  | fromEntries _ h ih => exact ih.of_names (names_fromEntries h)
  | assocAll _ h ih => exact ih.of_names (names_assocAll h)

end DynVal.Record
