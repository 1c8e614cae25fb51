import Mathlib.Data.List.Perm.Basic
import DynVal.Buckets

/-!
# Items in buckets

What a tree holds, as a list. A tree keeps its items (`Keeps`) when it is a search tree by hash and
every item lies in the bucket of its own hash: the items with a hash are then those in one bucket
(`bucket_eq_filter`), and putting others in their place touches no other (`toList_put`).
-/

namespace DynVal.Buckets

variable {α : Type} {f : α → UInt64} {t : Buckets α} {h k : UInt64} {ys : List α} {x : α}

theorem onto_eq (t : Buckets α) (ys : List α) : t.onto ys = t.toList ++ ys := by
  induction t generalizing ys with
  | empty => rfl
  | node h xs below above ihb iha =>
    simp only [toList, onto]
    rw [ihb, iha, ihb (xs ++ above.onto [])]
    simp [toList]

theorem toList_node (h : UInt64) (xs : List α) (below above : Buckets α) :
    (node h xs below above).toList = below.toList ++ (xs ++ above.toList) := by
  simp only [toList, onto]
  rw [onto_eq below, toList]

theorem mem_of_mem_bucket {t : Buckets α} {h : UInt64} {x : α} (hx : x ∈ t.bucket h) :
    x ∈ t.toList := by
  induction t with
  | empty => exact hx
  | node k xs below above ihb iha =>
    rw [toList_node]
    simp only [bucket] at hx
    split at hx
    · simp [ihb hx]
    split at hx
    · simp [iha hx]
    · simp [hx]

theorem mem_put {t : Buckets α} {h : UInt64} {ys : List α} {x : α}
    (hx : x ∈ (t.put h ys).toList) : x ∈ ys ∨ x ∈ t.toList := by
  induction t with
  | empty => simpa [put, toList_node, toList, onto] using hx
  | node k xs below above ihb iha =>
    simp only [put] at hx
    split at hx
    · rw [toList_node] at hx ⊢
      rcases List.mem_append.mp hx with hx | hx
      · rcases ihb hx with hx | hx
        · exact .inl hx
        · exact .inr (by simp [hx])
      · exact .inr (List.mem_append_right _ hx)
    split at hx
    · rw [toList_node] at hx ⊢
      simp only [List.mem_append] at hx ⊢
      rcases hx with hx | hx | hx
      · exact .inr (.inl hx)
      · exact .inr (.inr (.inl hx))
      · rcases iha hx with hx | hx
        · exact .inl hx
        · exact .inr (.inr (.inr hx))
    · rw [toList_node] at hx ⊢
      simp only [List.mem_append] at hx ⊢
      rcases hx with hx | hx | hx
      · exact .inr (.inl hx)
      · exact .inl hx
      · exact .inr (.inr (.inr hx))

/-! ## Search trees -/

/-- All hashes in use satisfy `p`. -/
def Within (p : UInt64 → Prop) : Buckets α → Prop
  | .empty => True
  | .node h _ below above => p h ∧ below.Within p ∧ above.Within p

/-- A search tree in which every item lies under its hash. -/
def Keeps (f : α → UInt64) : Buckets α → Prop
  | .empty => True
  | .node h xs below above =>
    (∀ x ∈ xs, f x = h) ∧ (below.Within (· < h) ∧ below.Keeps f) ∧
      above.Within (h < ·) ∧ above.Keeps f

theorem within_put {p : UInt64 → Prop} (ht : t.Within p) (hp : p h) (ys : List α) :
    (t.put h ys).Within p := by
  induction t with
  | empty => exact ⟨hp, trivial, trivial⟩
  | node k xs below above ihb iha =>
    obtain ⟨hk, hb, ha⟩ := ht
    simp only [put]
    split
    · exact ⟨hk, ihb hb, ha⟩
    split
    · exact ⟨hk, hb, iha ha⟩
    · exact ⟨hk, hb, ha⟩

theorem Keeps.within {p : UInt64 → Prop} (ht : t.Keeps f) (hp : t.Within p) :
    ∀ x ∈ t.toList, p (f x) := by
  induction t with
  | empty => exact fun x hx => by cases hx
  | node k xs below above ihb iha =>
    obtain ⟨hxs, ⟨-, hb⟩, -, ha⟩ := ht
    intro x hx
    rw [toList_node, List.mem_append, List.mem_append] at hx
    rcases hx with hx | hx | hx
    · exact ihb hb hp.2.1 x hx
    · rw [hxs x hx]
      exact hp.1
    · exact iha ha hp.2.2 x hx

theorem keeps_put (ht : t.Keeps f) (hys : ∀ y ∈ ys, f y = h) : (t.put h ys).Keeps f := by
  induction t with
  | empty => exact ⟨hys, ⟨trivial, trivial⟩, trivial, trivial⟩
  | node k xs below above ihb iha =>
    obtain ⟨hxs, ⟨hbk, hb⟩, hak, ha⟩ := ht
    simp only [put]
    split
    · exact ⟨hxs, ⟨within_put hbk ‹_› ys, ihb hb⟩, hak, ha⟩
    split
    · exact ⟨hxs, ⟨hbk, hb⟩, within_put hak ‹_› ys, iha ha⟩
    · rename_i hlt hgt
      obtain rfl : h = k := UInt64.le_antisymm (UInt64.not_lt.mp hgt) (UInt64.not_lt.mp hlt)
      exact ⟨hys, ⟨hbk, hb⟩, hak, ha⟩

/-- On either side of a node no item has a hash from the other side. -/
theorem Keeps.filter_eq_nil {p : UInt64 → Prop} (ht : t.Keeps f) (hp : t.Within p) (hh : ¬p h) :
    t.toList.filter (f · == h) = [] := by
  refine List.filter_eq_nil_iff.mpr fun x hx => ?_
  rw [beq_iff_eq]
  rintro rfl
  exact hh (ht.within hp x hx)

theorem Keeps.filter_eq_self {p : UInt64 → Prop} (ht : t.Keeps f) (hp : t.Within p) (hh : ¬p h) :
    t.toList.filter (f · != h) = t.toList := by
  refine List.filter_eq_self.mpr fun x hx => ?_
  rw [bne_iff_ne]
  rintro rfl
  exact hh (ht.within hp x hx)

theorem bucket_eq_filter (ht : t.Keeps f) (h : UInt64) :
    t.bucket h = t.toList.filter (f · == h) := by
  induction t with
  | empty => rfl
  | node k xs below above ihb iha =>
    obtain ⟨hxs, ⟨hbk, hb⟩, hak, ha⟩ := ht
    have hitems (hne : k ≠ h) : xs.filter (f · == h) = [] :=
      List.filter_eq_nil_iff.mpr fun x hx => by simpa [hxs x hx] using hne
    rw [toList_node, List.filter_append, List.filter_append]
    simp only [bucket]
    split
    · rename_i hlt
      rw [ihb hb, hitems (UInt64.ne_of_lt hlt).symm,
        ha.filter_eq_nil hak (UInt64.lt_asymm hlt)]
      simp
    split
    · rename_i hgt
      rw [iha ha, hitems (UInt64.ne_of_lt hgt), hb.filter_eq_nil hbk (UInt64.lt_asymm hgt)]
      simp
    · rename_i hlt hgt
      obtain rfl : h = k := UInt64.le_antisymm (UInt64.not_lt.mp hgt) (UInt64.not_lt.mp hlt)
      rw [hb.filter_eq_nil hbk (UInt64.lt_irrefl h), ha.filter_eq_nil hak (UInt64.lt_irrefl h),
        List.filter_eq_self.mpr fun x hx => by simp [hxs x hx]]
      simp

theorem toList_put (ht : t.Keeps f) (h : UInt64) (ys : List α) :
    (t.put h ys).toList.Perm (ys ++ t.toList.filter (f · != h)) := by
  induction t with
  | empty => simp [put, toList, onto]
  | node k xs below above ihb iha =>
    obtain ⟨hxs, ⟨hbk, hb⟩, hak, ha⟩ := ht
    have hitems (hne : k ≠ h) : xs.filter (f · != h) = xs :=
      List.filter_eq_self.mpr fun x hx => by simpa [hxs x hx] using hne
    rw [toList_node, List.filter_append, List.filter_append]
    simp only [put]
    split
    · rename_i hlt
      rw [toList_node, hitems (UInt64.ne_of_lt hlt).symm,
        ha.filter_eq_self hak (UInt64.lt_asymm hlt), ← List.append_assoc ys]
      exact (ihb hb).append_right _
    split
    · rename_i hgt
      rw [toList_node, hitems (UInt64.ne_of_lt hgt),
        hb.filter_eq_self hbk (UInt64.lt_asymm hgt)]
      refine (((iha ha).append_left xs).append_left below.toList).trans ?_
      simp only [← List.append_assoc]
      exact (List.perm_append_comm.trans (by simp)).append_right _
    · rename_i hlt hgt
      obtain rfl : h = k := UInt64.le_antisymm (UInt64.not_lt.mp hgt) (UInt64.not_lt.mp hlt)
      rw [toList_node, hb.filter_eq_self hbk (UInt64.lt_irrefl h),
        ha.filter_eq_self hak (UInt64.lt_irrefl h),
        List.filter_eq_nil_iff.mpr fun x hx => by simp [hxs x hx], List.nil_append]
      exact List.perm_append_comm_assoc ..

end DynVal.Buckets
