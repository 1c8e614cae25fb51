import DynVal.Proofs.Order.Leaves
import DynVal.Proofs.Sorting.Sorted
import DynVal.Value.Relations

/-!
# The order of values is total

Without effects, values are compared by kind first and then by what values of one kind hold, each
kind in its own way (`compareBy_list`, `compareBy_map` and so on). Where the parts are totally
preordered, so are the wholes (`transCmp_compareBy`), and by induction on the bound on their depth
all values are (`transCmp_compare`). Nothing is asked of the values: a map that repeats a key is
ordered like any other.
-/

namespace DynVal

open Std

theorem transCmp_on {α β : Type} (f : α → β) (cmp : β → β → Ordering) [TransCmp cmp] :
    TransCmp fun a b => cmp (f a) (f b) where
  eq_swap {_ _} := @OrientedCmp.eq_swap _ cmp _ _ _
  isLE_trans {_ _ _} := @TransCmp.isLE_trans _ cmp _ _ _ _

/-- The entries of a map when its layers are combined by given relations. -/
def Map.storage (rel : Relations Id) (x : Map Value) : Storage Value Value :=
  Id.run (x.resolved rel.keyed)

namespace Value

/-- Entries in the order of their keys, and of their values where keys are equal. -/
def entryOrder (cmp : Value → Value → Ordering) (a b : Value × Value) : Ordering :=
  (cmp a.1 b.1).then (cmp a.2 b.2)

instance {cmp : Value → Value → Ordering} [TransCmp cmp] : TransCmp (entryOrder cmp) :=
  have := transCmp_on (Prod.fst (α := Value) (β := Value)) cmp
  have := transCmp_on (Prod.snd (α := Value) (β := Value)) cmp
  inferInstanceAs (TransCmp (compareLex (fun a b : Value × Value => cmp a.1 b.1)
    fun a b : Value × Value => cmp a.2 b.2))

theorem compareEntries_id (cmp : Value → Value → Ordering) :
    compareEntries (m := Id) cmp = entryOrder cmp := by
  funext a b
  exact thenM_id _ _

section Kinds

variable (rank : Fn → Nat) (rel : Relations Id)

theorem storageOf_ofRank (x : MapNode) :
    (Memory.ofRank (m := Id) rank).storageOf rel.keyed x = x.body.storage rel := by
  unfold Memory.storageOf Map.storage
  split
  · rename_i h
    rw [h]
    rfl
  · rfl

theorem compareBy_tuple (x y : TupleNode) :
    compareBy (.ofRank rank) rel (.tuple x) (.tuple y) =
      List.compareLex rel.compare x.body.items y.body.items := by
  simp only [compareBy, thenM_id, lexM_id]
  exact (List.compareLex_cons_cons).symm

theorem compareBy_recur (x y : RecurNode) :
    compareBy (.ofRank rank) rel (.recur x) (.recur y) =
      List.compareLex rel.compare x.body y.body := lexM_id _ _ _

theorem compareBy_list [TransCmp rel.compare] (x y : ListNode) :
    compareBy (.ofRank rank) rel (.list x) (.list y) =
      List.compareLex rel.compare x.body.shown.toList y.body.shown.toList := by
  simp only [compareBy]
  split
  · rename_i h
    obtain rfl : x = y := by simpa using isSame_iff.mp h
    exact (ReflCmp.compare_self).symm
  · exact lexM_id _ _ _

/-- Sorted contents in sequence, after the numbers of elements. -/
def contentOrder {α : Type} (cmp : α → α → Ordering) (xs ys : List α) : Ordering :=
  (compare xs.length ys.length).then
    (List.compareLex cmp (sorted .eight cmp xs) (sorted .eight cmp ys))

instance {α : Type} {cmp : α → α → Ordering} [TransCmp cmp] : TransCmp (contentOrder cmp) :=
  have := transCmp_on (sorted .eight cmp) (List.compareLex cmp)
  inferInstanceAs (TransCmp (compareLex (compareOn List.length)
    fun xs ys => List.compareLex cmp (sorted .eight cmp xs) (sorted .eight cmp ys)))

theorem compareBy_set (x y : SetNode) :
    compareBy (.ofRank rank) rel (.set x) (.set y) =
      contentOrder rel.compare x.body.elements y.body.elements := by
  have hsize (s : SetNode) : s.body.size = s.body.elements.length := (List.length_map ..).symm
  simp only [compareBy, thenM_id, lexM_id, contentOrder, bind, pure, hsize]
  rfl

theorem compareBy_map [TransCmp rel.compare] (x y : MapNode) :
    compareBy (.ofRank rank) rel (.map x) (.map y) =
      contentOrder (entryOrder rel.compare) (x.body.storage rel).entries
        (y.body.storage rel).entries := by
  simp only [compareBy]
  split
  · rename_i h
    obtain rfl : x = y := by simpa using isSame_iff.mp h
    exact (ReflCmp.compare_self).symm
  · simp only [storageOf_ofRank, thenM_id, lexM_id, compareEntries_id, contentOrder, bind, pure]
    rfl

/-- By name, then by the names of the fields, then by their values. -/
def recordOrder (cmp : Value → Value → Ordering) (r s : Record Value) : Ordering :=
  (r.name.compare s.name).then
    ((List.compareLex Tag.compare r.names s.names).then (List.compareLex cmp r.values s.values))

instance {cmp : Value → Value → Ordering} [TransCmp cmp] : TransCmp (recordOrder cmp) :=
  have := transCmp_on (Record.name (ν := Value)) Tag.compare
  have := transCmp_on (Record.names (ν := Value)) (List.compareLex Tag.compare)
  have := transCmp_on (Record.values (ν := Value)) (List.compareLex cmp)
  inferInstanceAs (TransCmp (compareLex (fun r s : Record Value => r.name.compare s.name)
    (compareLex (fun r s => List.compareLex Tag.compare r.names s.names)
      fun r s => List.compareLex cmp r.values s.values)))

theorem compareBy_record (x y : RecordNode) :
    compareBy (.ofRank rank) rel (.record x) (.record y) =
      recordOrder rel.compare x.body y.body := by
  simp only [compareBy, thenM_id, lexM_id, lexBy, recordOrder, Id.run, pure]

theorem compareBy_fn (f g : Fn) :
    compareBy (.ofRank rank) rel (.fn f) (.fn g) = compare (rank f) (rank g) := rfl

/-- Values of two kinds are ordered as their kinds are. -/
theorem compareBy_of_kind_ne {a b : Value} (h : a.kind ≠ b.kind) :
    compareBy (.ofRank rank) rel a b = compare a.kind.rank b.kind.rank := by
  cases a <;> cases b <;> first | rfl | exact absurd rfl h

end Kinds

theorem rank_injective : Function.Injective Kind.rank := by
  intro k l h
  cases k <;> cases l <;> first | rfl | cases h

/-- Among the values of one kind the comparison is a total preorder. -/
structure OrdersKind (cmp : Value → Value → Ordering) (k : Kind) : Prop where
  eq_swap : ∀ a b : Value, a.kind = k → b.kind = k → cmp a b = (cmp b a).swap
  isLE_trans : ∀ a b c : Value, a.kind = k → b.kind = k → c.kind = k →
    (cmp a b).isLE → (cmp b c).isLE → (cmp a c).isLE

/-- By kind first, and among the values of each kind by a total preorder. -/
theorem transCmp_of_kinds {cmp : Value → Value → Ordering}
    (hne : ∀ {a b : Value}, a.kind ≠ b.kind → cmp a b = compare a.kind.rank b.kind.rank)
    (hkind : ∀ k : Kind, OrdersKind cmp k) : TransCmp cmp where
  eq_swap {a b} := by
    by_cases h : a.kind = b.kind
    · exact (hkind b.kind).eq_swap a b h rfl
    · rw [hne h, hne (Ne.symm h)]
      exact OrientedOrd.eq_swap
  isLE_trans {a b c} hab hbc := by
    by_cases h : a.kind = b.kind
    · by_cases h' : b.kind = c.kind
      · exact (hkind c.kind).isLE_trans a b c (h.trans h') h' rfl hab hbc
      · rw [hne h'] at hbc
        rw [hne (h ▸ h'), h]
        exact hbc
    · rw [hne h] at hab
      have hlt : a.kind.rank < b.kind.rank := by
        have hne' : a.kind.rank ≠ b.kind.rank := fun hr => h (rank_injective hr)
        have := Nat.isLE_compare.mp hab
        omega
      have hle : b.kind.rank ≤ c.kind.rank := by
        by_cases h' : b.kind = c.kind
        · rw [h']
        · rw [hne h'] at hbc
          exact Nat.isLE_compare.mp hbc
      have hac : a.kind ≠ c.kind := fun hk => by rw [hk] at hlt; omega
      rw [hne hac]
      exact Nat.isLE_compare.mpr (by omega)

/-- The values of one kind are compared by what they hold. -/
theorem ordersKind_of_hold {cmp : Value → Value → Ordering} {k : Kind} {β γ : Type}
    {make : β → Value} (hmake : ∀ a : Value, a.kind = k → ∃ x, make x = a) (hold : β → γ)
    (order : γ → γ → Ordering) [TransCmp order]
    (h : ∀ x y, cmp (make x) (make y) = order (hold x) (hold y)) : OrdersKind cmp k where
  eq_swap a b ha hb := by
    obtain ⟨x, rfl⟩ := hmake a ha
    obtain ⟨y, rfl⟩ := hmake b hb
    rw [h, h]
    exact OrientedCmp.eq_swap
  isLE_trans a b c ha hb hc := by
    obtain ⟨x, rfl⟩ := hmake a ha
    obtain ⟨y, rfl⟩ := hmake b hb
    obtain ⟨z, rfl⟩ := hmake c hc
    rw [h, h, h]
    exact TransCmp.isLE_trans

theorem transCmp_compareBy (rank : Fn → Nat) (rel : Relations Id) [TransCmp rel.compare] :
    TransCmp (compareBy (.ofRank rank) rel) := by
  refine transCmp_of_kinds (compareBy_of_kind_ne rank rel) fun k => ?_
  have hof {β γ : Type} (make : β → Value) (hold : β → γ) (order : γ → γ → Ordering)
      [TransCmp order] (hmake : ∀ a : Value, a.kind = k → ∃ x, make x = a)
      (h : ∀ x y, compareBy (.ofRank rank) rel (make x) (make y) = order (hold x) (hold y)) :
      OrdersKind (compareBy (.ofRank rank) rel) k := ordersKind_of_hold hmake hold order h
  cases k with
  | nil =>
    refine hof (fun _ : Unit => .nil) id compare (fun a ha => ?_) fun _ _ => rfl
    cases a <;> cases ha
    exact ⟨(), rfl⟩
  | bool =>
    refine hof .bool id compare
      (fun a ha => ?_) (fun _ _ => rfl)
    cases a <;> cases ha
    exact ⟨_, rfl⟩
  | number =>
    refine hof .number id Number.compare
      (fun a ha => ?_) (fun _ _ => rfl)
    cases a <;> cases ha
    exact ⟨_, rfl⟩
  | str =>
    refine hof .str id compare
      (fun a ha => ?_) (fun _ _ => rfl)
    cases a <;> cases ha
    exact ⟨_, rfl⟩
  | tag =>
    refine hof .tag id Tag.compare
      (fun a ha => ?_) (fun _ _ => rfl)
    cases a <;> cases ha
    exact ⟨_, rfl⟩
  | symbol =>
    refine hof .symbol id Symbol.compare
      (fun a ha => ?_) (fun _ _ => rfl)
    cases a <;> cases ha
    exact ⟨_, rfl⟩
  | quote =>
    refine hof .quote id Cirru.compare
      (fun a ha => ?_) (fun _ _ => rfl)
    cases a <;> cases ha
    exact ⟨_, rfl⟩
  | ref =>
    refine hof .ref Ref.path compare
      (fun a ha => ?_) (fun _ _ => rfl)
    cases a <;> cases ha
    exact ⟨_, rfl⟩
  | fn =>
    refine hof .fn rank compare
      (fun a ha => ?_) (fun _ _ => rfl)
    cases a <;> cases ha
    exact ⟨_, rfl⟩
  | recur =>
    refine hof .recur Shared.body (List.compareLex rel.compare)
      (fun a ha => ?_) (compareBy_recur rank rel)
    cases a <;> cases ha
    exact ⟨_, rfl⟩
  | list =>
    refine hof .list (fun x => x.body.shown.toList) (List.compareLex rel.compare)
      (fun a ha => ?_) (compareBy_list rank rel)
    cases a <;> cases ha
    exact ⟨_, rfl⟩
  | map =>
    refine hof .map (fun x => (x.body.storage rel).entries) (contentOrder (entryOrder rel.compare))
      (fun a ha => ?_) (compareBy_map rank rel)
    cases a <;> cases ha
    exact ⟨_, rfl⟩
  | set =>
    refine hof .set (fun x => x.body.elements) (contentOrder rel.compare)
      (fun a ha => ?_) (compareBy_set rank rel)
    cases a <;> cases ha
    exact ⟨_, rfl⟩
  | record =>
    refine hof .record Shared.body (recordOrder rel.compare)
      (fun a ha => ?_) (compareBy_record rank rel)
    cases a <;> cases ha
    exact ⟨_, rfl⟩
  | tuple =>
    refine hof .tuple (fun x => x.body.items) (List.compareLex rel.compare)
      (fun a ha => ?_) (compareBy_tuple rank rel)
    cases a <;> cases ha
    exact ⟨_, rfl⟩

theorem transCmp_compare (rank : Fn → Nat) (d : Nat) :
    TransCmp (relationsBelow (m := Id) (.ofRank rank) d).compare := by
  induction d with
  | zero => exact { eq_swap := rfl, isLE_trans := fun _ _ => rfl }
  | succ d ih => exact transCmp_compareBy rank _

instance (rank : Fn → Nat) (d : Nat) :
    TransCmp (relationsBelow (m := Id) (.ofRank rank) d).compare := transCmp_compare rank d

end Value
end DynVal
