import DynVal.Proofs.Tracking.Relations

/-!
# Plain relations

Equality, order and hash under given identity numbers are functions of values alone. The bound on
the depth down to which they are taken does not show, so each of them is given by all three on the
parts (`equal_def`, `order_def`, `digest_def`).

* `order rank` is a total preorder, and values that it does not tell apart have one digest.
-/

namespace DynVal

open Std

/-- Results without effects. -/
def Tracking.plain : Tracking Id Unit where
  holds Q c := Q (Id.run c) ()
  holds_pure h := h ()
  holds_bind hc hk := hk _ ⟨(), hc⟩ hc
  holds_mono hc h := h _ _ hc
  holds_exec {α β P Q ask before c} hc hask := by
    induction c with
    | done b => exact ⟨hc (), rfl⟩
    | ask x y next ih =>
      obtain ⟨hx, hy, hnext⟩ := hc ()
      have hanswer : ask x y = before () x y := hask x y hx hy
      show _ ∧ (Comparing.ask x y next).exec ask = _
      simp only [Comparing.exec, Comparing.eval, hanswer]
      exact ih _ fun _ => hnext

theorem Tracking.plain_keys {κ : Type} {P : κ → Prop} (keyed : Keyed Id κ) :
    Tracking.plain.Keys P keyed fun _ => keyed :=
  ⟨fun _ _ _ _ => ⟨trivial, rfl⟩, fun _ _ => ⟨trivial, rfl⟩⟩

namespace Value

/-- The relations under given identity numbers. -/
def relations (rank : Fn → Nat) : Relations Id := ⟨equal rank, order rank, digest rank⟩

variable (rank : Fn → Nat)

theorem remembers_ofRank {P W : Value → Prop} {rel rel' : Relations Id}
    (hr : Tracking.plain.Relates P rel fun _ => rel') :
    Tracking.plain.Remembers P W (.ofRank rank) (fun _ => rank) rel fun _ => rel' where
  number f := Tracking.plain.pure trivial
  storageOf x _ hx := by
    rw [storageOf_ofRank]
    exact Tracking.gives_resolved hr.keys hx
  hashOf _ _ _ _ _ h := h
  differ _ _ _ _ _ _ _ _ := nofun

/-- Where values are less deep than both bounds, the bounds do not matter. -/
theorem relates_below (d d' : Nat) :
    Tracking.plain.Relates (fun v => v.depth < d ∧ v.depth < d')
      (relationsBelow (.ofRank rank) d) fun _ => relationsBelow (.ofRank rank) d' := by
  induction d generalizing d' with
  | zero => exact ⟨fun _ _ hx => by omega, fun _ _ hx => by omega, fun _ hx => by omega⟩
  | succ d ih =>
    cases d' with
    | zero => exact ⟨fun _ _ hx => by omega, fun _ _ hx => by omega, fun _ hx => by omega⟩
    | succ d' =>
      have hm := remembers_ofRank rank (W := fun _ => True) (ih d')
      have hparts {v : Value} (hv : v.depth < d + 1 ∧ v.depth < d' + 1) :
          ∀ p ∈ v.parts, p.depth < d ∧ p.depth < d' := by
        intro p hp
        have := depth_lt_of_mem_parts hp
        omega
      exact ⟨fun _ _ hx hy => Tracking.gives_equalBy (ih d') hm trivial trivial
          (hparts hx) (hparts hy),
        fun _ _ hx hy => Tracking.gives_compareBy (ih d') hm (fun _ => inferInstance) trivial
          trivial (hparts hx) (hparts hy),
        fun _ hx => Tracking.gives_hashBy (ih d') hm (fun _ => inferInstance) trivial (hparts hx)⟩

/-- On values that are less deep than a bound, the relations are those below the bound. -/
theorem relates_relations (d : Nat) :
    Tracking.plain.Relates (fun v => v.depth < d) (relationsBelow (.ofRank rank) d)
      fun _ => relations rank where
  equal x y hx hy :=
    (relates_below rank d (max x.depth y.depth + 1)).equal x y ⟨hx, by omega⟩ ⟨hy, by omega⟩
  compare x y hx hy :=
    (relates_below rank d (max x.depth y.depth + 1)).compare x y ⟨hx, by omega⟩ ⟨hy, by omega⟩
  hash x hx := (relates_below rank d (x.depth + 1)).hash x ⟨hx, by omega⟩

/-! ## On values alone -/

variable {rank} {a b : Value} {d : Nat}

theorem order_eq (ha : a.depth < d) (hb : b.depth < d) :
    order rank a b = (relationsBelow (m := Id) (.ofRank rank) d).compare a b :=
  ((relates_relations rank d).compare a b ha hb).2.symm

theorem digest_eq (ha : a.depth < d) :
    digest rank a = (relationsBelow (m := Id) (.ofRank rank) d).hash a :=
  ((relates_relations rank d).hash a ha).2.symm

instance : TransCmp (order rank) where
  eq_swap {a b} := by
    rw [order_eq (d := max a.depth b.depth + 1) (by omega) (by omega),
      order_eq (d := max a.depth b.depth + 1) (by omega) (by omega)]
    exact OrientedCmp.eq_swap
  isLE_trans {a b c} hab hbc := by
    have hd : a.depth < max a.depth (max b.depth c.depth) + 1 ∧
        b.depth < max a.depth (max b.depth c.depth) + 1 ∧
        c.depth < max a.depth (max b.depth c.depth) + 1 := by omega
    rw [order_eq hd.1 hd.2.1] at hab
    rw [order_eq hd.2.1 hd.2.2] at hbc
    rw [order_eq hd.1 hd.2.2]
    exact TransCmp.isLE_trans hab hbc

instance : TransCmp (relations rank).compare := inferInstanceAs (TransCmp (order rank))

theorem digest_eq_of_order_eq (h : order rank a b = .eq) : digest rank a = digest rank b := by
  have hd : a.depth < max a.depth b.depth + 1 ∧ b.depth < max a.depth b.depth + 1 := by omega
  rw [order_eq hd.1 hd.2] at h
  rw [digest_eq hd.1, digest_eq hd.2]
  exact hash_eq_of_compare_eq rank _ a b h

/-! ## By the relations between parts -/

theorem parts_below {v : Value} {d : Nat} (h : v.depth ≤ d) : ∀ p ∈ v.parts, p.depth < d :=
  fun _ hp => Nat.lt_of_lt_of_le (depth_lt_of_mem_parts hp) h

theorem equal_def (rank : Fn → Nat) (a b : Value) :
    equal rank a b = equalBy (.ofRank rank) (relations rank) a b :=
  (Tracking.gives_equalBy (relates_relations rank (max a.depth b.depth))
    (remembers_ofRank rank (W := fun _ => True) (relates_relations rank _)) trivial trivial
    (parts_below (by omega)) (parts_below (by omega))).2

theorem order_def (rank : Fn → Nat) (a b : Value) :
    order rank a b = compareBy (.ofRank rank) (relations rank) a b :=
  (Tracking.gives_compareBy (relates_relations rank (max a.depth b.depth))
    (remembers_ofRank rank (W := fun _ => True) (relates_relations rank _))
    (fun _ => inferInstance) trivial trivial (parts_below (by omega)) (parts_below (by omega))).2

theorem digest_def (rank : Fn → Nat) (v : Value) :
    digest rank v = hashBy (.ofRank rank) (relations rank) v :=
  (Tracking.gives_hashBy (relates_relations rank v.depth)
    (remembers_ofRank rank (W := fun _ => True) (relates_relations rank _))
    (fun _ => inferInstance) trivial (parts_below (by omega))).2

end Value
end DynVal
