import DynVal.Proofs.Store.Coherence

/-!
# The order is a total preorder

Functions are ordered by numbers, and they get these when they are first compared. So what is said
of the order in one state is said of values in which all functions have theirs. In the course of a
history numbers are given but never changed, and all comparisons are answered by one total preorder.

* `Value.preordered`: the order under given numbers is a total preorder.
* `Store.At.order_eq_plain`: in a store it is the order under any ranking with the numbers given.
* `order_total_preorder`: the laws for comparisons in one state and in one history.
-/

namespace DynVal

open Std Memo

/-- The laws of a total preorder, for three values. -/
structure Preordered (order : Value → Value → Ordering) (a b c : Value) : Prop where
  refl : order a a = .eq
  swap : order b a = (order a b).swap
  trans : order a b ≠ .gt → order b c ≠ .gt →
    order a c ≠ .gt ∧ (order a c = .eq → order a b = .eq ∧ order b c = .eq)

theorem Value.preordered (rank : Fn → Nat) (a b c : Value) : Preordered (order rank) a b c where
  refl := ReflCmp.compare_self
  swap := OrientedCmp.eq_swap
  trans hab hbc := by
    have hab' := Ordering.isLE_iff_ne_gt.mpr hab
    have hbc' := Ordering.isLE_iff_ne_gt.mpr hbc
    refine ⟨Ordering.isLE_iff_ne_gt.mp (TransCmp.isLE_trans hab' hbc'), fun hac => ⟨?_, ?_⟩⟩
    · -- a strict step would make the whole strict
      by_contra hne
      have hlt : order rank a b = .lt := by
        cases h : order rank a b with
        | lt => rfl
        | eq => exact absurd h hne
        | gt => exact absurd h hab
      have := TransCmp.lt_of_lt_of_isLE hlt hbc'
      rw [hac] at this
      cases this
    · by_contra hne
      have hlt : order rank b c = .lt := by
        cases h : order rank b c with
        | lt => rfl
        | eq => exact absurd h hne
        | gt => exact absurd h hbc
      have := TransCmp.lt_of_isLE_of_lt hab' hlt
      rw [hac] at this
      cases this

/-- All functions that the value shows have their numbers. -/
def Store.Numbered (s : Store) (v : Value) : Prop :=
  v.Throughout s.shown fun p => ∀ f, p = .fn f → (s.memo.numbering.number? f).isSome

section Numbered

variable {s : Store} {g : Stage} {ρ ρ' : Ranking} {a b v : Value}

/-- Rankings with the numbers given so far do not differ on what has its numbers. -/
theorem Store.Numbered.sameRank (hs : s.At g) (hv : v.Sound g) (hn : s.Numbered v)
    (hρ : g.numbering.Admits ρ) (hρ' : g.numbering.Admits ρ') :
    v.Throughout (Value.entriesUnder ρ'.rank) (Value.SameRank ρ ρ') := by
  refine ((hs.throughout_shown_iff hv hρ').mp hn).mono fun p hp f hf => ?_
  obtain ⟨k, hk⟩ := Option.isSome_iff_exists.mp (hp f hf)
  rw [← hs.numbering] at hk
  rw [hρ f k hk, hρ' f k hk]

theorem Store.At.order_eq_plain (hs : s.At g) (ha : a.Sound g) (hb : b.Sound g)
    (hna : s.Numbered a) (hnb : s.Numbered b) (hρ : g.numbering.Admits ρ) :
    s.order a b = Value.order ρ.rank a b := by
  have hext : g.numbering.Extends s.memo.numbering := hs.numbering ▸ .refl _
  obtain ⟨hs', he, hq⟩ := gives_compare ha hb s.memo hs.memo hext
  obtain ⟨ρ', hρ'⟩ := hs'.numbering.exists_admitted
  have hadm := (hext.trans he).admits hρ'
  rw [Store.order, (hq ρ' hρ').2]
  exact Value.order_congr (ha.wellFormed hadm) (ha.wellFormed hρ) (hb.wellFormed hadm)
    (hb.wellFormed hρ) (hna.sameRank hs ha hadm hρ) (hnb.sameRank hs hb hadm hρ)

end Numbered

/-- Comparisons are answered as by a total preorder: in one state, once all functions have their
numbers, and all through a history, in which they may get them. -/
theorem order_total_preorder {host : Host} {s : Store} {log : Log} (h : History host s log)
    {a b c : Value} (ha : Held log a) (hb : Held log b) (hc : Held log c) :
    (Request.perform (.compare a b) s).1 = .ok (.order (s.order a b)) ∧
    (s.Numbered a → s.Numbered b → s.Numbered c → Preordered s.order a b c) ∧
    ∃ order : Value → Value → Ordering, (∀ x y z, Preordered order x y z) ∧
      ∀ x y o, (.compare x y, .ok (.order o)) ∈ log → o = order x y := by
  obtain ⟨g, hs, hk⟩ := h.exists_stage
  obtain ⟨ρ, hρ⟩ := hs.exists_admitted
  refine ⟨rfl, fun hna hnb hnc => ?_, Value.order ρ.rank, Value.preordered ρ.rank,
    fun x y o ho => ?_⟩
  · have heq {x y : Value} (hx : Held log x) (hy : Held log y) (hnx : s.Numbered x)
        (hny : s.Numbered y) : s.order x y = Value.order ρ.rank x y :=
      hs.order_eq_plain (hk.held hx) (hk.held hy) hnx hny hρ
    have hlaws := Value.preordered ρ.rank a b c
    refine ⟨?_, ?_, ?_⟩
    · rw [heq ha ha hna hna]
      exact hlaws.refl
    · rw [heq hb ha hnb hna, heq ha hb hna hnb]
      exact hlaws.swap
    · rw [heq ha hb hna hnb, heq hb hc hnb hnc, heq ha hc hna hnc]
      exact hlaws.trans
  · cases hk.means _ _ ho ρ hρ
    rfl

/-- NaN, quoted code and a function that has its number. -/
theorem order_total_preorder_scalars :
    let f : Fn := ⟨0, "f"⟩
    let a : Value := .number .nan
    let b : Value := .quote (.leaf "x")
    let c : Value := .fn f
    ∃ s, History default s [(.number f, .ok (.count 1))] ∧ s.Numbered c ∧
      Preordered s.order a b c ∧ s.order a b = .lt ∧ s.order b c = .lt := by
  intro f a b c
  have hasked : History default _ [(.number f, .ok (.count 1))] :=
    History.start.ask (.number f) (by simp [Request.operands])
  have hnumbered (v : Value) (hv : v = a ∨ v = b ∨ v = c) :
      Store.Numbered (Request.perform (.number f) (.initial default)).2 v := by
    rcases hv with rfl | rfl | rfl
    · exact .intro (by simp [a]) fun p hp => absurd hp List.not_mem_nil
    · exact .intro (by simp [b]) fun p hp => absurd hp List.not_mem_nil
    · refine .intro (fun g hg => ?_) fun p hp => absurd hp List.not_mem_nil
      obtain rfl : f = g := by simpa [c] using hg
      rfl
  refine ⟨_, hasked, hnumbered c (by simp), ?_, rfl, rfl⟩
  exact (order_total_preorder hasked (.scalar (v := a) rfl) (.scalar (v := b) rfl)
    (.scalar (v := c) rfl)).2.1 (hnumbered a (by simp)) (hnumbered b (by simp))
    (hnumbered c (by simp))

end DynVal
