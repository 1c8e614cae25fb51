import DynVal.Memo
import DynVal.Proofs.Lists.Contents
import DynVal.Proofs.Relations.Ranks

/-!
# Stages of a run

What values may rely on while others are made: which value a node belongs to, which identity numbers
were drawn, and what is in the backings of lists. All three are only ever added to
(`Stage.Extends`), so what is said of a value at one stage stays true at all later ones.

A value is sound (`Value.Sound`) when its node is its own, its parts were made before it, and it is
stored in a lawful way whatever numbers functions get that have none so far. A memo is valid
(`Memo.Valid`) when what it knows of nodes is what the plain relations say.
-/

namespace DynVal

/-! ## Numberings -/

namespace Numbering

variable {ns ns' ns'' : Numbering} {ρ : Ranking}

/-- Numbers are given in increasing order and only once. -/
structure Valid (ns : Numbering) : Prop where
  below : ∀ i k, ns.given.get? i = some k → k < ns.next
  once : ∀ i j k, ns.given.get? i = some k → ns.given.get? j = some k → i = j

/-- Whoever has a number keeps it. -/
def Extends (ns ns' : Numbering) : Prop :=
  ∀ i k, ns.given.get? i = some k → ns'.given.get? i = some k

/-- The ranking gives functions the numbers that they have. -/
def Admits (ns : Numbering) (ρ : Ranking) : Prop := ∀ f k, ns.number? f = some k → ρ.rank f = k

theorem Extends.refl (ns : Numbering) : ns.Extends ns := fun _ _ h => h

theorem Extends.trans (h : ns.Extends ns') (h' : ns'.Extends ns'') : ns.Extends ns'' :=
  fun i k hk => h' i k (h i k hk)

theorem Extends.admits (h : ns.Extends ns') (ha : ns'.Admits ρ) : ns.Admits ρ :=
  fun f k hk => ha f k (h f.id k hk)

theorem valid_initial : initial.Valid where
  below i k h := by simp [initial, Ledger.empty, Ledger.get?] at h
  once i j k h := by simp [initial, Ledger.empty, Ledger.get?] at h

/-- Functions without a number may be ranked behind all others. -/
theorem Valid.exists_admitted (h : ns.Valid) : ∃ ρ : Ranking, ns.Admits ρ := by
  let rank : Fn → Nat := fun f => (ns.number? f).getD (ns.next + f.id)
  have heq : ∀ f g : Fn, rank f = rank g ↔ f.id = g.id := by
    intro f g
    refine ⟨fun hr => ?_, fun hid => by simp only [rank, number?, hid]⟩
    simp only [rank, number?] at hr
    cases hf : ns.given.get? f.id with
    | none =>
      cases hg : ns.given.get? g.id with
      | none => simp only [hf, hg, Option.getD_none] at hr; omega
      | some l =>
        have := h.below _ _ hg
        simp only [hf, hg, Option.getD_none, Option.getD_some] at hr
        omega
    | some k =>
      cases hg : ns.given.get? g.id with
      | none =>
        have := h.below _ _ hf
        simp only [hf, hg, Option.getD_none, Option.getD_some] at hr
        omega
      | some l =>
        simp only [hf, hg, Option.getD_some] at hr
        exact h.once _ _ k hf (hr ▸ hg)
  refine ⟨⟨rank, heq⟩, fun f k hk => ?_⟩
  simp [rank, hk]

theorem extends_draw (ns : Numbering) (f : Fn) : ns.Extends (draw f ns).2 := by
  intro i k hk
  simp only [draw]
  split
  · exact hk
  · rename_i hnone
    have hne : f.id ≠ i := by
      rintro rfl
      rw [number?] at hnone
      rw [hnone] at hk
      cases hk
    simpa [Ledger.get?_put, hne] using hk

theorem valid_draw (h : ns.Valid) (f : Fn) : (draw f ns).2.Valid := by
  simp only [draw]
  split
  · exact h
  · have hcase {i k : Nat} (hk : (ns.given.put f.id ns.next).get? i = some k) :
        (f.id = i ∧ ns.next = k) ∨ (ns.given.get? i = some k ∧ k < ns.next) := by
      rw [Ledger.get?_put] at hk
      split at hk
      · exact .inl ⟨‹_›, by simpa using hk⟩
      · exact .inr ⟨hk, h.below _ _ hk⟩
    refine ⟨fun i k hk => ?_, fun i j k hi hj => ?_⟩
    · rcases hcase hk with ⟨-, rfl⟩ | ⟨-, hlt⟩
      · exact Nat.lt_succ_self _
      · exact Nat.lt_succ_of_lt hlt
    · rcases hcase hi with ⟨rfl, rfl⟩ | ⟨hi, hlt⟩
      · rcases hcase hj with ⟨rfl, -⟩ | ⟨-, hlt⟩
        · rfl
        · exact absurd hlt (Nat.lt_irrefl _)
      · rcases hcase hj with ⟨rfl, rfl⟩ | ⟨hj, -⟩
        · exact absurd hlt (Nat.lt_irrefl _)
        · exact h.once _ _ k hi hj

theorem number?_draw (ns : Numbering) (f : Fn) :
    (draw f ns).2.number? f = some (draw f ns).1 := by
  simp only [draw]
  split
  · assumption
  · simp [number?, Ledger.get?_put]

end Numbering

/-! ## Stages -/

/-- The values by the number of their node, the numbers drawn and the backings. -/
structure Stage where
  at? : Nat → Option Value
  numbering : Numbering
  backings : Backings Value

/-- Everything that was there is there still. -/
structure Stage.Extends (g g' : Stage) : Prop where
  at? : ∀ n v, g.at? n = some v → g'.at? n = some v
  numbering : g.numbering.Extends g'.numbering
  backings : Sequence.Grows g.backings g'.backings

namespace Stage

variable {g g' g'' : Stage}

theorem Extends.refl (g : Stage) : g.Extends g := ⟨fun _ _ h => h, .refl _, .refl _⟩

theorem Extends.trans (h : g.Extends g') (h' : g'.Extends g'') : g.Extends g'' :=
  ⟨fun n v hv => h'.at? n v (h.at? n v hv), h.numbering.trans h'.numbering,
    h.backings.trans h'.backings⟩

end Stage

namespace Value

variable {g g' : Stage} {v : Value} {ρ : Ranking}

/-- A value without regard to its parts: its node is its own, its parts were made before it, and it
is stored in a lawful way. -/
structure SoundHere (g : Stage) (v : Value) : Prop where
  placed : ∀ n, v.level = n + 1 → g.at? n = some v
  levels : ∀ p ∈ v.parts, p.level < v.level
  formed : ∀ ρ : Ranking, g.numbering.Admits ρ → Formed ρ.rank v
  shows : ∀ l : ListNode, v = .list l → l.body.Shows g.backings l.body.shown.toList

/-- Sound down to the last part. -/
def Sound (g : Stage) (v : Value) : Prop := v.Every (SoundHere g)

theorem Sound.parts (hv : v.Sound g) : ∀ p ∈ v.parts, p.Sound g := Every.parts hv

theorem Sound.extends (hv : v.Sound g) (h : g.Extends g') : v.Sound g' :=
  hv.mono fun _ hp => ⟨fun n hn => h.at? n _ (hp.placed n hn), hp.levels,
    fun ρ ha => hp.formed ρ (h.numbering.admits ha), fun l hl => (hp.shows l hl).grows h.backings⟩

theorem Sound.wellFormed (hv : v.Sound g) (ha : g.numbering.Admits ρ) : WellFormed ρ v :=
  hv.mono fun _ hp => hp.formed ρ ha

/-- A scalar is sound at any stage. -/
theorem sound_of_level_eq_zero (h : v.level = 0) : v.Sound g := by
  have hparts : v.parts = [] := by cases v <;> first | rfl | simp [level] at h
  refine .intro ⟨fun n hn => by omega, ?_, fun ρ _ => ?_, ?_⟩ ?_
  · rw [hparts]
    exact fun p hp => by cases hp
  · cases v <;> trivial
  · rintro l rfl
    simp [level] at h
  · rw [hparts]
    exact fun p hp => by cases hp

end Value

/-! ## Memos -/

/-- What is known of nodes at a stage is what the plain relations say. -/
structure Memo.Valid (at? : Nat → Option Value) (s : Memo) : Prop where
  numbering : s.numbering.Valid
  hashes : ∀ n h, s.hashes.get? n = some h → ∃ v, at? n = some v ∧
    ∀ ρ : Ranking, s.numbering.Admits ρ → Value.digest ρ.rank v = h
  storages : ∀ n x t, s.storages.get? n = some (x, t) →
    ∀ ρ : Ranking, s.numbering.Admits ρ → t = x.body.storage (Value.relations ρ.rank)

theorem Memo.valid_initial (at? : Nat → Option Value) : Memo.initial.Valid at? where
  numbering := Numbering.valid_initial
  hashes n h hn := by simp [initial, Ledger.empty, Ledger.get?] at hn
  storages n x t hn := by simp [initial, Ledger.empty, Ledger.get?] at hn

end DynVal
