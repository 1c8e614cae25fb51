import DynVal.Proofs.Memo.Following
import DynVal.Store

/-!
# Operations that keep values sound

A store is at a stage (`Store.At`) when its memo is valid there, its cells hold sound values and its
next node is a new one. An operation keeps this (`Op.Keeps`) when it leads to a later stage, and its
result, if it has one, is as stated at that stage; `Op.Yields` says that it has one.

* `keeps_bind`, `yields_bind`: what is done next starts from the stage that was reached.
* `yields_withMemo`: what is worked out in the memo is as the plain relations say.
* `yields_share`: a body whose parts are sound and which is stored in a lawful way makes a sound
  value.
-/

namespace DynVal

/-- The store is at a stage. -/
structure Store.At (s : Store) (g : Stage) : Prop where
  fresh : ∀ n, s.nodes ≤ n → g.at? n = none
  numbering : g.numbering = s.memo.numbering
  backings : g.backings = s.backings
  memo : s.memo.Valid g.at?
  cells : ∀ c ∈ s.cells.toList, c.content.Sound g

/-- Nothing known, and nothing drawn. -/
def Stage.initial : Stage := ⟨fun _ => none, .initial, #[]⟩

theorem Store.at_initial (host : Host) : (Store.initial host).At .initial where
  fresh _ _ := rfl
  numbering := rfl
  backings := rfl
  memo := Memo.valid_initial _
  cells c hc := by simp [Store.initial] at hc

/-- There is a ranking with the numbers drawn so far. -/
theorem Store.At.exists_admitted {s : Store} {g : Stage} (hs : s.At g) :
    ∃ ρ : Ranking, g.numbering.Admits ρ := by
  rw [hs.numbering]
  exact hs.memo.numbering.exists_admitted

namespace Op

variable {α β : Type} {g g' : Stage} {Q R : Stage → α → Prop}

/-- From a stage on, the operation leads to a later one, and its result is as stated. -/
def Keeps (g : Stage) (op : Op α) (Q : Stage → α → Prop) : Prop :=
  ∀ s : Store, s.At g → ∃ g', g.Extends g' ∧ Store.At (op s).2 g' ∧
    ∀ a, (op s).1 = Except.ok a → Q g' a

/-- The operation keeps values sound and has a result. -/
def Yields (g : Stage) (op : Op α) (Q : Stage → α → Prop) : Prop :=
  ∀ s : Store, s.At g → ∃ g' a, g.Extends g' ∧ Store.At (op s).2 g' ∧
    (op s).1 = Except.ok a ∧ Q g' a

theorem Yields.keeps {op : Op α} (h : Yields g op Q) : Keeps g op Q := by
  intro s hs
  obtain ⟨g', a, hg, hs', ha, hq⟩ := h s hs
  refine ⟨g', hg, hs', fun b hb => ?_⟩
  rw [ha] at hb
  cases hb
  exact hq

/-- There is one answer if one answer only will do. -/
theorem Yields.answer_eq {op : Op α} {s : Store} {a : α} (h : Yields g op fun _ b => b = a)
    (hs : s.At g) : (op s).1 = .ok a := by
  obtain ⟨g', b, -, -, hb, rfl⟩ := h s hs
  exact hb

theorem yields_pure {a : α} (h : Q g a) : Yields g (pure a) Q :=
  fun _ hs => ⟨g, a, .refl g, hs, rfl, h⟩

theorem keeps_throw (h : Halt) : Keeps g (throw h : Op α) Q :=
  fun _ hs => ⟨g, .refl g, hs, nofun⟩

theorem Keeps.mono {op : Op α} (h : Keeps g op Q) (hq : ∀ g' a, g.Extends g' → Q g' a → R g' a) :
    Keeps g op R := by
  intro s hs
  obtain ⟨g', hg, hs', hr⟩ := h s hs
  exact ⟨g', hg, hs', fun a ha => hq g' a hg (hr a ha)⟩

theorem Yields.mono {op : Op α} (h : Yields g op Q)
    (hq : ∀ g' a, g.Extends g' → Q g' a → R g' a) : Yields g op R := by
  intro s hs
  obtain ⟨g', a, hg, hs', ha, hr⟩ := h s hs
  exact ⟨g', a, hg, hs', ha, hq g' a hg hr⟩

/-- There is always a ranking with the numbers drawn so far. -/
theorem keeps_of_admitted {op : Op α} (h : ∀ ρ : Ranking, g.numbering.Admits ρ → Keeps g op Q) :
    Keeps g op Q := by
  intro s hs
  obtain ⟨ρ, hρ⟩ := hs.exists_admitted
  exact h ρ hρ s hs

theorem yields_of_admitted {op : Op α} (h : ∀ ρ : Ranking, g.numbering.Admits ρ → Yields g op Q) :
    Yields g op Q := by
  intro s hs
  obtain ⟨ρ, hρ⟩ := hs.exists_admitted
  exact h ρ hρ s hs

/-! ## One operation after another -/

section Bind

variable {op : Op α} {next : α → Op β} {R : Stage → β → Prop} {s : Store}

theorem bind_ok {a : α} (h : (op s).1 = Except.ok a) : (op >>= next) s = next a (op s).2 := by
  show ExceptT.bindCont next (op s).1 (op s).2 = _
  rw [h]
  rfl

theorem bind_error {e : Halt} (h : (op s).1 = Except.error e) :
    (op >>= next) s = (Except.error e, (op s).2) := by
  show ExceptT.bindCont next (op s).1 (op s).2 = _
  rw [h]
  rfl

theorem keeps_bind (h : Keeps g op Q)
    (hn : ∀ g' a, g.Extends g' → Q g' a → Keeps g' (next a) R) : Keeps g (op >>= next) R := by
  intro s hs
  obtain ⟨g₁, hg₁, hs₁, hq⟩ := h s hs
  cases hr : (op s).1 with
  | ok a =>
    rw [bind_ok hr]
    obtain ⟨g₂, hg₂, hs₂, hr₂⟩ := hn g₁ a hg₁ (hq a hr) (op s).2 hs₁
    exact ⟨g₂, hg₁.trans hg₂, hs₂, hr₂⟩
  | error e =>
    rw [bind_error hr]
    exact ⟨g₁, hg₁, hs₁, nofun⟩

theorem yields_bind (h : Yields g op Q)
    (hn : ∀ g' a, g.Extends g' → Q g' a → Yields g' (next a) R) : Yields g (op >>= next) R := by
  intro s hs
  obtain ⟨g₁, a, hg₁, hs₁, ha, hq⟩ := h s hs
  rw [bind_ok ha]
  obtain ⟨g₂, b, hg₂, hr₂⟩ := hn g₁ a hg₁ hq (op s).2 hs₁
  exact ⟨g₂, b, hg₁.trans hg₂, hr₂⟩

end Bind

theorem keeps_ofExcept {r : Except Error α} (h : ∀ a, r = .ok a → Q g a) :
    Keeps g (ofExcept r) Q := by
  cases r with
  | ok a => exact (yields_pure (h a rfl)).keeps
  | error e => exact keeps_throw _

/-- Reading the store leaves the stage as it is. -/
theorem keeps_get {next : Store → Op α} (h : ∀ s, s.At g → Keeps g (next s) Q) :
    Keeps g (get >>= next) Q := fun s hs => h s hs s hs

theorem yields_get {next : Store → Op α} (h : ∀ s, s.At g → Yields g (next s) Q) :
    Yields g (get >>= next) Q := fun s hs => h s hs s hs

theorem keeps_backings {next : Backings Value → Op α} (h : Keeps g (next g.backings) Q) :
    Keeps g (backings >>= next) Q := by
  intro s hs
  obtain ⟨g', hg, hs', hq⟩ := h s hs
  rw [hs.backings] at hs' hq
  exact ⟨g', hg, hs', hq⟩

/-! ## Steps on the store -/

/-- A step that touches neither nodes nor backings, memo or cells. -/
theorem yields_modifyGet {f : Store → α × Store} (hq : ∀ s, s.At g → Q g (f s).1)
    (h : ∀ s, s.At g → (f s).2.At g) : Yields g (modifyGet f) Q :=
  fun s hs => ⟨g, _, .refl g, h s hs, rfl, hq s hs⟩

theorem yields_withMemo {P : α → Ranking → Prop} {c : StateM Memo α}
    (h : (Memo.following g).holds P c) :
    Yields g (withMemo c) fun g' a => ∀ ρ : Ranking, g'.numbering.Admits ρ → P a ρ := by
  intro s hs
  obtain ⟨hm, he, hp⟩ := h s.memo hs.memo (hs.numbering ▸ .refl _)
  have hg : g.Extends ⟨g.at?, (c s.memo).2.numbering, g.backings⟩ :=
    ⟨fun _ _ hv => hv, hs.numbering ▸ he, .refl _⟩
  refine ⟨⟨g.at?, (c s.memo).2.numbering, g.backings⟩, _, hg,
    ⟨hs.fresh, rfl, hs.backings, hm, ?_⟩, rfl, hp⟩
  exact fun cell hcell => (hs.cells cell hcell).extends hg

/-- What is worked out in the memo is the plain result. -/
theorem yields_gives {P : α → Prop} {c : StateM Memo α} {f : Ranking → α}
    (h : (Memo.following g).gives P c f) :
    Yields g (withMemo c) fun g' a => P a ∧ ∀ ρ : Ranking, g'.numbering.Admits ρ → a = f ρ := by
  intro s hs
  obtain ⟨g', a, hg, hs', ha, hp⟩ := yields_withMemo h s hs
  obtain ⟨ρ, hρ⟩ := hs'.exists_admitted
  exact ⟨g', a, hg, hs', ha, (hp ρ hρ).1, fun ρ hρ => (hp ρ hρ).2⟩

/-- Backings that only grow. -/
theorem yields_withBackings {f : Backings Value → α × Backings Value}
    (h : Sequence.Grows g.backings (f g.backings).2) :
    Yields g (withBackings f) fun g' a =>
      a = (f g.backings).1 ∧ g'.backings = (f g.backings).2 := by
  intro s hs
  have hg : g.Extends ⟨g.at?, g.numbering, (f g.backings).2⟩ := ⟨fun _ _ hv => hv, .refl _, h⟩
  refine ⟨⟨g.at?, g.numbering, (f g.backings).2⟩, (f s.backings).1, hg,
    ⟨hs.fresh, hs.numbering, ?_, hs.memo, ?_⟩, rfl, ?_, rfl⟩
  · rw [hs.backings]
    rfl
  · exact fun cell hcell => (hs.cells cell hcell).extends hg
  · rw [hs.backings]

/-- A node of its own for a body. -/
theorem yields_share (wrap : Shared β → Value) {body : β}
    (hlevel : ∀ n, (wrap ⟨n, body⟩).level = n + 1)
    (hparts : ∀ n, ∀ p ∈ (wrap ⟨n, body⟩).parts, p.Sound g)
    (hformed : ∀ n, ∀ ρ : Ranking, g.numbering.Admits ρ → Value.Formed ρ.rank (wrap ⟨n, body⟩))
    (hshows : ∀ n l, wrap ⟨n, body⟩ = .list l →
      l.body.Shows g.backings l.body.shown.toList) :
    Yields g (share body) fun g' x => x.body = body ∧ (wrap x).Sound g' := by
  intro s hs
  let at? : Nat → Option Value := fun n =>
    if n = s.nodes then some (wrap ⟨s.nodes, body⟩) else g.at? n
  have hg : g.Extends ⟨at?, g.numbering, g.backings⟩ := by
    refine ⟨fun n v hv => ?_, .refl _, .refl _⟩
    have hne : n ≠ s.nodes := by
      rintro rfl
      rw [hs.fresh s.nodes (Nat.le_refl _)] at hv
      cases hv
    simp only [at?, if_neg hne]
    exact hv
  have hsound : (wrap ⟨s.nodes, body⟩).Sound ⟨at?, g.numbering, g.backings⟩ := by
    refine .intro ⟨fun n hn => ?_, fun p hp => ?_, hformed s.nodes, hshows s.nodes⟩
      fun p hp => (hparts s.nodes p hp).extends hg
    · rw [hlevel] at hn
      obtain rfl : n = s.nodes := by omega
      simp [at?]
    · -- a part has a node that is known already
      rw [hlevel]
      have hpart := hparts s.nodes p hp
      by_contra hle
      obtain ⟨k, hk⟩ : ∃ k, p.level = k + 1 := ⟨p.level - 1, by omega⟩
      have hplaced := hpart.here.placed k hk
      rw [hs.fresh k (by omega)] at hplaced
      cases hplaced
  refine ⟨⟨at?, g.numbering, g.backings⟩, _, hg,
    ⟨fun n hn => ?_, hs.numbering, hs.backings, ?_, ?_⟩, rfl, rfl, hsound⟩
  · have hn : s.nodes + 1 ≤ n := hn
    have hne : n ≠ s.nodes := by omega
    simp only [at?, if_neg hne]
    exact hs.fresh n (by omega)
  · refine ⟨hs.memo.numbering, fun n h hn => ?_, hs.memo.storages⟩
    obtain ⟨v, hv, hd⟩ := hs.memo.hashes n h hn
    exact ⟨v, hg.at? n v hv, hd⟩
  · exact fun cell hcell => (hs.cells cell hcell).extends hg

end Op
end DynVal
