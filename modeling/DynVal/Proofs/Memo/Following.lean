import DynVal.Proofs.Memo.Stage

/-!
# The relations of a memo are the plain ones

Equality, order and hash that run in a memo draw numbers, remember hashes and keep combined layers.
On sound values they give what the plain relations give, under every ranking that has the numbers
drawn so far (`Memo.gives_equal`, `Memo.gives_compare`, `Memo.gives_hash`). In particular a hash
that is known never changes an answer.
-/

namespace DynVal

open Std

namespace Memo

/-- Statements about the answers of a memo that is valid, beyond some numbers, at the start: it
stays valid, and the answer is right for all rankings with the numbers that it has at the end. -/
def tracking (at? : Nat → Option Value) (ns : Numbering) : Tracking (StateM Memo) Ranking where
  holds Q c := ∀ s : Memo, s.Valid at? → ns.Extends s.numbering →
    (c s).2.Valid at? ∧ s.numbering.Extends (c s).2.numbering ∧
      ∀ ρ : Ranking, (c s).2.numbering.Admits ρ → Q (c s).1 ρ
  holds_pure h s hs _ := ⟨hs, .refl _, fun ρ _ => h ρ⟩
  holds_bind {α β Q R c k} hc hk s hs hns := by
    obtain ⟨hs₁, he₁, hq⟩ := hc s hs hns
    obtain ⟨ρ, hρ⟩ := hs₁.numbering.exists_admitted
    obtain ⟨hs₂, he₂, hr⟩ := hk (c s).1 ⟨ρ, hq ρ hρ⟩ (c s).2 hs₁ (hns.trans he₁)
    exact ⟨hs₂, he₁.trans he₂, fun ρ ha => hr ρ ha (hq ρ (he₂.admits ha))⟩
  holds_mono hc h s hs hns := by
    obtain ⟨hs', he, hq⟩ := hc s hs hns
    exact ⟨hs', he, fun ρ ha => h _ ρ (hq ρ ha)⟩
  holds_exec {α β P Q ask before c} hc hask s hs hns := by
    -- the questions are known to be asked for the rankings with the numbers at hand
    replace hc : ∀ ρ : Ranking, s.numbering.Admits ρ → c.Yields (before ρ) P Q := fun ρ _ => hc ρ
    induction c generalizing s with
    | done b =>
      obtain ⟨ρ, hρ⟩ := hs.numbering.exists_admitted
      exact ⟨hs, .refl _, fun _ _ => ⟨hc ρ hρ, rfl⟩⟩
    | ask x y next ih =>
      obtain ⟨ρ, hρ⟩ := hs.numbering.exists_admitted
      obtain ⟨hs₁, he₁, hb⟩ := hask x y (hc ρ hρ).1 (hc ρ hρ).2.1 s hs hns
      obtain ⟨hs₂, he₂, hq⟩ := ih (ask x y s).1 (ask x y s).2 hs₁ (hns.trans he₁)
        fun ρ ha => by rw [hb ρ ha]; exact (hc ρ (he₁.admits ha)).2.2
      refine ⟨hs₂, he₁.trans he₂, fun ρ ha => ?_⟩
      obtain ⟨hq, heval⟩ := hq ρ ha
      refine ⟨hq, ?_⟩
      rw [Comparing.eval, ← hb ρ (he₂.admits ha)]
      exact heval

variable {at? : Nat → Option Value} {ns : Numbering} {α : Type}

/-- What is stated may rest on the numbers that were drawn before. -/
theorem holds_admits {Q : α → Ranking → Prop} {c : StateM Memo α}
    (h : (tracking at? ns).holds (fun a ρ => ns.Admits ρ → Q a ρ) c) :
    (tracking at? ns).holds Q c := fun s hs hns => by
  obtain ⟨hs', he, hq⟩ := h s hs hns
  exact ⟨hs', he, fun ρ ha => hq ρ ha ((hns.trans he).admits ha)⟩

/-! ## What a memo knows -/

section

variable {g : Stage}

/-- Following what is done with values that are sound at a stage. -/
abbrev following (g : Stage) : Tracking (StateM Memo) Ranking := tracking g.at? g.numbering

theorem gives_draw (f : Fn) : (following g).givesAny (draw f) fun ρ => ρ.rank f := by
  intro s hs hns
  have he := Numbering.extends_draw s.numbering f
  refine ⟨⟨Numbering.valid_draw hs.numbering f, ?_, ?_⟩, he, fun ρ ha => ⟨trivial, ?_⟩⟩
  · intro n h hn
    obtain ⟨v, hv, hd⟩ := hs.hashes n h hn
    exact ⟨v, hv, fun ρ ha => hd ρ (he.admits ha)⟩
  · exact fun n x t hn ρ ha => hs.storages n x t hn ρ (he.admits ha)
  · exact (ha f _ (Numbering.number?_draw _ _)).symm

theorem hashOf_of_known {s : Memo} {node : Nat} {h : UInt64} (hk : s.hashes.get? node = some h)
    (c : StateM Memo UInt64) : memory.hashOf node c s = (h, s) := by
  have hknown : known node s = (some h, s) := congrArg (·, s) hk
  simp only [Memory.hashOf, memory, bind, StateT.bind, hknown]
  rfl

theorem hashOf_of_unknown {s : Memo} {node : Nat} (hk : s.hashes.get? node = none)
    (c : StateM Memo UInt64) :
    memory.hashOf node c s = ((c s).1, (learn node (c s).1 (c s).2).2) := by
  have hknown : known node s = (none, s) := congrArg (·, s) hk
  simp only [Memory.hashOf, memory, bind, StateT.bind, hknown]
  rfl

/-- A hash that was learnt is that of the value at the node. -/
theorem gives_hashOf {v : Value} {node : Nat} (hv : v.Sound g) (hn : v.level = node + 1)
    {c : StateM Memo UInt64}
    (hc : (following g).givesAny c fun ρ => Value.digest ρ.rank v) :
    (following g).givesAny (memory.hashOf node c) fun ρ => Value.digest ρ.rank v := by
  intro s hs hns
  cases hk : s.hashes.get? node with
  | some h =>
    rw [hashOf_of_known hk]
    refine ⟨hs, .refl _, fun ρ ha => ⟨trivial, ?_⟩⟩
    obtain ⟨w, hw, hd⟩ := hs.hashes node h hk
    obtain rfl : v = w := Option.some.inj ((hv.here.placed node hn).symm.trans hw)
    exact (hd ρ ha).symm
  | none =>
    obtain ⟨hs', he, hq⟩ := hc s hs hns
    rw [hashOf_of_unknown hk]
    refine ⟨⟨hs'.numbering, fun n h hput => ?_, hs'.storages⟩, he, hq⟩
    have hentry : ((c s).2.hashes.put node (c s).1).get? n = some h := hput
    rw [Ledger.get?_put] at hentry
    split at hentry
    · rename_i heq
      subst heq
      refine ⟨v, hv.here.placed node hn, fun ρ ha => ?_⟩
      rw [← Option.some.inj hentry]
      exact (hq ρ ha).2.symm
    · exact hs'.hashes n h hentry

theorem storageOf_chain (keyed : Keyed (StateM Memo) Value) {x : MapNode}
    (hx : x.body.isChain = true) (s : Memo) :
    memory.storageOf keyed x s = match (combined? x s).1 with
      | some t => (t, s)
      | none => ((x.body.resolved keyed s).1,
        (keep x (x.body.resolved keyed s).1 (x.body.resolved keyed s).2).2) := by
  have hbind {α β : Type} (c : StateM Memo α) (k : α → StateM Memo β) :
      (c >>= k) s = k (c s).1 (c s).2 := rfl
  have hsame : (combined? x s).2 = s := by
    unfold combined?
    split <;> rfl
  obtain ⟨node, body⟩ := x
  cases body with
  | flat t => cases hx
  | chain front skip back d =>
    simp only [Memory.storageOf, memory]
    rw [hbind, hsame]
    cases (combined? _ s).1 <;> rfl

/-- Layers that were combined before are combined as they would be now. -/
theorem gives_chainStorage {P : Value → Prop} {keyed : Keyed (StateM Memo) Value}
    (hk : (following g).Keys P keyed fun ρ => (Value.relations ρ.rank).keyed) {x : MapNode}
    (hx : x.body.All P) (hb : x.body.isChain = true) :
    (following g).gives (fun s => ∀ e ∈ s.entries, Tracking.Entry P P e)
      (memory.storageOf keyed x) fun ρ => x.body.storage (Value.relations ρ.rank) := by
  intro s hs hns
  rw [storageOf_chain keyed hb]
  cases hc : (combined? x s).1 with
  | some t =>
    have hkept : s.storages.get? x.node = some (x, t) := by
      unfold combined? at hc
      split at hc
      · rename_i y t' hy
        dsimp only at hc
        split at hc
        · rename_i hsame
          have hxy : x = y := by simpa using Value.isSame_iff.mp hsame
          cases hc
          rw [hxy] at hy ⊢
          exact hy
        · cases hc
      · cases hc
    have ht := hs.storages x.node x t hkept
    obtain ⟨ρ, hρ⟩ := hs.numbering.exists_admitted
    refine ⟨hs, .refl _, fun ρ' ha => ⟨?_, ht ρ' ha⟩⟩
    show ∀ e ∈ t.entries, Tracking.Entry P P e
    rw [ht ρ hρ]
    exact (Tracking.gives_resolved (T := Tracking.plain)
      (Tracking.plain_keys (Value.relations ρ.rank).keyed) hx).1
  | none =>
    obtain ⟨hs', he, hq⟩ := Tracking.gives_resolved hk hx s hs hns
    refine ⟨⟨hs'.numbering, hs'.hashes, fun n y t hput => ?_⟩, he, hq⟩
    have hentry : ((x.body.resolved keyed s).2.storages.put x.node
        (x, (x.body.resolved keyed s).1)).get? n = some (y, t) := hput
    rw [Ledger.get?_put] at hentry
    split at hentry
    · cases hentry
      exact fun ρ ha => (hq ρ ha).2
    · exact hs'.storages n y t hentry

theorem gives_storageOf {P : Value → Prop} {keyed : Keyed (StateM Memo) Value}
    (hk : (following g).Keys P keyed fun ρ => (Value.relations ρ.rank).keyed) {x : MapNode}
    (hx : x.body.All P) :
    (following g).gives (fun s => ∀ e ∈ s.entries, Tracking.Entry P P e)
      (memory.storageOf keyed x) fun ρ => x.body.storage (Value.relations ρ.rank) := by
  obtain ⟨node, s | ⟨front, skip, back, d⟩⟩ := x
  · exact Tracking.gives_resolved hk hx
  · exact gives_chainStorage hk hx rfl

/-- Where two known hashes differ, the values at the nodes are not equal. -/
theorem holds_differ {a b : Value} {j k : Nat} (ha : a.Sound g) (hb : b.Sound g)
    (hj : a.level = j + 1) (hk : b.level = k + 1) :
    (following g).holds (fun d ρ => d = true → Value.equal ρ.rank a b = false)
      (memory.differ j k) := by
  intro s hs hns
  have hrun : memory.differ j k s = ((s.hashes.get? j).elim false fun h =>
      (s.hashes.get? k).elim false fun h' => h != h', s) := by
    simp only [Memory.differ, memory, bind, StateT.bind, known]
    cases s.hashes.get? j with
    | none => rfl
    | some h => cases s.hashes.get? k <;> rfl
  rw [hrun]
  refine ⟨hs, .refl _, fun ρ hρ hd => ?_⟩
  have hdigest {v : Value} {n : Nat} {h : UInt64} (hv : v.Sound g) (hn : v.level = n + 1)
      (hh : s.hashes.get? n = some h) : Value.digest ρ.rank v = h := by
    obtain ⟨w, hw, hd⟩ := hs.hashes n h hh
    obtain rfl : v = w := Option.some.inj ((hv.here.placed n hn).symm.trans hw)
    exact hd ρ hρ
  by_contra hne
  have hequal : Value.equal ρ.rank a b = true := by simpa using hne
  have heq := Value.digest_eq_of_order_eq (Value.order_eq_of_equal
    (ha.wellFormed (hns.admits hρ)) (hb.wellFormed (hns.admits hρ)) hequal)
  cases hj' : s.hashes.get? j with
  | none => simp [hj'] at hd
  | some h =>
    cases hk' : s.hashes.get? k with
    | none => simp [hj', hk'] at hd
    | some h' =>
      simp only [hj', hk', Option.elim_some, bne_iff_ne] at hd
      exact hd ((hdigest ha hj hj').symm.trans (heq.trans (hdigest hb hk hk')))

/-! ## Relations -/

theorem remembers {P : Value → Prop} {rel : Relations (StateM Memo)}
    (hr : (following g).Relates P rel fun ρ => Value.relations ρ.rank) :
    (following g).Remembers P (Value.Sound g) memory (fun ρ => ρ.rank) rel
      fun ρ => Value.relations ρ.rank where
  number := gives_draw
  storageOf _ _ hx := gives_storageOf hr.keys hx
  hashOf v node hv hn c hc := by
    simp only [← Value.digest_def] at hc ⊢
    exact gives_hashOf hv hn hc
  differ a b j k ha hb hj hk := by
    simp only [← Value.equal_def]
    exact holds_differ ha hb hj hk

/-- Nodes are numbered beyond the nodes of their parts, so the level of a value bounds what is
looked at. -/
theorem relates_below (g : Stage) (d : Nat) :
    (following g).Relates (fun v => v.Sound g ∧ v.level < d) (relationsBelow memory d)
      fun ρ => Value.relations ρ.rank := by
  induction d with
  | zero => exact ⟨fun _ _ hx => by omega, fun _ _ hx => by omega, fun _ hx => by omega⟩
  | succ d ih =>
    have hm := remembers ih
    have hparts {v : Value} (hv : v.Sound g ∧ v.level < d + 1) :
        ∀ p ∈ v.parts, p.Sound g ∧ p.level < d := by
      intro p hp
      have := hv.1.here.levels p hp
      exact ⟨hv.1.parts p hp, by omega⟩
    refine ⟨fun x y hx hy => ?_, fun x y hx hy => ?_, fun x hx => ?_⟩
    · have := Tracking.gives_equalBy ih hm hx.1 hy.1 (hparts hx) (hparts hy)
      simp only [← Value.equal_def] at this
      exact this
    · have := Tracking.gives_compareBy ih hm (fun _ => inferInstance) hx.1 hy.1 (hparts hx)
        (hparts hy)
      simp only [← Value.order_def] at this
      exact this
    · have := Tracking.gives_hashBy ih hm (fun _ => inferInstance) hx.1 (hparts hx)
      simp only [← Value.digest_def] at this
      exact this

variable {a b v : Value}

theorem parts_below {d : Nat} (hv : v.Sound g) (hd : v.level ≤ d) :
    ∀ p ∈ v.parts, p.Sound g ∧ p.level < d :=
  fun p hp => ⟨hv.parts p hp, Nat.lt_of_lt_of_le (hv.here.levels p hp) hd⟩

theorem gives_equal (ha : a.Sound g) (hb : b.Sound g) :
    (following g).givesAny (equal a b) fun ρ => Value.equal ρ.rank a b := by
  have hr := relates_below g (max a.level b.level)
  have := Tracking.gives_equalBy hr (remembers hr) ha hb (parts_below ha (by omega))
    (parts_below hb (by omega))
  simp only [← Value.equal_def] at this
  exact this

theorem gives_compare (ha : a.Sound g) (hb : b.Sound g) :
    (following g).givesAny (compare a b) fun ρ => Value.order ρ.rank a b := by
  have hr := relates_below g (max a.level b.level)
  have := Tracking.gives_compareBy hr (remembers hr) (fun _ => inferInstance) ha hb
    (parts_below ha (by omega)) (parts_below hb (by omega))
  simp only [← Value.order_def] at this
  exact this

theorem gives_hash (hv : v.Sound g) :
    (following g).givesAny (hash v) fun ρ => Value.digest ρ.rank v := by
  have hr := relates_below g v.level
  have := Tracking.gives_hashBy hr (remembers hr) (fun _ => inferInstance) hv
    (parts_below hv (Nat.le_refl _))
  simp only [← Value.digest_def] at this
  exact this

theorem keys_keyed (g : Stage) :
    (following g).Keys (Value.Sound g) keyed fun ρ => (Value.relations ρ.rank).keyed :=
  ⟨fun _ _ => gives_equal, fun _ => gives_hash⟩

/-- Well-formed values as keys under a ranking. -/
noncomputable def keysUnder (ρ : Ranking) : Keyed Id Value :=
  (Value.relations ρ.rank).keyed.within (Value.WellFormed ρ)

theorem lawful_keysUnder (ρ : Ranking) : (keysUnder ρ).Lawful := Value.lawful_wellFormed ρ

theorem keys_under (g : Stage) : (following g).Keys (Value.Sound g) keyed keysUnder where
  same _ _ hx hy := holds_admits ((following g).holds_mono (gives_equal hx hy) fun _ ρ h ha =>
    ⟨trivial, h.2.trans (@Keyed.test_within_eq _ (Value.relations ρ.rank).keyed _ _ _
      (hx.wellFormed ha) (hy.wellFormed ha)).symm⟩)
  hash _ hx := gives_hash hx

end

end Memo
end DynVal
