import DynVal.Proofs.Store.History

/-!
# Equality, order and hash are coherent

In every history, values that were found equal are found equal by the order, and values that the
order does not tell apart have one hash. Where neither holds a NaN or a recur marker, equality and
the order agree. Which hashes were known when equality was asked for makes no difference.

* `Store.At.forgets`: a store in which less is known of nodes is as good.
* `Store.At.same_eq`: what equality answers is what it answers when no hash is ever known.
* `relations_coherent`: the laws between the answers in one history.
-/

namespace DynVal

open Memo

/-- What the first ledger knows the second knows too. -/
def Ledger.Within {α : Type} (l l' : Ledger α) : Prop :=
  ∀ i a, l.get? i = some a → l'.get? i = some a

/-! ## Less known of nodes -/

/-- The same store, with fewer hashes known and fewer layers combined. -/
inductive Store.Forgets (s : Store) : Store → Prop where
  | intro {hashes : Ledger UInt64} {storages : Ledger (MapNode × Storage Value Value)}
    (hashes_within : hashes.Within s.memo.hashes)
    (storages_within : storages.Within s.memo.storages) :
    s.Forgets { s with memo := { s.memo with hashes, storages } }

theorem Store.Forgets.refl (s : Store) : s.Forgets s :=
  @Store.Forgets.intro s s.memo.hashes s.memo.storages (fun _ _ h => h) fun _ _ h => h

theorem Store.At.forgets {s t : Store} {g : Stage} (hs : s.At g) (h : s.Forgets t) : t.At g := by
  obtain ⟨hh, hst⟩ := h
  refine ⟨hs.fresh, hs.numbering, hs.backings, ⟨hs.memo.numbering, fun n x hn => ?_,
    fun n x y hn => ?_⟩, hs.cells⟩
  · exact hs.memo.hashes n x (hh n x hn)
  · exact hs.memo.storages n x y (hst n (x, y) hn)

/-! ## The relations in a store -/

/-- Equality as it is answered in a store. -/
def Store.same (s : Store) (a b : Value) : Bool := (Memo.equal a b s.memo).1

/-- The order as it is answered in a store. -/
def Store.order (s : Store) (a b : Value) : Ordering := (Memo.compare a b s.memo).1

section Answers

variable {s : Store} {g : Stage} {ρ : Ranking} {a b : Value}

/-- Equality is the plain one, whatever is known of nodes. -/
theorem Store.At.same_eq (hs : s.At g) (ha : a.Sound g) (hb : b.Sound g)
    (hρ : g.numbering.Admits ρ) : s.same a b = Value.equal ρ.rank a b := by
  have hext : g.numbering.Extends s.memo.numbering := hs.numbering ▸ .refl _
  obtain ⟨hs', he, hq⟩ := gives_equal ha hb s.memo hs.memo hext
  obtain ⟨ρ', hρ'⟩ := hs'.numbering.exists_admitted
  have hadm := (hext.trans he).admits hρ'
  rw [Store.same, (hq ρ' hρ').2]
  exact Value.equal_eq (ha.wellFormed hadm) (ha.wellFormed hρ) (hb.wellFormed hadm)
    (hb.wellFormed hρ)

/-- Values that all rankings order in one way are ordered in that way in a store. -/
theorem Store.At.order_eq (hs : s.At g) (ha : a.Sound g) (hb : b.Sound g) {o : Ordering}
    (h : ∀ ρ : Ranking, g.numbering.Admits ρ → Value.order ρ.rank a b = o) :
    s.order a b = o := by
  obtain ⟨hs', he, hq⟩ := gives_compare ha hb s.memo hs.memo (hs.numbering ▸ .refl _)
  obtain ⟨ρ, hρ⟩ := hs'.numbering.exists_admitted
  rw [Store.order, (hq ρ hρ).2]
  refine h ρ ?_
  rw [hs.numbering]
  exact he.admits hρ

theorem Store.At.order_eq_of_same (hs : s.At g) (ha : a.Sound g) (hb : b.Sound g)
    (h : s.same a b = true) : s.order a b = .eq := by
  refine hs.order_eq ha hb fun ρ hρ => ?_
  rw [hs.same_eq ha hb hρ] at h
  exact Value.order_eq_of_equal (ha.wellFormed hρ) (hb.wellFormed hρ) h

end Answers

/-! ## What values show -/

/-- What a map shows in a store. -/
def Store.shown (s : Store) (x : MapNode) : List (Value × Value) := (Memo.entries x s.memo).1

section Shown

variable {s : Store} {g : Stage} {x : MapNode} {ρ : Ranking} {v : Value} {P : Value → Prop}

theorem Store.At.shown_perm (hs : s.At g) (hx : MapNode.Made g x) (hρ : g.numbering.Admits ρ) :
    (s.shown x).Perm (Value.entriesUnder ρ.rank x) := by
  obtain ⟨hs', he, hq⟩ := gives_entries (fun _ h => h) (MapNode.all_sound hx) s.memo hs.memo
    (hs.numbering ▸ .refl _)
  obtain ⟨ρ', hρ'⟩ := hs'.numbering.exists_admitted
  have hadm' : g.numbering.Admits ρ' := by
    rw [hs.numbering]
    exact he.admits hρ'
  rw [Store.shown, (hq ρ' hρ').2]
  exact Value.entriesUnder_perm (hx.wellFormed hadm') (hx.wellFormed hρ)

/-- Maps that are read in a store are read as under a ranking. -/
theorem Store.At.throughout_shown_iff (hs : s.At g) (hv : v.Sound g) (hρ : g.numbering.Admits ρ) :
    v.Throughout s.shown P ↔ v.Throughout (Value.entriesUnder ρ.rank) P := by
  have hperm (x : MapNode) (hx : Value.Sound g (.map x)) := hs.shown_perm hx hρ
  have hpart (v : Value) (hv : v.Sound g) (p : Value)
      (hp : p ∈ v.contents (Value.entriesUnder ρ.rank)) : p.Sound g :=
    hv.parts p (Value.contents_subset_parts hp)
  constructor
  · refine Value.Throughout.congr (fun v hv p hp => hpart v hv p ?_) hperm hv
    exact (Value.mem_contents_congr fun x hx => hperm x (hx ▸ hv)).mp hp
  · exact Value.Throughout.congr hpart (fun x hx => (hperm x hx).symm) hv

end Shown

/-! ## The answers in a history -/

/-- The value shows no NaN and no recur marker. -/
def Store.Definite (s : Store) (v : Value) : Prop :=
  v.Throughout s.shown fun p => p.isDefinite = true

/-- A value whose contents have no contents. -/
theorem Store.Definite.of_flat {s : Store} {v : Value} (hv : v.isDefinite = true)
    (h : (v.contents s.shown).all (fun p => p.isDefinite && (p.contents s.shown).isEmpty) = true) :
    s.Definite v := by
  refine .intro hv fun p hp => ?_
  obtain ⟨hd, hempty⟩ := (Bool.and_eq_true _ _).mp (List.all_eq_true.mp h p hp)
  refine .intro hd ?_
  rw [List.isEmpty_iff.mp hempty]
  exact nofun

theorem relations_coherent {host : Host} {s : Store} {log : Log} (h : History host s log)
    {a b : Value} (ha : Held log a) (hb : Held log b) :
    -- all questions are answered
    (∃ t o x, (Request.perform (.equal a b) s).1 = .ok (.truth t) ∧
      (Request.perform (.compare a b) s).1 = .ok (.order o) ∧
      (Request.perform (.hash a) s).1 = .ok (.digest x)) ∧
    -- equal values are equal under the order
    ((.equal a b, .ok (.truth true)) ∈ log →
      ∀ o, (.compare a b, .ok (.order o)) ∈ log → o = .eq) ∧
    -- values that are equal under the order have one hash
    ((.compare a b, .ok (.order .eq)) ∈ log →
      ∀ x y, (.hash a, .ok (.digest x)) ∈ log → (.hash b, .ok (.digest y)) ∈ log → x = y) ∧
    -- without NaN and recur markers, equality and order agree
    (s.Definite a → s.Definite b → ∀ t o, (.equal a b, .ok (.truth t)) ∈ log →
      (.compare a b, .ok (.order o)) ∈ log → (t = true ↔ o = .eq)) ∧
    -- whichever hashes are known, equality answers as if none ever were
    ∀ t, s.Forgets t → ∀ ρ : Ranking, s.memo.numbering.Admits ρ →
      t.same a b = Value.equal ρ.rank a b := by
  obtain ⟨g, hs, hk⟩ := h.exists_stage
  have hsa := hk.held ha
  have hsb := hk.held hb
  obtain ⟨ρ, hρ⟩ := hs.exists_admitted
  have hwa := hsa.wellFormed hρ
  have hwb := hsb.wellFormed hρ
  have hequal {t : Bool} (hm : (Request.equal a b, Except.ok (Reply.truth t)) ∈ log) :
      t = Value.equal ρ.rank a b := by cases hk.means _ _ hm ρ hρ; rfl
  have hcompare {o : Ordering} (hm : (Request.compare a b, Except.ok (Reply.order o)) ∈ log) :
      o = Value.order ρ.rank a b := by cases hk.means _ _ hm ρ hρ; rfl
  have hhash {v : Value} {x : UInt64} (hm : (Request.hash v, Except.ok (Reply.digest x)) ∈ log) :
      x = Value.digest ρ.rank v := by cases hk.means _ _ hm ρ hρ; rfl
  refine ⟨⟨_, _, _, rfl, rfl, rfl⟩, fun ht o ho => ?_, fun ho x y hx hy => ?_,
    fun hda hdb t o ht ho => ?_, fun u hu σ hσ => ?_⟩
  · rw [hcompare ho]
    exact Value.order_eq_of_equal hwa hwb (hequal ht).symm
  · rw [hhash hx, hhash hy]
    exact Value.digest_eq_of_order_eq (hcompare ho).symm
  · rw [hequal ht, hcompare ho]
    exact ⟨Value.order_eq_of_equal hwa hwb,
      Value.equal_of_order_eq hwa hwb ((hs.throughout_shown_iff hsa hρ).mp hda)
        ((hs.throughout_shown_iff hsb hρ).mp hdb)⟩
  · exact (hs.forgets hu).same_eq hsa hsb (hs.numbering ▸ hσ)

/-- Two lists with a zero each, of which one is negative, are equal and so equal under the order. -/
theorem relations_coherent_zeros :
    let x : Value := .number (.ofBits 0)
    let y : Value := .number (.ofBits 0x8000000000000000)
    let a : Value := .list ⟨0, .window 0 0 1 #[x]⟩
    let b : Value := .list ⟨1, .window 1 0 1 #[y]⟩
    ∃ s o, History default s [(.compare a b, .ok (.order o)), (.equal a b, .ok (.truth true)),
      (.makeList [y], .ok (.value b)), (.makeList [x], .ok (.value a))] ∧ o = .eq := by
  intro x y a b
  have hmade : History default _
      [(.makeList [y], .ok (.value b)), (.makeList [x], .ok (.value a))] :=
    (History.start.ask (.makeList [x]) (by simpa [Request.operands] using .scalar rfl)).ask
      (.makeList [y]) (by simpa [Request.operands] using .scalar rfl)
  have hab : ∀ v ∈ [a, b],
      Held [(.makeList [y], .ok (.value b)), (.makeList [x], .ok (.value a))] v := by
    simp only [List.forall_mem_cons, List.not_mem_nil, false_imp_iff, implies_true, and_true]
    exact ⟨.replied (q := .makeList [x]) (r := .value a) (by simp) (by simp [Reply.held]),
      .replied (q := .makeList [y]) (r := .value b) (by simp) (by simp [Reply.held])⟩
  have hasked : History default _ [(.compare a b, .ok (.order .eq)),
      (.equal a b, .ok (.truth true)), (.makeList [y], .ok (.value b)),
      (.makeList [x], .ok (.value a))] :=
    (hmade.ask (.equal a b) hab).ask (.compare a b) fun v hv => (hab v hv).cons _
  have ha := ((hab a (by simp)).cons (.equal a b, .ok (.truth true))).cons
    (.compare a b, .ok (.order .eq))
  have hb := ((hab b (by simp)).cons (.equal a b, .ok (.truth true))).cons
    (.compare a b, .ok (.order .eq))
  exact ⟨_, _, hasked, (relations_coherent hasked ha hb).2.1 (by simp) _ (by simp)⟩

end DynVal
