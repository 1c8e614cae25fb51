import DynVal.Proofs.Store.Coherence

/-!
# Maps stand for association lists

A map that came about in a history stands for the association list that comes about in the same way
(`Stands`), keys being told apart by equality. It does so in every later store, whichever layers
have been combined there.

* `Stands.holds`: by induction on how a map came about, it holds what it stands for.
* `maps_refine_associations`: reading a map is reading the list.
-/

namespace DynVal

open Entries Memo Op

/-- How a map came about in a history, and the association list that comes about in that way. -/
inductive Stands (eq : Value → Value → Bool) (log : Log) :
    MapNode → List (Value × Value) → Prop where
  | make {ps : List (Value × Value)} {m : MapNode}
    (h : (.makeMap ps, .ok (.value (.map m))) ∈ log) :
    Stands eq log m (merge eq (fun _ => false) [] ps)
  | assoc {m n : MapNode} {k v : Value} {es : List (Value × Value)} (hm : Stands eq log m es)
    (h : (.assoc m k v, .ok (.value (.map n))) ∈ log) : Stands eq log n (put eq k v es)
  | dissoc {m n : MapNode} {k : Value} {es : List (Value × Value)} (hm : Stands eq log m es)
    (h : (.dissoc m k, .ok (.value (.map n))) ∈ log) : Stands eq log n (erase eq k es)
  | merge {m front n : MapNode} {skip : Option Value} {es fs : List (Value × Value)}
    (hm : Stands eq log m es) (hf : Stands eq log front fs)
    (h : (.merge m front skip, .ok (.value (.map n))) ∈ log) :
    Stands eq log n (merge eq (fun v => skip.any (eq v)) es fs)

section Stands

variable {s : Store} {log : Log} {g : Stage} {m : MapNode} {es : List (Value × Value)} {ρ : Ranking}

theorem Store.At.same_eq_test (hs : s.At g) (hρ : g.numbering.Admits ρ) (x y : Value)
    (hx : x.Sound g) (hy : y.Sound g) : s.same x y = (keysUnder ρ).test x y :=
  (hs.same_eq hx hy hρ).trans
    (@Keyed.test_within_eq _ (Value.relations ρ.rank).keyed _ _ _
      (hx.wellFormed hρ) (hy.wellFormed hρ)).symm

/-- A map that came about in a history holds what it stands for. -/
theorem Stands.holds (hm : Stands s.same log m es) (hs : s.At g) (hk : log.Kept g) :
    MapNode.Made g m ∧ (∀ e ∈ es, e.1.Sound g ∧ e.2.Sound g) ∧
      ∀ ρ : Ranking, g.numbering.Admits ρ → MapNode.Holds ρ m es := by
  have hmade {q : Request} {n : MapNode} (h : (q, .ok (.value (.map n))) ∈ log) :
      MapNode.Made g n := hk.held (.reply h)
  induction hm with
  | @make ps m h =>
    have hps := Request.forall_mem_pairs (hk.operands _ _ h)
    refine ⟨hmade h, forall_merge (by simp) hps, fun ρ hρ => ?_⟩
    obtain ⟨n, heq, hn⟩ := hk.means _ _ h ρ hρ
    cases heq
    rw [merge_congr (hs.same_eq_test hρ) (by simp) (fun p hp => (hps p hp).1) fun _ _ => rfl]
    exact hn
  | @assoc m n k v es _ h ih =>
    obtain ⟨-, hes, hm⟩ := ih
    have hops := hk.operands _ _ h
    have hk' : k.Sound g := hops k (by simp [Request.operands])
    refine ⟨hmade h, forall_put hes hk' (hops v (by simp [Request.operands])), fun ρ hρ => ?_⟩
    obtain ⟨n, heq, hn⟩ := hk.means _ _ h ρ hρ
    cases heq
    rw [put_congr (hs.same_eq_test hρ) (fun e he => (hes e he).1) hk']
    exact hn es (hm ρ hρ)
  | @dissoc m n k es _ h ih =>
    obtain ⟨-, hes, hm⟩ := ih
    have hk' : k.Sound g := hk.operands _ _ h k (by simp [Request.operands])
    refine ⟨hmade h, fun e he => hes e (List.mem_filter.mp he).1, fun ρ hρ => ?_⟩
    obtain ⟨n, heq, hn⟩ := hk.means _ _ h ρ hρ
    cases heq
    rw [erase_congr (hs.same_eq_test hρ) (fun e he => (hes e he).1) hk']
    exact hn es (hm ρ hρ)
  | @merge m front n skip es fs _ _ h ihm ihf =>
    obtain ⟨-, hes, hm⟩ := ihm
    obtain ⟨-, hfs, hf⟩ := ihf
    refine ⟨hmade h, forall_merge hes hfs, fun ρ hρ => ?_⟩
    obtain ⟨n, heq, hn⟩ := hk.means _ _ h ρ hρ
    cases heq
    have hskips : ∀ f ∈ fs, skip.any (s.same f.2) = Map.skips (keysUnder ρ) skip f.2 := by
      intro f hf
      cases skip with
      | none => rfl
      | some v =>
        exact hs.same_eq_test hρ f.2 v (hfs f hf).2
          (hk.operands _ _ h v (by simp [Request.operands]))
    rw [merge_congr (hs.same_eq_test hρ) (fun e he => (hes e he).1)
      (fun f hf => (hfs f hf).1) hskips]
    exact hn es fs (hm ρ hρ) (hf ρ hρ)

/-- What is yielded, under a ranking with the numbers that are drawn by then. -/
theorem Op.Yields.exists_admitted {α : Type} {op : Op α} {P : Stage → α → Prop}
    (h : Yields g op P) (hs : s.At g) : ∃ g' a, ∃ ρ : Ranking, (op s).1 = .ok a ∧ P g' a ∧
      g'.numbering.Admits ρ ∧ g.numbering.Admits ρ := by
  obtain ⟨g', a, hext, hs', ha, hp⟩ := h s hs
  obtain ⟨ρ, hρ⟩ := hs'.exists_admitted
  exact ⟨g', a, ρ, ha, hp, hρ, hext.numbering.admits hρ⟩

theorem Op.Yields.answers {α : Type} {op : Op α} {P : Stage → α → Prop} (h : Yields g op P)
    (hs : s.At g) (wrap : α → Reply) :
    ∃ a, ((op >>= fun a => pure (wrap a)) s).1 = Except.ok (wrap a) := by
  obtain ⟨g', a, -, -, ha, -⟩ := h s hs
  refine ⟨a, ?_⟩
  rw [bind_ok ha]
  rfl

end Stands

/-- Reading a map is reading the association list that it stands for, whichever layers have been
combined, and it serves to make further maps. -/
theorem maps_refine_associations {host : Host} {s t : Store} {log : Log} (h : History host s log)
    {m : MapNode} {es : List (Value × Value)} (hm : Stands s.same log m es) {k : Value}
    (hk : Held log k) (ht : s.Forgets t) :
    (m.get? k t).1 = .ok (lookup s.same k es) ∧
    (m.contains k t).1 = .ok (lookup s.same k es).isSome ∧
    (m.size t).1 = .ok es.length ∧
    (∃ fs, (m.entries t).1 = .ok fs ∧
      Multiset.Rel (fun f e => s.order f.1 e.1 = .eq ∧ f.2 = e.2)
        (fs : Multiset (Value × Value)) (es : Multiset (Value × Value))) ∧
    (∀ ps, (∀ p ∈ ps, Held log p.1 ∧ Held log p.2) →
      ∃ n, (Request.perform (.makeMap ps) s).1 = .ok (.value (.map n))) ∧
    (∀ v, Held log v → ∃ n, (Request.perform (.assoc m k v) s).1 = .ok (.value (.map n))) ∧
    (∃ n, (Request.perform (.dissoc m k) s).1 = .ok (.value (.map n))) ∧
    (∀ front skip, Held log (.map front) → (∀ v ∈ skip, Held log v) →
      ∃ n, (Request.perform (.merge m front skip) s).1 = .ok (.value (.map n))) := by
  obtain ⟨g, hs, hkept⟩ := h.exists_stage
  have hat := hs.forgets ht
  obtain ⟨hmade, hes, hholds⟩ := hm.holds hs hkept
  have hks := hkept.held hk
  have hlookup {ρ : Ranking} (hρ : g.numbering.Admits ρ) :
      lookup s.same k es = lookup (keysUnder ρ).test k es :=
    lookup_congr (hs.same_eq_test hρ) (fun e he => (hes e he).1) hks
  refine ⟨?_, ?_, ?_, ?_, fun ps hps => ?_, fun v hv => ?_, ?_, fun front skip hf hskip => ?_⟩
  · obtain ⟨g', r, ρ, hr, ⟨-, hq⟩, hρ', hρ⟩ := (MapNode.yields_get hmade hks).exists_admitted hat
    rw [hr, hq ρ hρ' es (hholds ρ hρ), hlookup hρ]
  · obtain ⟨g', r, ρ, hr, hq, hρ', hρ⟩ := (MapNode.yields_contains hmade hks).exists_admitted hat
    rw [hr, hq ρ hρ' es (hholds ρ hρ), hlookup hρ]
  · obtain ⟨g', r, ρ, hr, hq, hρ', hρ⟩ := (MapNode.yields_size hmade).exists_admitted hat
    rw [hr, hq ρ hρ' es (hholds ρ hρ)]
  · obtain ⟨g', fs, ρ, hr, ⟨hfs, hq⟩, hρ', hρ⟩ := (MapNode.yields_entries hmade).exists_admitted hat
    refine ⟨fs, hr, Multiset.Rel.mono (hq ρ hρ' es (hholds ρ hρ)) fun f hf e he hfe => ?_⟩
    have hf := (hfs f (Multiset.mem_coe.mp hf)).1
    have he := (hes e (Multiset.mem_coe.mp he)).1
    refine ⟨?_, hfe.2⟩
    rcases hfe.1 with heq | htest
    · -- a key with a NaN is not equal to itself, but it is not told apart from itself either
      rw [heq]
      exact hs.order_eq he he fun _ _ => Std.ReflCmp.compare_self
    · exact hs.order_eq_of_same hf he ((hs.same_eq_test hρ _ _ hf he).trans htest)
  · have hps : ∀ p ∈ ps, p.1.Sound g ∧ p.2.Sound g :=
      fun p hp => ⟨hkept.held (hps p hp).1, hkept.held (hps p hp).2⟩
    exact (MapNode.yields_make hps).answers hs fun n => .value (.map n)
  · exact (MapNode.yields_assoc hmade hks (hkept.held hv)).answers hs fun n => .value (.map n)
  · exact (MapNode.yields_dissoc hmade hks).answers hs fun n => .value (.map n)
  · exact (MapNode.yields_merge hmade (hkept.held hf) fun v hv => hkept.held (hskip v hv)).answers
      hs fun n => .value (.map n)

/-- A merge that leaves nil out, of two maps that share a key. -/
theorem maps_refine_associations_skip :
    let yes : Value := .bool true
    let no : Value := .bool false
    let m : MapNode := ⟨0, .flat (.slice [(yes, no)])⟩
    let front : MapNode := ⟨1, .flat (.slice [(yes, .nil), (no, yes)])⟩
    let n : MapNode := ⟨2, .flat (.slice [(yes, no), (no, yes)])⟩
    ∃ s, History default s [(.merge m front (some .nil), .ok (.value (.map n))),
      (.makeMap [(yes, .nil), (no, yes)], .ok (.value (.map front))),
      (.makeMap [(yes, no)], .ok (.value (.map m)))] ∧
      (n.get? yes s).1 = .ok (some no) ∧ (n.size s).1 = .ok 2 := by
  intro yes no m front n
  have hscalars : ∀ v ∈ [Value.bool true, .bool false, .bool true, .nil], v.level = 0 := by decide
  have hmade : History default _ [(.makeMap [(yes, .nil), (no, yes)], .ok (.value (.map front))),
      (.makeMap [(yes, no)], .ok (.value (.map m)))] :=
    (History.start.ask (.makeMap [(yes, no)])
      fun v hv => .scalar (hscalars v (List.mem_append_left [yes, .nil] hv))).ask
      (.makeMap [(yes, .nil), (no, yes)]) fun v hv => .scalar (hscalars v (by
        simp only [Request.operands, List.flatMap_cons] at hv
        simpa [or_comm, or_left_comm] using hv))
  have hmerge : ∀ v ∈ Request.operands (.merge m front (some .nil)),
      Held [(.makeMap [(yes, .nil), (no, yes)], .ok (.value (.map front))),
        (.makeMap [(yes, no)], .ok (.value (.map m)))] v := by
    simp only [Request.operands, Option.toList_some, List.forall_mem_cons]
    exact ⟨.replied (q := .makeMap [(yes, no)]) (r := .value (.map m)) (by simp)
        (by simp [Reply.held]),
      .replied (q := .makeMap [(yes, .nil), (no, yes)]) (r := .value (.map front)) (by simp)
        (by simp [Reply.held]), .scalar rfl, by simp⟩
  have h : History default _ [(.merge m front (some .nil), .ok (.value (.map n))),
      (.makeMap [(yes, .nil), (no, yes)], .ok (.value (.map front))),
      (.makeMap [(yes, no)], .ok (.value (.map m)))] := hmade.ask _ hmerge
  have hm := @maps_refine_associations _ _ _ _ h n _ (@Stands.merge _ _ m front n (some .nil) _ _
    (@Stands.make _ _ [(yes, no)] m (by simp))
    (@Stands.make _ _ [(yes, .nil), (no, yes)] front (by simp)) (by simp))
    yes (.scalar rfl) (.refl _)
  exact ⟨_, h, hm.1.trans rfl, hm.2.2.1.trans rfl⟩

end DynVal
