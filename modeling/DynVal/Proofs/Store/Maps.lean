import DynVal.Maps
import DynVal.Proofs.Store.Keeping

/-!
# Operations on maps and sets keep values sound

Maps and sets are worked on in the memo, so what an operation makes or answers is what it makes or
answers without effects, for keys that are told apart by equality under the numbers drawn so far
(`Memo.keysUnder`).

* `MapNode.holds_of_sound`: a sound map holds the entries that it shows.
* `yields_making`: a map that is worked out in the memo is the plain one, and sound where the plain
  one is lawful.
* `MapNode.yields_assoc` and so on: one lemma for each operation, in terms of what its operands
  hold.
-/

namespace DynVal

open Op Entries Memo

/-! ## Maps -/

namespace MapNode

variable {g : Stage} {m front other : MapNode} {k v : Value} {ρ : Ranking}
  {es : List (Value × Value)}

/-- A map that makes a sound value. -/
def Made (g : Stage) (m : MapNode) : Prop := (Value.map m).Sound g

/-- The map holds these entries under a ranking. -/
def Holds (ρ : Ranking) (m : MapNode) (es : List (Value × Value)) : Prop :=
  m.body.Holds (keysUnder ρ) es

theorem all_sound (hm : Made g m) : m.body.All (Value.Sound g) := Map.all_iff.mpr hm.parts

theorem all_wellFormed (hm : Made g m) (ha : g.numbering.Admits ρ) :
    m.body.All (Value.WellFormed ρ) :=
  Map.all_iff.mpr fun p hp => (hm.parts p hp).wellFormed ha

theorem holds_of_sound (hm : Made g m) (ha : g.numbering.Admits ρ) :
    Holds ρ m (Value.entriesUnder ρ.rank m) :=
  (Value.holds_entriesUnder (lawful_keysUnder ρ) (hm.wellFormed ha).here (all_wellFormed hm ha)).1

/-! ### In the memo -/

/-- The map with its layers combined, without effects. -/
noncomputable def flatUnder (ρ : Ranking) (m : MapNode) : Map Value :=
  .flat (m.body.resolved (m := Id) (keysUnder ρ))

theorem Holds.flat (h : Holds ρ m es) : (flatUnder ρ m).Holds (keysUnder ρ) es :=
  Map.holds_flat h.resolved

theorem gives_flat (hm : Made g m) :
    (following g).gives (Map.All (Value.Sound g)) (Memo.flat m) fun ρ => flatUnder ρ m := by
  have hflat := Tracking.map (gives_storageOf (keys_keyed g) (all_sound hm)) Map.flat
    (Q := Map.All (Value.Sound g)) fun _ h => h
  refine holds_admits ((following g).holds_mono hflat fun x ρ h ha => ⟨h.1, h.2.trans ?_⟩)
  exact congrArg Map.flat (Tracking.gives_resolved (T := Tracking.plain) keys_within
    (all_wellFormed hm ha)).2

/-- What is worked out over the combined layers. -/
theorem yields_withFlat {α : Type} {Q : α → Prop} {f : Map Value → StateM Memo α}
    {f' : Ranking → Map Value → α} (hm : Made g m)
    (hf : ∀ x : Map Value, x.All (Value.Sound g) → (following g).gives Q (f x) fun ρ => f' ρ x) :
    Yields g (withFlat m f) fun g' a => Q a ∧ ∀ ρ : Ranking, g'.numbering.Admits ρ →
      a = f' ρ (flatUnder ρ m) :=
  yields_gives ((following g).bind (g := fun x ρ => f' ρ x) (gives_flat hm) hf)

/-- A map of sound parts that is stored in a lawful way. -/
theorem yields_shareMap {body : Map Value} (hall : body.All (Value.Sound g))
    (hl : ∀ ρ : Ranking, g.numbering.Admits ρ → body.Lawful (keysUnder ρ)) :
    Yields g (share body) fun g' n => Made g' n ∧ n.body = body := by
  refine (yields_share .map (fun _ => rfl) (fun _ => Map.all_iff.mp hall)
    (fun _ ρ ha => ?_) nofun).mono fun _ _ _ h => ⟨h.2, h.1⟩
  refine (Map.lawful_within_iff (P := Value.WellFormed ρ) ?_).mp (hl ρ ha)
  exact Map.all_iff.mpr fun p hp => (Map.all_iff.mp hall p hp).wellFormed ha

/-- A map that is worked out is the plain one. -/
theorem yields_making {op : Op (Map Value)} {f : Ranking → Map Value}
    (hop : Yields g op fun g' x => x.All (Value.Sound g) ∧
      ∀ ρ : Ranking, g'.numbering.Admits ρ → x = f ρ)
    (hl : ∀ ρ : Ranking, g.numbering.Admits ρ → (f ρ).Lawful (keysUnder ρ)) :
    Yields g (do share (← op)) fun g' n => Made g' n ∧
      ∀ ρ : Ranking, g'.numbering.Admits ρ → n.body = f ρ := by
  refine yields_bind hop fun g' x hext h => ?_
  refine (yields_shareMap (h.1.mono fun p hp => hp.extends hext) fun ρ ha => ?_).mono
    fun g'' n hext' hn => ⟨hn.1, fun ρ ha => ?_⟩
  · rw [h.2 ρ ha]
    exact hl ρ (hext.numbering.admits ha)
  · rw [hn.2]
    exact h.2 ρ (hext'.numbering.admits ha)

/-! ### Making maps -/

theorem yields_make {ps : List (Value × Value)} (hps : ∀ p ∈ ps, p.1.Sound g ∧ p.2.Sound g) :
    Yields g (make ps) fun g' n => Made g' n ∧ ∀ ρ : Ranking, g'.numbering.Admits ρ →
      n.body = Id.run (Map.ofPairs (keysUnder ρ) ps) :=
  yields_making (yields_gives (Tracking.gives_mapOfPairs (keys_under g) hps))
    fun ρ _ => (Map.holds_ofPairs (lawful_keysUnder ρ) ps).lawful

/-- A map of pairs holds what putting the pairs in one after the other gives. -/
theorem holds_make {ps : List (Value × Value)}
    (h : m.body = Id.run (Map.ofPairs (keysUnder ρ) ps)) :
    Holds ρ m (Entries.merge (keysUnder ρ).test (fun _ => false) [] ps) := by
  rw [Holds, h]
  exact Map.holds_ofPairs (lawful_keysUnder ρ) ps

theorem yields_assoc_body (hm : Made g m) (hk : k.Sound g) (hv : v.Sound g) :
    Yields g (m.assoc k v) fun g' n => Made g' n ∧ ∀ ρ : Ranking, g'.numbering.Admits ρ →
      n.body = Id.run ((flatUnder ρ m).assoc (keysUnder ρ) k v) := by
  refine yields_making (yields_withFlat hm fun x hx =>
    Tracking.gives_mapAssoc (keys_under g) hx hk hv)
    fun ρ ha => ?_
  exact (Map.Holds.assoc (lawful_keysUnder ρ) (holds_of_sound hm ha).flat k v).lawful

theorem yields_assoc (hm : Made g m) (hk : k.Sound g) (hv : v.Sound g) :
    Yields g (m.assoc k v) fun g' n => Made g' n ∧ ∀ ρ : Ranking, g'.numbering.Admits ρ →
      ∀ es, Holds ρ m es → Holds ρ n (put (keysUnder ρ).test k v es) := by
  refine (yields_assoc_body hm hk hv).mono fun g' n _ h => ⟨h.1, fun ρ ha es hes => ?_⟩
  rw [Holds, h.2 ρ ha]
  exact Map.Holds.assoc (lawful_keysUnder ρ) hes.flat k v

theorem yields_dissoc_body (hm : Made g m) (hk : k.Sound g) :
    Yields g (m.dissoc k) fun g' n => Made g' n ∧ ∀ ρ : Ranking, g'.numbering.Admits ρ →
      n.body = Id.run ((flatUnder ρ m).dissoc (keysUnder ρ) k) := by
  refine yields_making (yields_withFlat hm fun x hx =>
    Tracking.gives_mapDissoc (keys_under g) hx hk)
    fun ρ ha => ?_
  exact (Map.Holds.dissoc (lawful_keysUnder ρ) (holds_of_sound hm ha).flat k).lawful

theorem yields_dissoc (hm : Made g m) (hk : k.Sound g) :
    Yields g (m.dissoc k) fun g' n => Made g' n ∧ ∀ ρ : Ranking, g'.numbering.Admits ρ →
      ∀ es, Holds ρ m es → Holds ρ n (erase (keysUnder ρ).test k es) := by
  refine (yields_dissoc_body hm hk).mono fun g' n _ h => ⟨h.1, fun ρ ha es hes => ?_⟩
  rw [Holds, h.2 ρ ha]
  exact Map.Holds.dissoc (lawful_keysUnder ρ) hes.flat k

/-- The map that was given serves, or else a new one. -/
theorem yields_shareOr {r : Option (Map Value)} (hm : Made g m)
    (hall : ∀ x ∈ r, x.All (Value.Sound g))
    (hl : ∀ ρ : Ranking, g.numbering.Admits ρ → (r.getD m.body).Lawful (keysUnder ρ)) :
    Yields g (shareOr m r) fun g' n => Made g' n ∧ n.body = r.getD m.body := by
  cases r with
  | none => exact yields_pure ⟨hm, rfl⟩
  | some x => exact yields_shareMap (hall x rfl) hl

/-- The map with the entries of another laid over it, without effects. -/
noncomputable def mergedUnder (ρ : Ranking) (m front : MapNode) (skip : Option Value) : Map Value :=
  (Id.run (m.body.merge? (keysUnder ρ) front.body skip)).getD m.body

theorem Holds.merged {skip : Option Value} {fs : List (Value × Value)} (hes : Holds ρ m es)
    (hfs : Holds ρ front fs) : (mergedUnder ρ m front skip).Holds (keysUnder ρ)
      (Entries.merge (keysUnder ρ).test (Map.skips (keysUnder ρ) skip) es fs) :=
  Map.holds_merge (lawful_keysUnder ρ) hfs hes

theorem yields_merge_body {skip : Option Value} (hm : Made g m) (hf : Made g front)
    (hskip : ∀ s ∈ skip, s.Sound g) :
    Yields g (m.merge front skip) fun g' n => Made g' n ∧ ∀ ρ : Ranking, g'.numbering.Admits ρ →
      n.body = mergedUnder ρ m front skip := by
  refine yields_bind (yields_gives (Tracking.gives_merge (keys_under g) hskip (all_sound hm)
    (all_sound hf))) fun g' r hext h => ?_
  have hbody {ρ : Ranking} (ha : g'.numbering.Admits ρ) :
      r.getD m.body = mergedUnder ρ m front skip := by
    rw [h.2 ρ ha]
    rfl
  refine (yields_shareOr (hm.extends hext)
    (fun x hx => (h.1 x hx).mono fun p hp => hp.extends hext) fun ρ ha => ?_).mono
    fun g'' n hext' hn => ⟨hn.1, fun ρ ha => hn.2.trans (hbody (hext'.numbering.admits ha))⟩
  have ha' := hext.numbering.admits ha
  rw [hbody ha]
  exact ((holds_of_sound hm ha').merged (holds_of_sound hf ha')).lawful

theorem yields_merge {skip : Option Value} (hm : Made g m) (hf : Made g front)
    (hskip : ∀ s ∈ skip, s.Sound g) :
    Yields g (m.merge front skip) fun g' n => Made g' n ∧ ∀ ρ : Ranking, g'.numbering.Admits ρ →
      ∀ es fs, Holds ρ m es → Holds ρ front fs →
        Holds ρ n (Entries.merge (keysUnder ρ).test (Map.skips (keysUnder ρ) skip) es fs) := by
  refine (yields_merge_body hm hf hskip).mono
    fun g' n _ h => ⟨h.1, fun ρ ha es fs hes hfs => ?_⟩
  rw [Holds, h.2 ρ ha]
  exact hes.merged hfs

/-! ### Reading maps -/

theorem yields_get (hm : Made g m) (hk : k.Sound g) :
    Yields g (m.get? k) fun g' r => (∀ v ∈ r, v.Sound g) ∧ ∀ ρ : Ranking,
      g'.numbering.Admits ρ → ∀ es, Holds ρ m es → r = lookup (keysUnder ρ).test k es := by
  refine (yields_gives (Tracking.gives_lookup (keys_under g) (all_sound hm) hk)).mono
    fun g' r _ h => ⟨h.1, fun ρ ha es hes => (h.2 ρ ha).trans ?_⟩
  exact Map.get?_eq (lawful_keysUnder ρ) hes k

theorem yields_contains (hm : Made g m) (hk : k.Sound g) :
    Yields g (m.contains k) fun g' b => ∀ ρ : Ranking, g'.numbering.Admits ρ →
      ∀ es, Holds ρ m es → b = (lookup (keysUnder ρ).test k es).isSome := by
  refine (yields_withFlat hm fun x hx => Tracking.gives_mapContains (keys_under g) hx hk).mono
    fun g' b _ h ρ ha es hes => (h.2 ρ ha).trans ?_
  exact Map.contains_eq (lawful_keysUnder ρ) hes.flat k

theorem yields_size (hm : Made g m) :
    Yields g m.size fun g' n => ∀ ρ : Ranking, g'.numbering.Admits ρ →
      ∀ es, Holds ρ m es → n = es.length := by
  refine (yields_withFlat hm fun x hx => Tracking.gives_mapSize (keys_under g) hx).mono
    fun g' n _ h ρ ha es hes => (h.2 ρ ha).trans ?_
  exact Map.size_eq hes.flat

theorem yields_entries (hm : Made g m) :
    Yields g m.entries fun g' fs => (∀ f ∈ fs, f.1.Sound g ∧ f.2.Sound g) ∧ ∀ ρ : Ranking,
      g'.numbering.Admits ρ → ∀ es, Holds ρ m es → Alike (keysUnder ρ).test fs es := by
  refine (yields_withFlat hm fun x hx => Tracking.gives_mapEntries (keys_under g) hx).mono
    fun g' fs _ h => ⟨h.1, fun ρ ha es hes => ?_⟩
  rw [h.2 ρ ha]
  exact hes.flat.resolved.alike

/-! ### Two maps beside each other -/

/-- Two maps with their layers combined. The second is not looked into if the first is empty. -/
noncomputable def flatPairUnder (ρ : Ranking) (m other : MapNode) : Map Value × Map Value :=
  if Id.run ((flatUnder ρ m).size (keysUnder ρ)) == 0 then (flatUnder ρ m, other.body)
  else (flatUnder ρ m, flatUnder ρ other)

/-- The layers of two maps hold sound values only. -/
def BothSound (g : Stage) (p : Map Value × Map Value) : Prop :=
  p.1.All (Value.Sound g) ∧ p.2.All (Value.Sound g)

theorem gives_flatPair (hm : Made g m) (ho : Made g other) :
    (following g).gives (BothSound g) (Memo.flatPair m other) fun ρ => flatPairUnder ρ m other := by
  refine (following g).bind (g := fun x ρ => if Id.run (x.size (keysUnder ρ)) == 0
    then (x, other.body) else (x, flatUnder ρ other)) (gives_flat hm) fun x hx => ?_
  refine (following g).bind (g := fun n ρ => if n == 0 then (x, other.body)
    else (x, flatUnder ρ other)) (Tracking.gives_mapSize (keys_under g) hx) fun n _ => ?_
  by_cases hn : (n == 0) = true
  · simp only [hn, if_true]
    exact (following g).pure ⟨hx, all_sound ho⟩
  · simp only [hn]
    exact Tracking.map (gives_flat ho) (x, ·) fun y hy => ⟨hx, hy⟩

theorem yields_withFlatPair {α : Type} {Q : α → Prop} {f : Map Value → Map Value → StateM Memo α}
    {f' : Ranking → Map Value → Map Value → α} (hm : Made g m) (ho : Made g other)
    (hf : ∀ x y : Map Value, x.All (Value.Sound g) → y.All (Value.Sound g) →
      (following g).gives Q (f x y) fun ρ => f' ρ x y) :
    Yields g (withFlatPair m other f) fun g' a => Q a ∧ ∀ ρ : Ranking, g'.numbering.Admits ρ →
      a = f' ρ (flatPairUnder ρ m other).1 (flatPairUnder ρ m other).2 :=
  yields_gives ((following g).bind (k := fun p : Map Value × Map Value => f p.1 p.2)
    (g := fun p ρ => f' ρ p.1 p.2) (gives_flatPair hm ho) fun p hp => hf p.1 p.2 hp.1 hp.2)

theorem yields_diffNew_body (hm : Made g m) (ho : Made g other) :
    Yields g (m.diffNew other) fun g' n => Made g' n ∧ ∀ ρ : Ranking, g'.numbering.Admits ρ →
      n.body = Id.run ((flatPairUnder ρ m other).1.diffNew (keysUnder ρ)
        (flatPairUnder ρ m other).2) :=
  yields_making (yields_withFlatPair hm ho fun _ _ hx hy =>
    Tracking.gives_diffNew (keys_under g) hx hy)
    fun ρ _ => (Map.holds_ofPairs (lawful_keysUnder ρ) _).lawful

theorem yields_diffNew (hm : Made g m) (ho : Made g other) : Yields g (m.diffNew other) Made :=
  (yields_diffNew_body hm ho).mono fun _ _ _ h => h.1

end MapNode

/-! ## Sets -/

namespace SetNode

variable {g : Stage} {s t : SetNode} {x : Value} {ρ : Ranking}

/-- A set that makes a sound value. -/
def Made (g : Stage) (s : SetNode) : Prop := (Value.set s).Sound g

/-- The set holds these elements under a ranking, as entries without values. -/
def Holds (ρ : Ranking) (s : SetNode) (es : List (Value × Unit)) : Prop :=
  s.body.members.Holds (keysUnder ρ) es

theorem members_sound (hs : Made g s) : Tracking.Members (Value.Sound g) s.body :=
  fun _ he => ⟨hs.parts _ (List.mem_map_of_mem he), trivial⟩

theorem holds_of_sound (hs : Made g s) (ha : g.numbering.Admits ρ) :
    Holds ρ s s.body.members.entries := by
  have hl := (hs.wellFormed ha).here
  refine ((lawful_within_iff fun e he => ?_).mpr hl).holds
  exact (members_sound hs e he).1.wellFormed ha

/-- A set of sound elements that is stored in a lawful way. -/
theorem yields_shareSet {body : Set Value} (hall : Tracking.Members (Value.Sound g) body)
    (hl : ∀ ρ : Ranking, g.numbering.Admits ρ → body.members.Lawful (keysUnder ρ)) :
    Yields g (share body) fun g' s => Made g' s ∧ s.body = body := by
  refine (yields_share .set (fun _ => rfl)
    (fun _ => Tracking.members_elements hall) (fun _ ρ ha => ?_) nofun).mono
    fun _ _ _ h => ⟨h.2, h.1⟩
  refine (lawful_within_iff (P := Value.WellFormed ρ) fun e he => ?_).mp (hl ρ ha)
  exact (hall e he).1.wellFormed ha

/-- A set that is worked out is the plain one. -/
theorem yields_making {c : StateM Memo (Set Value)} {f : Ranking → Set Value}
    (hc : (following g).gives (Tracking.Members (Value.Sound g)) c f)
    (hl : ∀ ρ : Ranking, (f ρ).members.Lawful (keysUnder ρ)) :
    Yields g (do share (← withMemo c)) fun g' s => Made g' s ∧
      ∀ ρ : Ranking, g'.numbering.Admits ρ → s.body = f ρ := by
  refine yields_bind (yields_gives hc) fun g' x hext h => ?_
  have hall : Tracking.Members (Value.Sound g') x :=
    fun e he => ⟨(h.1 e he).1.extends hext, trivial⟩
  refine (yields_shareSet hall fun ρ ha => h.2 ρ ha ▸ hl ρ).mono
    fun g'' n hext' hn => ⟨hn.1, fun ρ ha => ?_⟩
  rw [hn.2]
  exact h.2 ρ (hext'.numbering.admits ha)

/-- A set that is worked out from another, which serves where there is nothing to do. -/
theorem yields_makingOr {c : StateM Memo (Option (Set Value))} {f : Ranking → Option (Set Value)}
    (hs : Made g s)
    (hc : (following g).gives (fun r => ∀ t ∈ r, Tracking.Members (Value.Sound g) t) c f)
    (hl : ∀ ρ : Ranking, g.numbering.Admits ρ →
      ((f ρ).getD s.body).members.Lawful (keysUnder ρ)) :
    Yields g (do shareOr s (← withMemo c)) fun g' t => Made g' t ∧
      ∀ ρ : Ranking, g'.numbering.Admits ρ → t.body = (f ρ).getD s.body := by
  refine yields_bind (yields_gives hc) fun g' r hext h => ?_
  cases r with
  | none =>
    refine yields_pure ⟨hs.extends hext, fun ρ ha => ?_⟩
    rw [← h.2 ρ ha]
    rfl
  | some t =>
    have hall : Tracking.Members (Value.Sound g') t :=
      fun e he => ⟨(h.1 t rfl e he).1.extends hext, trivial⟩
    refine (yields_shareSet hall fun ρ ha => ?_).mono fun g'' n hext' hn => ⟨hn.1, fun ρ ha => ?_⟩
    · have hlawful := hl ρ (hext.numbering.admits ha)
      rw [← h.2 ρ ha] at hlawful
      exact hlawful
    · rw [hn.2, ← h.2 ρ (hext'.numbering.admits ha)]
      rfl

theorem yields_make {xs : List Value} (hxs : ∀ x ∈ xs, x.Sound g) :
    Yields g (make xs) fun g' s => Made g' s ∧ ∀ ρ : Ranking, g'.numbering.Admits ρ →
      s.body = Id.run (Set.ofList (keysUnder ρ) xs) :=
  yields_making (Tracking.gives_ofList (keys_under g) hxs)
    fun ρ => (Set.holds_ofList (lawful_keysUnder ρ) xs).lawful

section Operations

variable (hs : Made g s) (ht : Made g t) (hx : x.Sound g)
include hs

theorem yields_contains (hx : x.Sound g) :
    Yields g (s.contains x) fun g' b => ∀ ρ : Ranking, g'.numbering.Admits ρ →
      b = (lookup (keysUnder ρ).test x s.body.members.entries).isSome := by
  refine (yields_gives (Tracking.gives_member (keys_under g) (members_sound hs) hx)).mono
    fun g' b hext h ρ ha => (h.2 ρ ha).trans ?_
  exact Set.contains_eq (lawful_keysUnder ρ) (holds_of_sound hs (hext.numbering.admits ha)) x

theorem yields_insert (hx : x.Sound g) :
    Yields g (s.insert x) fun g' u => Made g' u ∧ ∀ ρ : Ranking, g'.numbering.Admits ρ →
      u.body = (Id.run (s.body.include? (keysUnder ρ) x)).getD s.body :=
  yields_makingOr hs (Tracking.gives_include (keys_under g) (members_sound hs) hx) fun ρ ha =>
    (Set.holds_include (lawful_keysUnder ρ) (holds_of_sound hs ha) x).lawful

theorem yields_erase (hx : x.Sound g) :
    Yields g (s.erase x) fun g' u => Made g' u ∧ ∀ ρ : Ranking, g'.numbering.Admits ρ →
      u.body = (Id.run (s.body.exclude? (keysUnder ρ) x)).getD s.body :=
  yields_makingOr hs (Tracking.gives_exclude (keys_under g) (members_sound hs) hx) fun ρ ha =>
    (Set.holds_exclude (lawful_keysUnder ρ) (holds_of_sound hs ha) x).lawful

include ht

theorem yields_union :
    Yields g (s.union t) fun g' u => Made g' u ∧ ∀ ρ : Ranking, g'.numbering.Admits ρ →
      u.body = (Id.run (s.body.union? (keysUnder ρ) t.body)).getD s.body :=
  yields_makingOr hs (Tracking.gives_includeAll (keys_under g) (members_sound hs)
    (Tracking.members_elements (members_sound ht)) (by simp)) fun ρ ha =>
    (@Set.holds_includeAll _ _ (lawful_keysUnder ρ) _ _ none (holds_of_sound hs ha) _).lawful

theorem yields_intersection :
    Yields g (s.intersection t) fun g' u => Made g' u ∧ ∀ ρ : Ranking, g'.numbering.Admits ρ →
      u.body = Id.run (s.body.intersection (keysUnder ρ) t.body) :=
  yields_making (Tracking.gives_intersection (keys_under g) (members_sound hs) (members_sound ht))
    fun ρ => (Set.holds_ofList (lawful_keysUnder ρ) _).lawful

theorem yields_difference :
    Yields g (s.difference t) fun g' u => Made g' u ∧ ∀ ρ : Ranking, g'.numbering.Admits ρ →
      u.body = Id.run (s.body.difference (keysUnder ρ) t.body) :=
  yields_making (Tracking.gives_difference (keys_under g) (members_sound hs) (members_sound ht))
    fun ρ => (Set.holds_ofList (lawful_keysUnder ρ) _).lawful

end Operations

/-- None of some values is below this one. -/
def LowerBound (ρ : Ranking) (xs : List Value) (x : Value) : Prop :=
  ∀ y ∈ xs, (Value.order ρ.rank x y).isLE = true

theorem LowerBound.cons {xs : List Value} {y z : Value} (h : LowerBound ρ (y :: xs) z)
    (hyx : (Value.order ρ.rank y x).isLE = true) : LowerBound ρ (x :: y :: xs) z :=
  List.forall_mem_cons.mpr ⟨Std.TransCmp.isLE_trans (h y List.mem_cons_self) hyx, h⟩

theorem LowerBound.perm {xs ys : List Value} (h : LowerBound ρ xs x) (hp : xs.Perm ys) :
    LowerBound ρ ys x := fun y hy => h y (hp.mem_iff.mpr hy)

theorem yields_leastOf {xs : List Value} (hx : x.Sound g) (hxs : ∀ y ∈ xs, y.Sound g) :
    Yields g (leastOf x xs) fun g' y => y ∈ x :: xs ∧
      ∀ ρ : Ranking, g'.numbering.Admits ρ → LowerBound ρ (x :: xs) y := by
  induction xs generalizing x g with
  | nil =>
    refine yields_pure ⟨List.mem_cons_self, fun ρ _ y hy => ?_⟩
    obtain rfl := List.mem_singleton.mp hy
    rw [@Std.ReflCmp.compare_self _ (Value.order ρ.rank)]
    rfl
  | cons y xs ih =>
    obtain ⟨hy, hrest⟩ := List.forall_mem_cons.mp hxs
    refine yields_bind (yields_gives (gives_compare hx hy)) fun g₁ o h₁ ho => ?_
    have hrest : ∀ z ∈ xs, z.Sound g₁ := fun z hz => (hrest z hz).extends h₁
    have hformer (hle : ∀ ρ : Ranking, g₁.numbering.Admits ρ →
        (Value.order ρ.rank x y).isLE = true) : Yields g₁ (leastOf x xs) fun g' z =>
          z ∈ x :: y :: xs ∧ ∀ ρ : Ranking, g'.numbering.Admits ρ →
            LowerBound ρ (x :: y :: xs) z := by
      refine (ih (hx.extends h₁) hrest).mono fun g₂ z h₂ hz => ⟨?_, fun ρ hρ => ?_⟩
      · exact (List.Perm.swap x y xs).mem_iff.mp (List.mem_cons_of_mem y hz.1)
      · exact ((hz.2 ρ hρ).cons (hle ρ (h₂.numbering.admits hρ))).perm (.swap x y xs)
    cases o with
    | gt =>
      refine (ih (hy.extends h₁) hrest).mono fun g₂ z h₂ hz =>
        ⟨List.mem_cons_of_mem x hz.1, fun ρ hρ => (hz.2 ρ hρ).cons ?_⟩
      have hgt := ho.2 ρ (h₂.numbering.admits hρ)
      rw [Std.OrientedCmp.lt_of_gt hgt.symm]
      rfl
    | lt =>
      refine hformer fun ρ hρ => ?_
      rw [← ho.2 ρ hρ]
      rfl
    | eq =>
      refine hformer fun ρ hρ => ?_
      rw [← ho.2 ρ hρ]
      rfl

theorem yields_first (hs : Made g s) :
    Yields g s.first? fun g' r => (r = none → s.body.elements = []) ∧
      ∀ x ∈ r, x ∈ s.body.elements ∧
        ∀ ρ : Ranking, g'.numbering.Admits ρ → LowerBound ρ s.body.elements x := by
  have hall := Tracking.members_elements (members_sound hs)
  unfold first?
  split
  · rename_i hnil
    exact yields_pure ⟨fun _ => hnil, by simp⟩
  · rename_i x xs hxs
    rw [hxs] at hall ⊢
    obtain ⟨hx, hrest⟩ := List.forall_mem_cons.mp hall
    refine yields_bind (yields_leastOf hx hrest) fun g' y _ hy => yields_pure ⟨nofun, ?_⟩
    rintro _ ⟨⟩
    exact hy

/-- All elements but a least one, if there is one. -/
theorem yields_rest (hs : Made g s) :
    Yields g s.rest fun g' u => Made g' u ∧ (s.body.elements = [] ∧ u = s ∨
      ∃ x ∈ s.body.elements, ∀ ρ : Ranking, g'.numbering.Admits ρ → LowerBound ρ s.body.elements x ∧
        u.body = (Id.run (s.body.exclude? (keysUnder ρ) x)).getD s.body) := by
  refine yields_bind (yields_first hs) fun g₁ r h₁ hr => ?_
  cases r with
  | none => exact yields_pure ⟨hs.extends h₁, .inl ⟨hr.1 rfl, rfl⟩⟩
  | some x =>
    obtain ⟨hx, hleast⟩ := hr.2 x rfl
    have hsx : x.Sound g₁ := (hs.parts x hx).extends h₁
    exact (yields_erase (hs.extends h₁) hsx).mono fun g₂ u h₂ hu =>
      ⟨hu.1, .inr ⟨x, hx, fun ρ hρ => ⟨hleast ρ (h₂.numbering.admits hρ), hu.2 ρ hρ⟩⟩⟩

end SetNode

namespace MapNode

variable {g : Stage} {m other : MapNode}

/-- The keys of one map that another has, or lacks. -/
theorem yields_keysWhere (present : Bool) (hm : Made g m) (ho : Made g other) :
    Yields g (do SetNode.make (← withFlatPair m other fun x y =>
      (x.entriesWhere Memo.keyed present y) >>= fun es => pure (es.map (·.1)))) SetNode.Made := by
  refine yields_bind (yields_withFlatPair hm ho fun _ _ hx hy =>
    Tracking.gives_keysWhere (keys_under g) present hx hy) fun g' ks hext h => ?_
  exact (SetNode.yields_make fun k hk => (h.1 k hk).extends hext).mono fun _ _ _ h => h.1

theorem yields_diffKeys (hm : Made g m) (ho : Made g other) :
    Yields g (m.diffKeys other) SetNode.Made := yields_keysWhere false hm ho

theorem yields_commonKeys (hm : Made g m) (ho : Made g other) :
    Yields g (m.commonKeys other) SetNode.Made := yields_keysWhere true hm ho

end MapNode
end DynVal
