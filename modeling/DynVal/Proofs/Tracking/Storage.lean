import DynVal.Map
import DynVal.Proofs.Storage.Buckets
import DynVal.Proofs.Tracking.Basic
import DynVal.Set

/-!
# Following operations on storages, maps and sets

Whatever makes two keys the same and whatever hashes them, an operation gives what it gives without
effects where comparing and hashing keys does so (`Tracking.Keys`). Each lemma also says where the
entries of the result come from, by a property of keys and one of values that they all have.
-/

namespace DynVal

namespace Tracking

variable {m : Type → Type} [Monad m] {ι : Type} {T : Tracking m ι} {κ ν : Type}

/-- Comparing and hashing keys gives what it gives without effects. -/
structure Keys (T : Tracking m ι) (P : κ → Prop) (keyed : Keyed m κ) (keyed' : ι → Keyed Id κ) :
    Prop where
  same : ∀ x y, P x → P y → T.givesAny (keyed.same x y) fun i => (keyed' i).same x y
  hash : ∀ x, P x → T.givesAny (keyed.hash x) fun i => (keyed' i).hash x

/-- A property of keys and one of values. -/
def Entry (P : κ → Prop) (V : ν → Prop) (e : κ × ν) : Prop := P e.1 ∧ V e.2

section Storage

variable {P : κ → Prop} {V : ν → Prop} {keyed : Keyed m κ} {keyed' : ι → Keyed Id κ}
  (H : T.Keys P keyed keyed') {k : κ} (hk : P k) {v : ν} (hv : V v)

/-! ## Runs of entries -/

section Runs

variable {es : List (κ × ν)}
include H hk

theorem gives_valueIn (hes : ∀ e ∈ es, Entry P V e) :
    T.gives (fun r => ∀ v ∈ r, V v) (Storage.valueIn keyed k es)
      fun i => Storage.valueIn (keyed' i) k es := by
  induction es with
  | nil => exact T.pure (by simp)
  | cons e es ih =>
    have he := hes e (by simp)
    exact ite (H.same _ _ he.1 hk) (T.pure (by simpa using he.2))
      (ih fun f hf => hes f (by simp [hf]))

theorem gives_isIn (hes : ∀ e ∈ es, P e.1) :
    T.givesAny (Storage.isIn keyed k es) fun i => Storage.isIn (keyed' i) k es := by
  induction es with
  | nil => exact T.pure trivial
  | cons e es ih =>
    exact ite (H.same _ _ (hes e (by simp)) hk) (T.pure trivial)
      (ih fun f hf => hes f (by simp [hf]))

theorem gives_without (hes : ∀ e ∈ es, Entry P V e) :
    T.gives (fun fs => ∀ f ∈ fs, Entry P V f) (Storage.without keyed k es)
      fun i => Storage.without (keyed' i) k es := by
  induction es with
  | nil => exact T.pure (by simp)
  | cons e es ih =>
    have he := hes e (by simp)
    have hrest := ih fun f hf => hes f (by simp [hf])
    exact ite (H.same _ _ he.1 hk) hrest
      (map hrest (e :: ·) fun fs hfs => List.forall_mem_cons.mpr ⟨he, hfs⟩)

include hv

theorem gives_rebind (hes : ∀ e ∈ es, Entry P V e) :
    T.gives (fun r => ∀ fs ∈ r, ∀ f ∈ fs, Entry P V f) (Storage.rebind? keyed k v es)
      fun i => Storage.rebind? (keyed' i) k v es := by
  induction es with
  | nil => exact T.pure (by simp)
  | cons e es ih =>
    have he := hes e (by simp)
    have hes' : ∀ f ∈ es, Entry P V f := fun f hf => hes f (by simp [hf])
    refine ite (H.same _ _ he.1 hk) (T.pure ?_)
      (map (ih hes') (Option.map (e :: ·)) fun r hr fs hfs => ?_)
    · rintro fs ⟨⟩
      exact List.forall_mem_cons.mpr ⟨⟨he.1, hv⟩, hes'⟩
    · obtain ⟨gs, hgs, rfl⟩ := Option.map_eq_some_iff.mp hfs
      exact List.forall_mem_cons.mpr ⟨he, hr gs hgs⟩

theorem gives_replace (hes : ∀ e ∈ es, Entry P V e) :
    T.gives (fun fs => ∀ f ∈ fs, Entry P V f) (Storage.replace keyed k v es)
      fun i => Storage.replace (keyed' i) k v es := by
  induction es with
  | nil => exact T.pure (by simpa using ⟨hk, hv⟩)
  | cons e es ih =>
    have he := hes e (by simp)
    have hes' : ∀ f ∈ es, Entry P V f := fun f hf => hes f (by simp [hf])
    exact ite (H.same _ _ he.1 hk) (T.pure (List.forall_mem_cons.mpr ⟨⟨hk, hv⟩, hes'⟩))
      (map (ih hes') (e :: ·) fun fs hfs => List.forall_mem_cons.mpr ⟨he, hfs⟩)

end Runs

/-! ## Storages -/

include H

theorem gives_insert {t : Buckets (κ × ν)} (ht : ∀ e ∈ t.toList, Entry P V e) (hk : P k)
    (hv : V v) : T.gives (fun u => ∀ e ∈ u.toList, Entry P V e) (Storage.insert keyed t k v)
      fun i => Storage.insert (keyed' i) t k v := by
  refine T.bind (g := fun h i => Id.run do
    return t.put h (← Storage.replace (keyed' i) k v (t.bucket h))) (H.hash k hk) fun h _ => ?_
  refine map (gives_replace H hk hv fun e he => ht e (Buckets.mem_of_mem_bucket he)) (t.put h)
    fun es hes e he => ?_
  rcases Buckets.mem_put he with he | he
  · exact hes e he
  · exact ht e he

theorem gives_insertAll {es : List (κ × ν)} {t : Buckets (κ × ν)}
    (ht : ∀ e ∈ t.toList, Entry P V e) (hes : ∀ e ∈ es, Entry P V e) :
    T.gives (fun u => ∀ e ∈ u.toList, Entry P V e) (Storage.insertAll keyed t es)
      fun i => Storage.insertAll (keyed' i) t es := by
  induction es generalizing t with
  | nil => exact T.pure ht
  | cons e es ih =>
    have he := hes e (by simp)
    exact T.bind (g := fun u i => Storage.insertAll (keyed' i) u es) (gives_insert H ht he.1 he.2)
      fun u hu => ih hu fun f hf => hes f (by simp [hf])

theorem gives_toTree {s : Storage κ ν} (hs : ∀ e ∈ s.entries, Entry P V e) :
    T.gives (fun u => ∀ e ∈ u.toList, Entry P V e) (s.toTree keyed)
      fun i => s.toTree (keyed' i) := by
  cases s with
  | slice es => exact gives_insertAll H (by simp [Buckets.toList, Buckets.onto]) hs
  | tree t => exact T.pure hs

theorem gives_bindAll {ps es : List (κ × ν)} (hes : ∀ e ∈ es, Entry P V e)
    (hps : ∀ p ∈ ps, Entry P V p) :
    T.gives (fun fs => ∀ f ∈ fs, Entry P V f) (Storage.bindAll keyed es ps)
      fun i => Storage.bindAll (keyed' i) es ps := by
  induction ps generalizing es with
  | nil => exact T.pure hes
  | cons p ps ih =>
    have hp := hps p (by simp)
    have hps' : ∀ q ∈ ps, Entry P V q := fun q hq => hps q (by simp [hq])
    simp only [Storage.bindAll]
    refine T.bind_run (gives_rebind H hp.1 hp.2 hes) fun r hr => ?_
    cases r with
    | some fs => exact ih (hr fs rfl) hps'
    | none => exact ih (List.forall_mem_append.mpr ⟨hes, by simpa using hp⟩) hps'

theorem gives_ofPairs {ps : List (κ × ν)} (hps : ∀ p ∈ ps, Entry P V p) :
    T.gives (fun s => ∀ e ∈ s.entries, Entry P V e) (Storage.ofPairs keyed ps)
      fun i => Storage.ofPairs (keyed' i) ps := by
  unfold Storage.ofPairs
  split
  · exact map (gives_bindAll H (by simp) hps) Storage.slice fun _ h => h
  · exact map (gives_insertAll H (by simp [Buckets.toList, Buckets.onto]) hps) Storage.tree
      fun _ h => h

theorem gives_get {s : Storage κ ν} (hs : ∀ e ∈ s.entries, Entry P V e) (hk : P k) :
    T.gives (fun r => ∀ v ∈ r, V v) (s.get? keyed k) fun i => s.get? (keyed' i) k := by
  cases s with
  | slice es => exact gives_valueIn H hk hs
  | tree t =>
    exact T.bind (g := fun h i => Storage.valueIn (keyed' i) k (t.bucket h)) (H.hash k hk)
      fun h _ => gives_valueIn H hk fun e he => hs e (Buckets.mem_of_mem_bucket he)

theorem gives_contains {s : Storage κ ν} (hs : ∀ e ∈ s.entries, P e.1) (hk : P k) :
    T.givesAny (s.contains keyed k) fun i => s.contains (keyed' i) k := by
  cases s with
  | slice es => exact gives_isIn H hk hs
  | tree t =>
    exact T.bind (g := fun h i => Storage.isIn (keyed' i) k (t.bucket h)) (H.hash k hk)
      fun h _ => gives_isIn H hk fun e he => hs e (Buckets.mem_of_mem_bucket he)

theorem gives_assoc {s : Storage κ ν} (hs : ∀ e ∈ s.entries, Entry P V e) (hk : P k) (hv : V v) :
    T.gives (fun s => ∀ e ∈ s.entries, Entry P V e) (s.assoc keyed k v)
      fun i => s.assoc (keyed' i) k v := by
  cases s with
  | slice es =>
    simp only [Storage.assoc]
    refine T.bind_run (gives_rebind H hk hv hs) fun r hr => ?_
    cases r with
    | some fs => exact T.pure (hr fs rfl)
    | none =>
      dsimp only
      split
      · exact T.pure (List.forall_mem_append.mpr ⟨hs, by simpa using ⟨hk, hv⟩⟩)
      · refine T.bind (g := fun t i => Id.run do
          return Storage.tree (← Storage.insert (keyed' i) t k v))
          (gives_insertAll H (by simp [Buckets.toList, Buckets.onto]) hs) fun t ht => ?_
        exact map (gives_insert H ht hk hv) Storage.tree fun _ h => h
  | tree t => exact map (gives_insert H hs hk hv) Storage.tree fun _ h => h

theorem gives_dissoc {s : Storage κ ν} (hs : ∀ e ∈ s.entries, Entry P V e) (hk : P k) :
    T.gives (fun s => ∀ e ∈ s.entries, Entry P V e) (s.dissoc keyed k)
      fun i => s.dissoc (keyed' i) k := by
  cases s with
  | slice es => exact map (gives_without H hk hs) Storage.slice fun _ h => h
  | tree t =>
    refine T.bind (g := fun h i => Id.run do
      return Storage.tree (t.put h (← Storage.without (keyed' i) k (t.bucket h)))) (H.hash k hk)
      fun h _ => ?_
    refine map (gives_without H hk fun e he => hs e (Buckets.mem_of_mem_bucket he))
      (fun es => Storage.tree (t.put h es)) fun es hes e he => ?_
    rcases Buckets.mem_put he with he | he
    · exact hes e he
    · exact hs e he

end Storage

/-! ## Maps -/

end Tracking

/-- A property of all keys and values in the layers of a map, and of the values left out. -/
def Map.All {α : Type} (P : α → Prop) : Map α → Prop
  | .flat s => ∀ e ∈ s.entries, Tracking.Entry P P e
  | .chain front skip back _ => front.All P ∧ (∀ v ∈ skip, P v) ∧ back.All P

namespace Tracking

variable {m : Type → Type} [Monad m] {ι : Type} {T : Tracking m ι} {κ α : Type}

theorem gives_filter {β : Type} {test : β → m Bool} {test' : ι → β → Bool} {Q : β → Prop}
    {xs : List β} (h : ∀ x ∈ xs, T.givesAny (test x) fun i => test' i x) (hxs : ∀ x ∈ xs, Q x) :
    T.gives (fun ys => ∀ y ∈ ys, Q y) (xs.filterM test)
      fun i => List.filterM (m := Id) (test' i) xs := by
  have haux : ∀ (ys acc : List β), (∀ y ∈ ys, y ∈ xs) → (∀ y ∈ acc, Q y) →
      T.gives (fun zs => ∀ z ∈ zs, Q z) (ys.filterAuxM test acc)
        fun i => List.filterAuxM (m := Id) (test' i) ys acc := by
    intro ys
    induction ys with
    | nil => exact fun acc _ hacc => T.pure hacc
    | cons y ys ih =>
      intro acc hys hacc
      refine T.bind (g := fun b i => List.filterAuxM (m := Id) (test' i) ys (cond b (y :: acc) acc))
        (h y (hys y (by simp))) fun b _ => ih _ (fun z hz => hys z (by simp [hz])) ?_
      cases b with
      | true => exact List.forall_mem_cons.mpr ⟨hxs y (hys y (by simp)), hacc⟩
      | false => exact hacc
  exact map (haux xs [] (fun _ h => h) (by simp)) List.reverse
    fun zs hzs z hz => hzs z (List.mem_reverse.mp hz)

section Map

variable {P : α → Prop} {keyed : Keyed m α} {keyed' : ι → Keyed Id α} (H : T.Keys P keyed keyed')
  {k v : α} {skip : Option α}
include H

theorem gives_isSkipped (hskip : ∀ s ∈ skip, P s) (hv : P v) :
    T.givesAny (Map.isSkipped keyed skip v) fun i => Map.isSkipped (keyed' i) skip v := by
  cases skip with
  | none => exact T.pure trivial
  | some s => exact H.same _ _ hv (hskip s rfl)

theorem gives_overlay (hskip : ∀ s ∈ skip, P s) {es : List (α × α)} {t : Buckets (α × α)}
    (ht : ∀ e ∈ t.toList, Entry P P e) (hes : ∀ e ∈ es, Entry P P e) :
    T.gives (fun u => ∀ e ∈ u.toList, Entry P P e) (Map.overlay keyed skip t es)
      fun i => Map.overlay (keyed' i) skip t es := by
  induction es generalizing t with
  | nil => exact T.pure ht
  | cons e es ih =>
    have he := hes e (by simp)
    have hes' : ∀ f ∈ es, Entry P P f := fun f hf => hes f (by simp [hf])
    refine ite (gives_isSkipped H hskip he.2) (ih ht hes') ?_
    exact T.bind (g := fun u i => Map.overlay (keyed' i) skip u es) (gives_insert H ht he.1 he.2)
      fun u hu => ih hu hes'

theorem gives_resolved {x : Map α} (hx : x.All P) :
    T.gives (fun s => ∀ e ∈ s.entries, Entry P P e) (x.resolved keyed)
      fun i => x.resolved (keyed' i) := by
  induction x with
  | flat s => exact T.pure hx
  | chain front skip back depth ihf ihb =>
    obtain ⟨hf, hskip, hb⟩ := hx
    refine T.bind (g := fun lower i => Id.run do
      let t ← lower.toTree (keyed' i)
      let upper ← front.resolved (keyed' i)
      return Storage.tree (← Map.overlay (keyed' i) skip t upper.entries)) (ihb hb)
      fun lower hlower => ?_
    refine T.bind (g := fun t i => Id.run do
      let upper ← front.resolved (keyed' i)
      return Storage.tree (← Map.overlay (keyed' i) skip t upper.entries))
      (gives_toTree H hlower) fun t ht => ?_
    refine T.bind (g := fun upper i => Id.run do
      return Storage.tree (← Map.overlay (keyed' i) skip t upper.entries)) (ihf hf)
      fun upper hupper => ?_
    exact map (gives_overlay H hskip ht hupper) Storage.tree fun _ h => h

theorem gives_lookup {x : Map α} (hx : x.All P) (hk : P k) :
    T.gives (fun r => ∀ v ∈ r, P v) (x.get? keyed k) fun i => x.get? (keyed' i) k := by
  induction x with
  | flat s => exact gives_get H hx hk
  | chain front skip back depth ihf ihb =>
    obtain ⟨hf, hskip, hb⟩ := hx
    simp only [Map.get?]
    refine T.bind_run (ihf hf) fun r hr => ?_
    cases r with
    | none => exact ihb hb
    | some v =>
      exact ite (gives_isSkipped H hskip (hr v rfl)) (ihb hb) (T.pure (by simpa using hr))

/-! ### Operations on combined layers -/

section Combined

variable {x : Map α} (hx : x.All P)
include hx

theorem gives_mapEntries : T.gives (fun es => ∀ e ∈ es, Entry P P e) (x.entries keyed)
    fun i => x.entries (keyed' i) :=
  map (gives_resolved H hx) Storage.entries fun _ h => h

theorem gives_mapSize : T.givesAny (x.size keyed) fun i => x.size (keyed' i) :=
  map (gives_resolved H hx) Storage.size fun _ _ => trivial

theorem gives_mapContains (hk : P k) :
    T.givesAny (x.contains keyed k) fun i => x.contains (keyed' i) k :=
  T.bind (g := fun s i => s.contains (keyed' i) k) (gives_resolved H hx)
    fun _ hs => gives_contains H (fun e he => (hs e he).1) hk

theorem gives_mapAssoc (hk : P k) (hv : P v) :
    T.gives (Map.All P) (x.assoc keyed k v) fun i => x.assoc (keyed' i) k v := by
  refine T.bind (g := fun s i => Id.run do return Map.flat (← s.assoc (keyed' i) k v))
    (gives_resolved H hx) fun s hs => ?_
  exact map (gives_assoc H hs hk hv) Map.flat fun _ h => h

theorem gives_mapDissoc (hk : P k) :
    T.gives (Map.All P) (x.dissoc keyed k) fun i => x.dissoc (keyed' i) k := by
  refine T.bind (g := fun s i => Id.run do return Map.flat (← s.dissoc (keyed' i) k))
    (gives_resolved H hx) fun s hs => ?_
  exact map (gives_dissoc H hs hk) Map.flat fun _ h => h

end Combined

theorem gives_mapOfPairs {ps : List (α × α)} (hps : ∀ p ∈ ps, Entry P P p) :
    T.gives (Map.All P) (Map.ofPairs keyed ps) fun i => Map.ofPairs (keyed' i) ps :=
  map (gives_ofPairs H hps) Map.flat fun _ h => h

/-! ### Merging -/

theorem gives_assocAll (hskip : ∀ s ∈ skip, P s) {s : Storage α α}
    (hs : ∀ e ∈ s.entries, Entry P P e) {es : List (α × α)} (hes : ∀ e ∈ es, Entry P P e) :
    ∀ {done : Option (Storage α α)}, (∀ t ∈ done, ∀ e ∈ t.entries, Entry P P e) →
      T.gives (fun r => ∀ t ∈ r, ∀ e ∈ t.entries, Entry P P e)
        (Map.assocAll? keyed s skip done es) fun i => Map.assocAll? (keyed' i) s skip done es := by
  induction es with
  | nil => exact fun hdone => T.pure hdone
  | cons e es ih =>
    intro done hdone
    have he := hes e (by simp)
    have hes' : ∀ f ∈ es, Entry P P f := fun f hf => hes f (by simp [hf])
    have hfrom : ∀ e ∈ (done.getD s).entries, Entry P P e := by
      cases done with
      | none => exact hs
      | some t => exact hdone t rfl
    refine ite (gives_isSkipped H hskip he.2) (ih hes' hdone) ?_
    refine T.bind (g := fun t i => Map.assocAll? (keyed' i) s skip (some t) es)
      (gives_assoc H hfrom he.1 he.2) fun t ht => ih hes' ?_
    rintro u ⟨⟩
    exact ht

theorem gives_layer {back front : Map α} (hskip : ∀ s ∈ skip, P s) (hb : back.All P)
    (hf : front.All P) :
    T.gives (Map.All P) (Map.layer keyed back front skip)
      fun i => Map.layer (keyed' i) back front skip := by
  have hchain : (Map.chain front skip back (back.depth + front.depth + 1)).All P :=
    ⟨hf, hskip, hb⟩
  unfold Map.layer
  dsimp only
  split
  · exact map (gives_resolved H hchain) Map.flat fun _ h => h
  · exact T.pure hchain

theorem gives_merge [LawfulMonad m] {back front : Map α} (hskip : ∀ s ∈ skip, P s)
    (hb : back.All P) (hf : front.All P) :
    T.gives (fun r => ∀ x ∈ r, Map.All P x) (Map.merge? keyed back front skip)
      fun i => Map.merge? (keyed' i) back front skip := by
  have hlayer : T.gives (fun r => ∀ x ∈ r, Map.All P x) (some <$> Map.layer keyed back front skip)
      fun i => some (Map.layer (keyed' i) back front skip) := by
    rw [map_eq_pure_bind]
    exact map (gives_layer H hskip hb hf) some fun x hx y hy => by cases hy; exact hx
  match front, back with
  | .chain .., _ => exact hlayer
  | .flat (.tree _), _ => exact hlayer
  | .flat (.slice _), .chain .. => exact hlayer
  | .flat (.slice _), .flat (.tree _) => exact hlayer
  | .flat (.slice fs), .flat (.slice bs) =>
    simp only [Map.merge?]
    split
    · exact T.pure (by simp)
    split
    · refine map (gives_assocAll H hskip hb hf (by simp)) (Option.map Map.flat) ?_
      intro r hr x hx
      obtain ⟨s, hs, rfl⟩ := Option.map_eq_some_iff.mp hx
      exact hr s hs
    · exact hlayer

/-! ### Two maps beside each other -/

theorem gives_entriesWhere (present : Bool) {x other : Map α} (hx : x.All P)
    (ho : other.All P) :
    T.gives (fun es => ∀ e ∈ es, Entry P P e) (Map.entriesWhere keyed present x other)
      fun i => Map.entriesWhere (keyed' i) present x other := by
  simp only [Map.entriesWhere]
  refine T.bind_run
    (map (Q := fun es => ∀ e ∈ es, Entry P P e) (gives_resolved H hx) Storage.entries
      fun _ h => h) fun es hes => ?_
  cases es with
  | nil => exact T.pure hes
  | cons e es =>
    refine T.bind (g := fun s i => List.filterM (m := Id)
      (fun e : α × α => do return (← s.contains (keyed' i) e.1) == present) (e :: es))
      (gives_resolved H ho) fun s hs => ?_
    refine @gives_filter _ _ _ _ _ _
      (fun i (e : α × α) => Id.run (s.contains (keyed' i) e.1) == present) _ _ (fun f hf => ?_) hes
    exact map (gives_contains H (fun e he => (hs e he).1) (hes f hf).1) (· == present)
      fun _ _ => trivial

theorem gives_diffNew {x other : Map α} (hx : x.All P) (ho : other.All P) :
    T.gives (Map.All P) (Map.diffNew keyed x other) fun i => Map.diffNew (keyed' i) x other := by
  refine T.bind (g := fun es i => Map.ofPairs (keyed' i) es) (gives_entriesWhere H false hx ho)
    fun es hes => ?_
  exact gives_mapOfPairs H hes

/-- The keys of the entries whose key another map has, or lacks. -/
theorem gives_keysWhere (present : Bool) {x other : Map α} (hx : x.All P) (ho : other.All P) :
    T.gives (fun ks => ∀ k ∈ ks, P k)
      (Map.entriesWhere keyed present x other >>= fun es => Pure.pure (es.map (·.1)))
      fun i => List.map (·.1) (Id.run (Map.entriesWhere (keyed' i) present x other)) := by
  refine map (gives_entriesWhere H present hx ho) (List.map (·.1)) fun es hes k hk => ?_
  obtain ⟨e, he, rfl⟩ := List.mem_map.mp hk
  exact (hes e he).1

end Map

/-! ## Sets -/

/-- A property of all members of a set. -/
def Members (P : κ → Prop) (s : Set κ) : Prop := ∀ e ∈ s.members.entries, Entry P (fun _ => True) e

theorem members_elements {s : Set κ} (hs : Members P s) : ∀ x ∈ s.elements, P x := by
  intro x hx
  obtain ⟨e, he, rfl⟩ := List.mem_map.mp hx
  exact (hs e he).1

section Set

variable {P : κ → Prop} {keyed : Keyed m κ} {keyed' : ι → Keyed Id κ} (H : T.Keys P keyed keyed')
include H

theorem gives_member {s : Set κ} (hs : Members P s) {x : κ} (hx : P x) :
    T.givesAny (s.contains keyed x) fun i => s.contains (keyed' i) x :=
  gives_contains H (fun e he => (hs e he).1) hx

theorem gives_include {s : Set κ} (hs : Members P s) {x : κ} (hx : P x) :
    T.gives (fun r => ∀ t ∈ r, Members P t) (s.include? keyed x)
      fun i => s.include? (keyed' i) x := by
  refine ite (gives_member H hs hx) (T.pure (by simp)) ?_
  refine map (gives_assoc H hs hx trivial) (fun s => some (Set.mk s)) fun u hu t ht => ?_
  cases ht
  exact hu

theorem gives_exclude {s : Set κ} (hs : Members P s) {x : κ} (hx : P x) :
    T.gives (fun r => ∀ t ∈ r, Members P t) (s.exclude? keyed x)
      fun i => s.exclude? (keyed' i) x := by
  refine ite (gives_member H hs hx) ?_ (T.pure (by simp))
  refine map (gives_dissoc H hs hx) (fun s => some (Set.mk s)) fun u hu t ht => ?_
  cases ht
  exact hu

theorem gives_includeAll {s : Set κ} (hs : Members P s) {xs : List κ} (hxs : ∀ x ∈ xs, P x) :
    ∀ {done : Option (Set κ)}, (∀ t ∈ done, Members P t) →
      T.gives (fun r => ∀ t ∈ r, Members P t) (Set.includeAll? keyed s done xs)
        fun i => Set.includeAll? (keyed' i) s done xs := by
  induction xs with
  | nil => exact fun hdone => T.pure hdone
  | cons x xs ih =>
    intro done hdone
    have hxs' : ∀ y ∈ xs, P y := fun y hy => hxs y (by simp [hy])
    have hfrom : Members P (done.getD s) := by
      cases done with
      | none => exact hs
      | some t => exact hdone t rfl
    simp only [Set.includeAll?]
    refine T.bind_run (gives_include H hfrom (hxs x (by simp))) fun r hr => ?_
    cases r with
    | some t => exact ih hxs' fun u hu => by cases hu; exact hr t rfl
    | none => exact ih hxs' hdone

theorem gives_ofList {xs : List κ} (hxs : ∀ x ∈ xs, P x) :
    T.gives (Members P) (Set.ofList keyed xs) fun i => Set.ofList (keyed' i) xs := by
  have hempty : Members P (Set.empty : Set κ) := by
    simp [Members, Set.empty, Storage.empty, Storage.entries]
  refine map (gives_includeAll H hempty hxs (by simp)) (·.getD Set.empty) fun r hr => ?_
  cases r with
  | none => exact hempty
  | some t => exact hr t rfl

theorem gives_intersection {s t : Set κ} (hs : Members P s) (ht : Members P t) :
    T.gives (Members P) (s.intersection keyed t) fun i => s.intersection (keyed' i) t :=
  T.bind (g := fun xs i => Set.ofList (keyed' i) xs)
    (gives_filter (fun x hx => gives_member H ht (members_elements hs x hx))
      (members_elements hs)) fun _ hxs => gives_ofList H hxs

theorem gives_difference {s t : Set κ} (hs : Members P s) (ht : Members P t) :
    T.gives (Members P) (s.difference keyed t) fun i => s.difference (keyed' i) t :=
  T.bind (g := fun xs i => Set.ofList (keyed' i) xs)
    (@gives_filter _ _ _ _ _ _ (fun i x => !(Id.run (t.contains (keyed' i) x))) _ _
      (fun x hx => map (gives_member H ht (members_elements hs x hx)) (! ·) fun _ _ => trivial)
      (members_elements hs)) fun _ hxs => gives_ofList H hxs

end Set

end Tracking
end DynVal
