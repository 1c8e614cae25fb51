import DynVal.Proofs.Order.Digests
import DynVal.Proofs.Values.Parts

/-!
# Following the relations between values

Equality, order and hash are written for given relations between the parts of values and for a
memory. Where the given relations give what they give without effects (`Relates`), and the memory
answers by what the relations are without it (`Remembers`), so do equality, order and hash of the
wholes.

* `gives_equalBy`, `gives_compareBy`, `gives_hashBy`: one step, from parts to wholes. The parts that
  are looked at are those in `Value.parts`.
-/

namespace DynVal

open Std

namespace Tracking

variable {m : Type → Type} [Monad m] {ι : Type}

/-- Relations give what they give without effects. -/
structure Relates (T : Tracking m ι) (P : Value → Prop) (rel : Relations m)
    (rel' : ι → Relations Id) : Prop where
  equal : ∀ x y, P x → P y → T.givesAny (rel.equal x y) fun i => (rel' i).equal x y
  compare : ∀ x y, P x → P y → T.givesAny (rel.compare x y) fun i => (rel' i).compare x y
  hash : ∀ x, P x → T.givesAny (rel.hash x) fun i => (rel' i).hash x

/-- A memory answers about wholes by what the relations are without it. -/
structure Remembers (T : Tracking m ι) (P W : Value → Prop) (mem : Memory m) (rank : ι → Fn → Nat)
    (rel : Relations m) (rel' : ι → Relations Id) : Prop where
  number : ∀ f, T.givesAny (mem.number f) fun i => rank i f
  storageOf : ∀ x : MapNode, W (.map x) → x.body.All P →
    T.gives (fun s => ∀ e ∈ s.entries, Entry P P e) (mem.storageOf rel.keyed x)
      fun i => x.body.storage (rel' i)
  hashOf : ∀ v node, W v → v.level = node + 1 → ∀ c,
    T.givesAny c (fun i => Value.hashBy (.ofRank (rank i)) (rel' i) v) →
      T.givesAny (mem.hashOf node c) fun i => Value.hashBy (.ofRank (rank i)) (rel' i) v
  differ : ∀ a b j k, W a → W b → a.level = j + 1 → b.level = k + 1 →
    T.holds (fun d i => d = true → Value.equalBy (.ofRank (rank i)) (rel' i) a b = false)
      (mem.differ j k)

variable {T : Tracking m ι} {P W : Value → Prop} {mem : Memory m} {rank : ι → Fn → Nat}
  {rel : Relations m} {rel' : ι → Relations Id}

theorem Relates.keys (h : T.Relates P rel rel') : T.Keys P rel.keyed fun i => (rel' i).keyed :=
  ⟨h.equal, h.hash⟩

theorem gives_entriesIn (hr : T.Relates P rel rel') {y : Map Value} (hy : y.All P)
    {es : List (Value × Value)} (hes : ∀ e ∈ es, Entry P P e) :
    T.givesAny (Value.entriesInM rel y es) fun i => Value.entriesInM (rel' i) y es := by
  induction es with
  | nil => exact T.pure trivial
  | cons e es ih =>
    have he := hes e (by simp)
    simp only [Value.entriesInM]
    refine T.bind_run (gives_lookup hr.keys hy he.1) fun r hv => ?_
    cases r with
    | none => exact T.pure trivial
    | some v =>
      exact ite (hr.equal _ _ he.2 (hv v rfl)) (ih fun f hf => hes f (by simp [hf]))
        (T.pure trivial)

/-- Entries in order. -/
theorem gives_sortEntries (hr : T.Relates P rel rel') (ht : ∀ i, TransCmp (rel' i).compare)
    {es : List (Value × Value)} (hes : ∀ e ∈ es, Entry P P e) :
    T.gives (fun fs => ∀ f ∈ fs, Entry P P f)
      (sortM .eight (Value.compareEntries rel.compare) es)
      fun i => sorted .eight (Value.entryOrder (rel' i).compare) es :=
  have (i : ι) := ht i
  gives_sortM (fun _ => inferInstance) .eight hes fun _ _ hx hy =>
    gives_compareEntries hr.compare hx hy

section

variable (hr : T.Relates P rel rel') (hm : T.Remembers P W mem rank rel rel')
include hm

/-- Where known hashes differ, the wholes are not equal anyway. -/
theorem gives_unlessDiffer {a b : Value} {j k : Nat} (ha : W a) (hb : W b)
    (hj : a.level = j + 1) (hk : b.level = k + 1) {c : m Bool} {f : ι → Bool}
    (hc : T.givesAny c f)
    (hf : ∀ i, Value.equalBy (.ofRank (rank i)) (rel' i) a b = f i) :
    T.givesAny (mem.differ j k >>= fun d => if d = true then Pure.pure false else c)
      fun i => Value.equalBy (.ofRank (rank i)) (rel' i) a b := by
  refine T.holds_bind (hm.differ a b j k ha hb hj hk) fun d _ => ?_
  cases d with
  | true => exact T.holds_pure fun i hd => ⟨trivial, (hd rfl).symm⟩
  | false => exact T.holds_mono hc fun _ i h _ => ⟨trivial, h.2.trans (hf i).symm⟩

include hr

theorem gives_equalLists {x y : ListNode} (hx : W (.list x)) (hy : W (.list y))
    (hpx : ∀ p ∈ x.body.shown.toList, P p) (hpy : ∀ p ∈ y.body.shown.toList, P p) :
    T.givesAny (Value.equalBy mem rel (.list x) (.list y))
      fun i => Value.equalBy (.ofRank (rank i)) (rel' i) (.list x) (.list y) := by
  by_cases hs : Value.isSame .list x y = true
  · simp only [Value.equalBy, hs, if_true]
    exact T.pure trivial
  by_cases hl : (x.body.length != y.body.length) = true
  · simp only [Value.equalBy, hs, hl, if_true]
    exact T.pure trivial
  have hstep {n : Type → Type} [Monad n] (mem : Memory n) (rel : Relations n) :
      Value.equalBy mem rel (.list x) (.list y) = mem.differ x.node y.node >>= fun d =>
        if d = true then Pure.pure false
        else Value.allPairsM rel.equal x.body.shown.toList y.body.shown.toList := by
    simp [Value.equalBy, hs, hl]
  rw [hstep]
  exact gives_unlessDiffer hm hx hy rfl rfl
    (gives_allPairs fun a ha b hb => hr.equal a b (hpx a ha) (hpy b hb)) fun i => hstep _ _

theorem gives_equalSets {x y : SetNode} (hx : W (.set x)) (hy : W (.set y))
    (hpx : ∀ p ∈ x.body.elements, P p) (hpy : ∀ p ∈ y.body.elements, P p) :
    T.givesAny (Value.equalBy mem rel (.set x) (.set y))
      fun i => Value.equalBy (.ofRank (rank i)) (rel' i) (.set x) (.set y) := by
  by_cases hs : Value.isSame .set x y = true
  · simp only [Value.equalBy, hs, if_true]
    exact T.pure trivial
  by_cases hl : (x.body.size != y.body.size) = true
  · simp only [Value.equalBy, hs, hl, if_true]
    exact T.pure trivial
  have hstep {n : Type → Type} [Monad n] (mem : Memory n) (rel : Relations n) :
      Value.equalBy mem rel (.set x) (.set y) = mem.differ x.node y.node >>= fun d =>
        if d = true then Pure.pure false
        else Value.everyM (fun e => Value.equalToSomeM rel.equal e y.body.elements)
          x.body.elements := by
    simp [Value.equalBy, hs, hl]
  rw [hstep]
  exact gives_unlessDiffer hm hx hy rfl rfl (gives_every fun a ha =>
    gives_equalToSome fun b hb => hr.equal a b (hpx a ha) (hpy b hb)) fun i => hstep _ _

/-- The storages are looked at before the known hashes are. -/
theorem gives_equalMaps {x y : MapNode} (hx : W (.map x)) (hy : W (.map y)) (hpx : x.body.All P)
    (hpy : y.body.All P) :
    T.givesAny (Value.equalBy mem rel (.map x) (.map y))
      fun i => Value.equalBy (.ofRank (rank i)) (rel' i) (.map x) (.map y) := by
  by_cases hs : Value.isSame .map x y = true
  · simp only [Value.equalBy, hs, if_true]
    exact T.pure trivial
  have hstep {n : Type → Type} [Monad n] (mem : Memory n) (rel : Relations n) :
      Value.equalBy mem rel (.map x) (.map y) = (mem.storageOf rel.keyed x >>= fun s =>
        mem.storageOf rel.keyed y >>= fun t =>
          if (s.size != t.size) = true then Pure.pure false
          else mem.differ x.node y.node >>= fun d =>
            if d = true then Pure.pure false else Value.entriesInM rel y.body s.entries) := by
    simp [Value.equalBy, hs]
  have hplain i : Value.equalBy (.ofRank (rank i)) (rel' i) (.map x) (.map y) =
      if ((x.body.storage (rel' i)).size != (y.body.storage (rel' i)).size) = true then false
      else Value.entriesInM (m := Id) (rel' i) y.body (x.body.storage (rel' i)).entries := by
    rw [hstep, Value.storageOf_ofRank, Value.storageOf_ofRank]
    rfl
  rw [hstep]
  refine T.holds_bind (hm.storageOf x hx hpx) fun s ⟨_, hes, _⟩ => ?_
  refine T.holds_bind (hm.storageOf y hy hpy) fun t _ => ?_
  by_cases hl : (s.size != t.size) = true
  · rw [if_pos hl]
    refine T.holds_pure ?_
    rintro i ⟨-, rfl⟩ ⟨-, rfl⟩
    exact ⟨trivial, ((hplain i).trans (if_pos hl)).symm⟩
  rw [if_neg hl]
  refine T.holds_bind (hm.differ (.map x) (.map y) _ _ hx hy rfl rfl) fun d _ => ?_
  cases d with
  | true => exact T.holds_pure fun i hd _ _ => ⟨trivial, (hd rfl).symm⟩
  | false =>
    refine T.holds_mono (gives_entriesIn hr hpy hes) ?_
    rintro b i ⟨-, rfl⟩ - ⟨-, rfl⟩ ⟨-, rfl⟩
    exact ⟨trivial, ((hplain i).trans (if_neg hl)).symm⟩

theorem gives_equalBy {a b : Value} (ha : W a) (hb : W b) (hpa : ∀ p ∈ a.parts, P p)
    (hpb : ∀ p ∈ b.parts, P p) :
    T.givesAny (Value.equalBy mem rel a b)
      fun i => Value.equalBy (.ofRank (rank i)) (rel' i) a b := by
  have hpairs {xs ys : List Value} (hx : ∀ p ∈ xs, P p) (hy : ∀ p ∈ ys, P p) :=
    gives_allPairs fun a ha b hb => hr.equal a b (hx a ha) (hy b hb)
  by_cases hk : a.kind = b.kind
  · cases a <;> cases b <;> first | (cases hk; done) | exact T.pure trivial | skip
    case list.list x y => exact gives_equalLists hr hm ha hb hpa hpb
    case map.map x y =>
      exact gives_equalMaps hr hm ha hb (Map.all_iff.mpr hpa) (Map.all_iff.mpr hpb)
    case set.set x y => exact gives_equalSets hr hm ha hb hpa hpb
    case record.record x y =>
      simp only [Value.equalBy]
      split
      · exact T.pure trivial
      split
      · exact hpairs hpa hpb
      · exact T.pure trivial
    case tuple.tuple x y =>
      simp only [Value.equalBy]
      split
      · exact T.pure trivial
      refine ite (hr.equal _ _ (hpa _ (Value.tag_mem_parts x)) (hpb _ (Value.tag_mem_parts y)))
        ?_ (T.pure trivial)
      split
      · exact hpairs (fun p hp => hpa p (Value.extra_mem_parts x hp))
          fun p hp => hpb p (Value.extra_mem_parts y hp)
      · exact T.pure trivial
  · have hne {n : Type → Type} [Monad n] (mem : Memory n) (rel : Relations n) :
        Value.equalBy mem rel a b = Pure.pure false := by
      cases a <;> cases b <;> first | rfl | exact absurd rfl hk
    simp only [hne]
    exact T.pure trivial

theorem gives_compareMaps (ht : ∀ i, TransCmp (rel' i).compare) {x y : MapNode}
    (hx : W (.map x)) (hy : W (.map y)) (hpx : x.body.All P) (hpy : y.body.All P) :
    T.givesAny (Value.compareBy mem rel (.map x) (.map y))
      fun i => Value.compareBy (.ofRank (rank i)) (rel' i) (.map x) (.map y) := by
  simp only [Value.compareBy_map]
  simp only [Value.compareBy]
  split
  · rename_i hs
    obtain rfl : x = y := by simpa using Value.isSame_iff.mp hs
    have (i : ι) := ht i
    simp only [ReflCmp.compare_self]
    exact T.pure trivial
  · refine T.bind (g := fun s i => Value.contentOrder (Value.entryOrder (rel' i).compare)
      s.entries (y.body.storage (rel' i)).entries) (hm.storageOf x hx hpx) fun s hs => ?_
    refine T.bind (g := fun t i => Value.contentOrder (Value.entryOrder (rel' i).compare)
      s.entries t.entries) (hm.storageOf y hy hpy) fun t hs' => ?_
    refine gives_then (T.pure trivial) ?_
    refine T.bind (g := fun xs i => List.compareLex (Value.entryOrder (rel' i).compare) xs
      (sorted .eight (Value.entryOrder (rel' i).compare) t.entries))
      (gives_sortEntries hr ht hs) fun xs hxs => ?_
    exact T.bind (g := fun ys i => List.compareLex (Value.entryOrder (rel' i).compare) xs ys)
      (gives_sortEntries hr ht hs') fun ys hys => gives_lexM fun e he f hf =>
        gives_compareEntries hr.compare (hxs e he) (hys f hf)

theorem gives_compareBy (ht : ∀ i, TransCmp (rel' i).compare) {a b : Value} (ha : W a) (hb : W b)
    (hpa : ∀ p ∈ a.parts, P p) (hpb : ∀ p ∈ b.parts, P p) :
    T.givesAny (Value.compareBy mem rel a b)
      fun i => Value.compareBy (.ofRank (rank i)) (rel' i) a b := by
  have hlex {xs ys : List Value} (hx : ∀ p ∈ xs, P p) (hy : ∀ p ∈ ys, P p) :=
    gives_lexM fun a ha b hb => hr.compare a b (hx a ha) (hy b hb)
  by_cases hk : a.kind = b.kind
  · cases a <;> cases b <;> first | (cases hk; done) | exact T.pure trivial | skip
    case fn.fn f g =>
      exact T.bind (g := fun j i => compare j (rank i g)) (hm.number f) fun j _ =>
        map (hm.number g) (compare j) fun _ _ => trivial
    case recur.recur x y =>
      simp only [Value.compareBy_recur]
      exact hlex hpa hpb
    case list.list x y =>
      simp only [Value.compareBy_list]
      simp only [Value.compareBy]
      split
      · rename_i hs
        obtain rfl : x = y := by simpa using Value.isSame_iff.mp hs
        simp only [ReflCmp.compare_self]
        exact T.pure trivial
      · exact hlex hpa hpb
    case tuple.tuple x y =>
      simp only [Value.compareBy_tuple, Tuple.items, List.compareLex_cons_cons]
      refine gives_then
        (hr.compare _ _ (hpa _ (Value.tag_mem_parts x)) (hpb _ (Value.tag_mem_parts y))) ?_
      exact hlex (fun p hp => hpa p (Value.extra_mem_parts x hp))
        fun p hp => hpb p (Value.extra_mem_parts y hp)
    case record.record x y =>
      simp only [Value.compareBy_record, Value.recordOrder]
      refine gives_then (T.pure trivial) (gives_then ?_ (hlex hpa hpb))
      simp only [lexBy, lexM_id]
      exact T.pure trivial
    case set.set x y =>
      simp only [Value.compareBy_set, Value.contentOrder]
      have hsize (s : SetNode) : s.body.size = s.body.elements.length :=
        (List.length_map ..).symm
      simp only [Value.compareBy, hsize]
      refine gives_then (T.pure trivial) ?_
      refine T.bind (g := fun xs i => List.compareLex (rel' i).compare xs
        (sorted .eight (rel' i).compare y.body.elements))
        (gives_sortM ht .eight hpa hr.compare) fun xs hxs => ?_
      exact T.bind (g := fun ys i => List.compareLex (rel' i).compare xs ys)
        (gives_sortM ht .eight hpb hr.compare) fun ys hys => hlex hxs hys
    case map.map x y =>
      exact gives_compareMaps hr hm ht ha hb (Map.all_iff.mpr hpa) (Map.all_iff.mpr hpb)
  · have hne {n : Type → Type} [Monad n] (mem : Memory n) (rel : Relations n) :
        Value.compareBy mem rel a b = Pure.pure (compare a.kind.rank b.kind.rank) := by
      cases a <;> cases b <;> first | rfl | exact absurd rfl hk
    simp only [hne]
    exact T.pure trivial

theorem gives_hashBy (ht : ∀ i, TransCmp (rel' i).compare) {v : Value} (hv : W v)
    (hp : ∀ p ∈ v.parts, P p) :
    T.givesAny (Value.hashBy mem rel v)
      fun i => Value.hashBy (.ofRank (rank i)) (rel' i) v := by
  have hfold {xs : List Value} (hx : ∀ p ∈ xs, P p) :=
    gives_foldM fun a ha => hr.hash a (hx a ha)
  cases v with
  | fn f =>
    exact map (hm.number f) (fun j => Digest.mix (Digest.seed .fn) (UInt64.ofNat j))
      fun _ _ => trivial
  | recur r => exact hfold hp _
  | list l =>
    refine hm.hashOf (.list l) l.node hv rfl _ ?_
    simp only [Value.hashBy_list]
    exact hfold hp _
  | tuple t =>
    refine hm.hashOf (.tuple t) t.node hv rfl _ ?_
    simp only [Value.hashBy_tuple]
    exact hfold hp _
  | record r =>
    refine hm.hashOf (.record r) r.node hv rfl _ ?_
    simp only [Value.hashBy_record]
    exact gives_foldFields (fun f hf => hr.hash f.2 (hp _ (List.mem_map_of_mem hf))) _
  | set s =>
    refine hm.hashOf (.set s) s.node hv rfl _ ?_
    simp only [Value.hashBy_set]
    exact T.bind (g := fun xs i => Digest.foldM (m := Id) (rel' i).hash (Digest.seed .set) xs)
      (gives_sortM ht .eight hp hr.compare) fun xs hxs => hfold hxs _
  | map x =>
    have hx := Map.all_iff.mpr hp
    refine hm.hashOf (.map x) x.node hv rfl _ ?_
    simp only [Value.hashBy_map]
    refine T.bind (g := fun s i => Digest.foldEntriesM (m := Id) (rel' i).hash (Digest.seed .map)
      (sorted .eight (Value.entryOrder (rel' i).compare) s.entries)) (hm.storageOf x hv hx)
      fun s hs => ?_
    refine T.bind (g := fun es i =>
      Digest.foldEntriesM (m := Id) (rel' i).hash (Digest.seed .map) es)
      (gives_sortEntries hr ht hs) fun es hes => ?_
    exact gives_foldEntries (fun e he => ⟨hr.hash _ (hes e he).1, hr.hash _ (hes e he).2⟩) _
  | nil | bool _ | number _ | str _ | tag _ | symbol _ | quote _ | ref _ => exact T.pure trivial

end

end Tracking
end DynVal
