import DynVal.Proofs.Storage.Shape
import DynVal.Proofs.Store.Associations
import DynVal.Proofs.Store.Making

/-!
# The shape of the maps of a history

Maps that come about by the operations on maps, and from records, keep the shape that maps should
have, in all their layers (`Arises.regular`): what is made is the plain map, and the plain
operations leave maps regular. That no two keys of a layer are equal is part of what makes a map
sound.
-/

namespace DynVal

open Entries Memo Op

/-- The maps that come about in a history by the operations on maps, or from a record. -/
inductive Arises (log : Log) : MapNode → Prop where
  | make {ps : List (Value × Value)} {m : MapNode}
    (h : (.makeMap ps, .ok (.value (.map m))) ∈ log) : Arises log m
  | assoc {m n : MapNode} {k v : Value} (hm : Arises log m)
    (h : (.assoc m k v, .ok (.value (.map n))) ∈ log) : Arises log n
  | dissoc {m n : MapNode} {k : Value} (hm : Arises log m)
    (h : (.dissoc m k, .ok (.value (.map n))) ∈ log) : Arises log n
  | merge {m front n : MapNode} {skip : Option Value} (hm : Arises log m) (hf : Arises log front)
    (h : (.merge m front skip, .ok (.value (.map n))) ∈ log) : Arises log n
  | diffNew {m other n : MapNode} (hm : Arises log m) (ho : Arises log other)
    (h : (.diffNew m other, .ok (.value (.map n))) ∈ log) : Arises log n
  | toMap {r : RecordNode} {m : MapNode} (h : (.toMap r, .ok (.value (.map m))) ∈ log) :
    Arises log m

section Arises

variable {s : Store} {log : Log} {g : Stage} {m n : MapNode} {ρ : Ranking} {x : Map Value}

theorem Arises.regular (hn : Arises log n) (hρ : g.numbering.Admits ρ)
    (hmakes : ∀ q r, (q, .ok r) ∈ log → ∀ ρ : Ranking, g.numbering.Admits ρ → q.Makes ρ r) :
    n.body.Regular := by
  have hbody {q : Request} {n : MapNode} {x : Map Value} (h : (q, .ok (.value (.map n))) ∈ log)
      (hx : q.mapUnder ρ = some x) : n.body = x := (hmakes q _ h ρ hρ).body_eq hx
  have hflat {m : MapNode} (hm : m.body.Regular) : (MapNode.flatUnder ρ m).Regular := hm.resolved
  induction hn with
  | make h =>
    rw [hbody h rfl]
    exact Map.regular_ofPairs _
  | assoc _ h ih =>
    rw [hbody h rfl]
    exact (hflat ih).assoc _ _
  | dissoc _ h ih =>
    rw [hbody h rfl]
    exact (hflat ih).dissoc _
  | merge _ _ h ihm ihf =>
    rw [hbody h rfl]
    exact Map.regular_merge ihf ihm
  | diffNew _ _ h _ _ =>
    rw [hbody h rfl]
    exact Map.regular_diffNew
  | toMap h =>
    rw [hbody h rfl]
    exact Map.regular_ofPairs _

theorem Arises.held (hn : Arises log n) : Held log (.map n) := by
  cases hn with
  | make h | assoc _ h | dissoc _ h | merge _ _ h | diffNew _ _ h | toMap h => exact .reply h

/-- No two keys that are stored together are equal. -/
theorem Store.At.distinct_submaps (hs : s.At g) (hm : MapNode.Made g m) {st : Storage Value Value}
    (hx : .flat st ∈ m.body.submaps) : Distinct s.same st.entries := by
  obtain ⟨ρ, hρ⟩ := hs.exists_admitted
  have hsound : (Map.flat st).All (Value.Sound g) :=
    Map.forall_submaps (fun _ _ _ _ h => ⟨h.1, h.2.2⟩) (MapNode.all_sound hm) _ hx
  have hlawful : (Map.flat st).Lawful (keysUnder ρ) :=
    Map.forall_submaps (fun _ _ _ _ h => h) (MapNode.holds_of_sound hm hρ).lawful _ hx
  refine hlawful.distinct.imp_of_mem fun he hf hne => ?_
  rw [hs.same_eq_test hρ _ _ (hsound _ he).1 (hsound _ hf).1]
  exact hne

/-- What is kept of the combined layers of a map has no layers, and is a tree if there were some. -/
theorem Store.At.flat_isTree (hs : s.At g) (hm : MapNode.Made g m)
    (hchain : m.body.isChain = true) : (Memo.flat m s.memo).1.isTree = true := by
  obtain ⟨g', y, ρ, hy, ⟨-, hflat⟩, hρ, -⟩ :=
    (yields_gives (MapNode.gives_flat hm)).exists_admitted hs
  have hy : (Memo.flat m s.memo).1 = y := Except.ok.inj hy
  rw [hy, hflat ρ hρ, MapNode.flatUnder]
  cases hbody : m.body with
  | flat st =>
    rw [hbody] at hchain
    cases hchain
  | chain front skip back depth => rfl

end Arises

/-- Slices are short, no two keys of a layer are equal, and a chain has as many layers as it says,
which are few. Combining layers leaves none, so what an operation would answer on a map that has
layers left does not matter. -/
theorem maps_stay_regular {host : Host} {s : Store} {log : Log} (h : History host s log)
    {n : MapNode} (hn : Arises log n) :
    -- every map in the layers
    (∀ x ∈ n.body.submaps,
      (∀ es, x = .flat (.slice es) → es.length ≤ 16) ∧
      (∀ st, x = .flat st → Distinct s.same st.entries) ∧
      (x.isChain = true → x.depth = x.layers ∧ 1 ≤ x.depth ∧ x.depth ≤ 5) ∧
      -- with its layers combined
      (∀ memo, let y := (x.squash Memo.keyed memo).1
        y.isChain = false ∧ (x.isChain = true → y.isTree = true)) ∧
      -- and what is done with the result, whatever else it would be for one with layers
      (∀ (k : Value) (other : StateM Memo Bool), x.contains Memo.keyed k =
        (x.squash Memo.keyed >>= fun y => y.onFlat (fun st => st.contains Memo.keyed k) other)) ∧
      (∀ (k v : Value) (other : StateM Memo (Map Value)), x.assoc Memo.keyed k v =
        (x.squash Memo.keyed >>= fun y =>
          y.onFlat (fun st => return .flat (← st.assoc Memo.keyed k v)) other)) ∧
      (∀ (k : Value) (other : StateM Memo (Map Value)), x.dissoc Memo.keyed k =
        (x.squash Memo.keyed >>= fun y =>
          y.onFlat (fun st => return .flat (← st.dissoc Memo.keyed k)) other)) ∧
      (∀ other : StateM Memo (Buckets (Value × Value)),
        (x.resolved Memo.keyed >>= fun st => st.toTree Memo.keyed) =
          (x.squash Memo.keyed >>= fun y => y.onFlat (fun st => st.toTree Memo.keyed) other))) ∧
    -- the combined layers that the operations at nodes work on
    (Memo.flat n s.memo).1.isChain = false ∧
    (n.body.isChain = true → (Memo.flat n s.memo).1.isTree = true) := by
  obtain ⟨g, hs, hk, hmakes⟩ := h.exists_stage_makes
  obtain ⟨ρ, hρ⟩ := hs.exists_admitted
  have hmade := hk.held hn.held
  have hregular := (hn.regular hρ hmakes).submaps
  refine ⟨fun x hx => ⟨?_, ?_, fun hchain => ?_, fun memo => ?_, fun k other => ?_,
    fun k v other => ?_, fun k other => ?_, fun other => ?_⟩, rfl, hs.flat_isTree hmade⟩
  · rintro es rfl
    exact hregular _ hx
  · rintro st rfl
    exact hs.distinct_submaps hmade hx
  · have hx := hregular x hx
    refine ⟨hx.depth_eq, ?_⟩
    cases x with
    | flat st => cases hchain
    | chain front skip back depth =>
      obtain ⟨hdepth, hle, -⟩ := hx
      exact ⟨hdepth ▸ Nat.le_add_left 1 _, hle⟩
  · cases x with
    | flat st => exact ⟨rfl, nofun⟩
    | chain front skip back depth =>
      obtain ⟨c, hc⟩ := Map.squash_chain Memo.keyed front skip back depth
      rw [hc]
      exact ⟨rfl, fun _ => rfl⟩
  · exact (Map.squash_onFlat Memo.keyed x _ other).symm
  · exact (Map.squash_onFlat Memo.keyed x _ other).symm
  · exact (Map.squash_onFlat Memo.keyed x _ other).symm
  · exact (Map.squash_onFlat Memo.keyed x _ other).symm

/-- Two chains laid over each other, of maps that were given the same pair too often for a slice. -/
theorem maps_stay_regular_chains :
    let ps : List (Value × Value) := List.replicate 17 (.nil, .nil)
    let tree : Map Value := .flat (.tree (.node 9789011507286733014 [(.nil, .nil)] .empty .empty))
    let chain : Map Value := .chain tree none tree 1
    let m : MapNode := ⟨0, tree⟩
    let l : MapNode := ⟨1, chain⟩
    let n : MapNode := ⟨2, .chain chain (some .nil) chain 3⟩
    let log : Log := [(.merge l l (some .nil), .ok (.value (.map n))),
      (.merge m m none, .ok (.value (.map l))), (.makeMap ps, .ok (.value (.map m)))]
    ∃ s, History default s log ∧ Arises log n ∧
      n.body.isChain = true ∧ n.body.depth = n.body.layers ∧
      1 ≤ n.body.depth ∧ n.body.depth ≤ 5 := by
  intro ps tree chain m l n log
  let first : Log := [(.makeMap ps, .ok (.value (.map m)))]
  let second : Log := (.merge m m none, .ok (.value (.map l))) :: first
  have hscalars : ∀ v ∈ (Request.makeMap ps).operands, Held [] v := fun v hv =>
    .scalar ((by decide : ∀ v ∈ (Request.makeMap ps).operands, v.level = 0) v hv)
  have hm : Held first (.map m) := Held.reply (q := .makeMap ps) (by simp [first])
  have hl : Held second (.map l) := Held.reply (q := .merge m m none) (by simp [second])
  have hfirst : History default _ first := History.start.ask _ hscalars
  have hsecond : History default _ second := hfirst.ask (.merge m m none) (by
    simp only [Request.operands, Option.toList_none, List.forall_mem_cons]
    exact ⟨hm, hm, by simp⟩)
  have hlog : History default _ log := hsecond.ask (.merge l l (some .nil)) (by
    simp only [Request.operands, Option.toList_some, List.forall_mem_cons]
    exact ⟨hl, hl, .scalar rfl, by simp⟩)
  have ham : Arises log m := @Arises.make _ ps m (by simp [log])
  have hal : Arises log l := @Arises.merge _ m m l none ham ham (by simp [log])
  have han : Arises log n := @Arises.merge _ l l n (some .nil) hal hal (by simp [log])
  exact ⟨_, hlog, han, rfl, ((maps_stay_regular hlog han).1 n.body List.mem_cons_self).2.2.1 rfl⟩

end DynVal
