import DynVal.Proofs.Storage.Maps

/-!
# The shape of maps

Every operation leaves slices short, and chains with a depth that is the number of their layers and
is small (`Map.Regular`).

When the layers of a map are combined, the result is a map again, and its type does not say that no
layers are left. `Map.squash` combines them in this form: whoever takes the result has to say what
happens to a map with layers (`Map.onFlat`). It never does happen (`Map.squash_onFlat`), whatever
the answer would be.
-/

namespace DynVal

open Entries

namespace Storage

variable {κ ν : Type} {keyed : Keyed Id κ} {s : Storage κ ν}

/-- A slice has no more entries than fit in one. -/
def Short : Storage κ ν → Prop
  | .slice es => es.length ≤ sliceLimit
  | .tree _ => True

theorem short_ofPairs (ps : List (κ × ν)) : (Storage.ofPairs (m := Id) keyed ps).Short := by
  show Short (if ps.length ≤ sliceLimit then Storage.slice (bindAll (m := Id) keyed [] ps)
    else Storage.tree (Storage.insertAll (m := Id) keyed .empty ps))
  split
  · rename_i hlen
    rw [bindAll_eq]
    have hle := length_merge_le keyed.test (fun _ => false) [] ps
    rw [List.length_nil, Nat.zero_add] at hle
    exact hle.trans hlen
  · trivial

theorem Short.assoc (h : s.Short) (k : κ) (v : ν) :
    (Storage.assoc (m := Id) keyed s k v).Short := by
  cases s with
  | tree t => trivial
  | slice es =>
    show Short (match rebind? (m := Id) keyed k v es with
      | some fs => Storage.slice fs
      | none => if es.length < sliceLimit then Storage.slice (es ++ [(k, v)])
        else Storage.tree (Storage.insert (m := Id) keyed
          (Storage.insertAll (m := Id) keyed .empty es) k v))
    rw [rebind_eq]
    by_cases hk : (lookup keyed.test k es).isSome = true
    · rw [if_pos hk]
      show (put keyed.test k v es).length ≤ sliceLimit
      rw [length_put, if_pos hk]
      exact h
    · rw [if_neg hk]
      dsimp only
      split
      · rename_i hlt
        show (es ++ [(k, v)]).length ≤ sliceLimit
        rw [List.length_append]
        exact hlt
      · trivial

theorem Short.dissoc (h : s.Short) (k : κ) : (Storage.dissoc (m := Id) keyed s k).Short := by
  cases s with
  | tree t => trivial
  | slice es =>
    show (without (m := Id) keyed k es).length ≤ sliceLimit
    rw [without_eq]
    exact (List.length_filter_le ..).trans h

end Storage

namespace Map

variable {α : Type} {keyed : Keyed Id α} {x y front back : Map α} {skip : Option α}

/-! ## Layers -/

/-- The number of chain layers, in front as well as in back. -/
def layers : Map α → Nat
  | .flat _ => 0
  | .chain front _ back _ => front.layers + back.layers + 1

/-- The map and all maps in its layers. -/
def submaps : Map α → List (Map α)
  | .flat s => [.flat s]
  | .chain front skip back depth => .chain front skip back depth :: (front.submaps ++ back.submaps)

/-- Slices are short, and chains have as many layers as they say, which are not many. -/
def Regular : Map α → Prop
  | .flat s => s.Short
  | .chain front _ back depth =>
    depth = front.layers + back.layers + 1 ∧ depth ≤ depthLimit ∧ front.Regular ∧ back.Regular

theorem Regular.depth_eq (h : x.Regular) : x.depth = x.layers := by
  cases x with
  | flat s => rfl
  | chain front skip back depth => exact h.1

/-- What a chain hands down to both of its layers holds of all maps in a map. -/
theorem forall_submaps {P : Map α → Prop}
    (hchain : ∀ front skip back depth, P (.chain front skip back depth) → P front ∧ P back)
    (h : P x) : ∀ y ∈ x.submaps, P y := by
  induction x with
  | flat s =>
    intro y hy
    obtain rfl := List.mem_singleton.mp hy
    exact h
  | chain front skip back depth ihf ihb =>
    obtain ⟨hf, hb⟩ := hchain _ _ _ _ h
    exact List.forall_mem_cons.mpr ⟨h, List.forall_mem_append.mpr ⟨ihf hf, ihb hb⟩⟩

theorem Regular.submaps (h : x.Regular) : ∀ y ∈ x.submaps, y.Regular :=
  forall_submaps (fun _ _ _ _ h => h.2.2) h

/-! ## Operations -/

theorem Regular.resolved (h : x.Regular) : (x.resolved (m := Id) keyed : Storage α α).Short := by
  cases x with
  | flat s => exact h
  | chain front skip back depth => trivial

theorem regular_ofPairs (ps : List (α × α)) : Regular (Id.run (Map.ofPairs keyed ps)) :=
  Storage.short_ofPairs ps

theorem Regular.assoc (h : x.Regular) (k v : α) : Regular (Id.run (x.assoc keyed k v)) :=
  Storage.Short.assoc h.resolved k v

theorem Regular.dissoc (h : x.Regular) (k : α) : Regular (Id.run (x.dissoc keyed k)) :=
  Storage.Short.dissoc h.resolved k

theorem regular_diffNew : Regular (Id.run (x.diffNew keyed y)) := Storage.short_ofPairs _

theorem regular_layer (hf : front.Regular) (hb : back.Regular) :
    Regular (layer (m := Id) keyed back front skip) := by
  unfold layer
  dsimp only
  split
  · trivial
  · rename_i hdepth
    refine ⟨?_, Nat.le_of_not_lt hdepth, hf, hb⟩
    rw [hf.depth_eq, hb.depth_eq, Nat.add_comm back.layers]

theorem short_assocAll {s : Storage α α} {done : Option (Storage α α)} (h : (done.getD s).Short)
    (es : List (α × α)) :
    ((Id.run (assocAll? keyed s skip done es)).getD s).Short := by
  induction es generalizing done with
  | nil => exact h
  | cons e es ih =>
    show Storage.Short ((if skips keyed skip e.2 = true then
      Id.run (assocAll? keyed s skip done es)
      else Id.run (assocAll? keyed s skip
        (some (Storage.assoc (m := Id) keyed (done.getD s) e.1 e.2)) es)).getD s)
    split
    · exact ih h
    · exact @ih (some _) (h.assoc e.1 e.2)

/-- Two slices that are merged at once may come to be a tree. -/
theorem regular_merge (hf : front.Regular) (hb : back.Regular) :
    ((Id.run (merge? keyed back front skip)).getD back).Regular := by
  have hlayer := @regular_layer _ keyed _ _ skip hf hb
  match front, back with
  | .chain .., _ => exact hlayer
  | .flat (.tree _), _ => exact hlayer
  | .flat (.slice _), .chain .. => exact hlayer
  | .flat (.slice _), .flat (.tree _) => exact hlayer
  | .flat (.slice fs), .flat (.slice bs) =>
    simp only [merge?]
    split
    · exact hb
    split
    · have hall := @short_assocAll _ keyed skip (.slice bs) none hb fs
      show Regular (Option.getD (Option.map Map.flat
        (Id.run (assocAll? keyed (.slice bs) skip none fs))) _)
      cases hr : Id.run (assocAll? keyed (.slice bs) skip none fs) with
      | none => exact hb
      | some s =>
        rw [hr] at hall
        exact hall
    · exact hlayer

/-! ## Combining layers -/

section Squash

variable {β : Type} {m : Type → Type} [Monad m] (keyed : Keyed m α)

/-- Goes on with the storage of a map without layers; one with layers has another answer. -/
def onFlat (x : Map α) (f : Storage α α → m β) (other : m β) : m β :=
  match x with
  | .flat s => f s
  | .chain .. => other

/-- Combines the layers of a map. Nothing is taken of a front or a back that has layers left. -/
def squash : Map α → m (Map α)
  | .flat s => pure (.flat s)
  | .chain front skip back _ => do
    let lower ← squash back
    let t ← lower.onFlat (fun s => s.toTree keyed) (pure .empty)
    let upper ← squash front
    let es ← upper.onFlat (fun s => pure s.entries) (pure [])
    return .flat (.tree (← overlay keyed skip t es))

variable [LawfulMonad m]

/-- No layers are left. -/
theorem squash_eq (x : Map α) :
    x.squash keyed = (x.resolved keyed >>= fun s => pure (.flat s)) := by
  induction x with
  | flat s => simp [squash, resolved]
  | chain front skip back depth ihf ihb =>
    simp [squash, resolved, ihf, ihb, onFlat]

/-- The combined layers of a chain are a tree. -/
theorem squash_chain (front : Map α) (skip : Option α) (back : Map α) (depth : Nat) :
    ∃ c : m (Buckets (α × α)), (Map.chain front skip back depth).squash keyed =
      (c >>= fun t => pure (.flat (.tree t))) := by
  refine ⟨do
    let lower ← back.resolved keyed
    let t ← lower.toTree keyed
    let upper ← front.resolved keyed
    overlay keyed skip t upper.entries, ?_⟩
  rw [squash_eq]
  simp [resolved]

/-- The answer for a map with layers is not the one that is given. -/
theorem squash_onFlat (x : Map α) (f : Storage α α → m β) (other : m β) :
    (x.squash keyed >>= fun y => y.onFlat f other) = x.resolved keyed >>= f := by
  rw [squash_eq, bind_assoc]
  simp only [pure_bind, onFlat]

end Squash

end Map
end DynVal
