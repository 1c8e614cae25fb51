import DynVal.Proofs.Tracking.Storage
import DynVal.Value

/-!
# Parts of values

The values that a relation may look at when it looks into a value (`Value.parts`). A map has the
keys and values in all its layers as parts, and the values that its layers leave out.

* `depth_lt_of_mem_parts`: the parts of a value are less deep than the value, so statements about
  values go by induction on depth.
* `Value.Every`: a property of a value, of its parts, of their parts and so on.
-/

namespace DynVal

def Map.parts {α : Type} : Map α → List α
  | .flat s => s.entries.flatMap fun e => [e.1, e.2]
  | .chain front skip back _ => front.parts ++ skip.toList ++ back.parts

theorem Map.all_iff {α : Type} {P : α → Prop} {x : Map α} : x.All P ↔ ∀ p ∈ x.parts, P p := by
  induction x with
  | flat s =>
    simp only [Map.All, Map.parts, Tracking.Entry, List.mem_flatMap, List.mem_pair]
    refine ⟨?_, fun h e he => ⟨h _ ⟨e, he, .inl rfl⟩, h _ ⟨e, he, .inr rfl⟩⟩⟩
    rintro h p ⟨e, he, rfl | rfl⟩
    · exact (h e he).1
    · exact (h e he).2
  | chain front skip back depth ihf ihb => simp [Map.All, Map.parts, ihf, ihb, or_imp, forall_and]

theorem Map.All.mono {α : Type} {P Q : α → Prop} {x : Map α} (h : ∀ p, P p → Q p) (hx : x.All P) :
    x.All Q := Map.all_iff.mpr fun p hp => h p (Map.all_iff.mp hx p hp)

namespace Value

def parts : Value → List Value
  | .recur r => r.body
  | .list l => l.body.shown.toList
  | .map m => m.body.parts
  | .set s => s.body.elements
  | .record r => r.body.values
  | .tuple t => t.body.items
  | _ => []

theorem tag_mem_parts (t : TupleNode) : t.body.tag ∈ (Value.tuple t).parts := List.mem_cons_self

theorem extra_mem_parts (t : TupleNode) {p : Value} (h : p ∈ t.body.extra) :
    p ∈ (Value.tuple t).parts := List.mem_cons_of_mem _ h

/-! ## Depth -/

/-- A depth that is a maximum over a list is not exceeded by that of an element. -/
theorem le_of_mem {α : Type} {d : α → Nat} {all : List α → Nat}
    (hcons : ∀ x xs, all (x :: xs) = max (d x) (all xs)) {x : α} {xs : List α} (h : x ∈ xs) :
    d x ≤ all xs := by
  induction h with
  | head xs => rw [hcons]; omega
  | tail y _ ih => rw [hcons]; omega

/-- The same over the items of all buckets. -/
theorem le_of_mem_buckets {α : Type} {d : α → Nat} {all : List α → Nat} {deep : Buckets α → Nat}
    (hcons : ∀ x xs, all (x :: xs) = max (d x) (all xs))
    (hnode : ∀ h xs below above,
      deep (.node h xs below above) = max (all xs) (max (deep below) (deep above)))
    {x : α} {t : Buckets α} (h : x ∈ t.toList) : d x ≤ deep t := by
  induction t with
  | empty => cases h
  | node k xs below above ihb iha =>
    rw [Buckets.toList_node, List.mem_append, List.mem_append] at h
    rw [hnode]
    rcases h with h | h | h
    · have := ihb h
      omega
    · have := le_of_mem hcons h
      omega
    · have := iha h
      omega

theorem depthEntry_le_depthStorage {e : Value × Value} {s : Storage Value Value}
    (h : e ∈ s.entries) : depthEntry e ≤ depthStorage s := by
  cases s with
  | slice es => exact le_of_mem (fun _ _ => rfl) h
  | tree t => exact le_of_mem_buckets (fun _ _ => rfl) (fun _ _ _ _ => rfl) h

theorem depthKey_le_depthMembers {e : Value × Unit} {s : Storage Value Unit}
    (h : e ∈ s.entries) : depthKey e ≤ depthMembers s := by
  cases s with
  | slice es => exact le_of_mem (fun _ _ => rfl) h
  | tree t => exact le_of_mem_buckets (fun _ _ => rfl) (fun _ _ _ _ => rfl) h

theorem depth_le_depthMap {p : Value} {x : Map Value} (h : p ∈ x.parts) :
    p.depth ≤ depthMap x := by
  induction x with
  | flat s =>
    obtain ⟨⟨k, v⟩, he, hp⟩ := List.mem_flatMap.mp h
    have hle := depthEntry_le_depthStorage he
    simp only [depthEntry] at hle
    simp only [depthMap]
    rcases List.mem_pair.mp hp with rfl | rfl <;> omega
  | chain front skip back depth ihf ihb =>
    simp only [Map.parts, List.mem_append, or_assoc] at h
    simp only [depthMap]
    rcases h with h | h | h
    · have := ihf h
      omega
    · cases skip with
      | none => cases h
      | some v =>
        obtain rfl : p = v := by simpa using h
        simp only [depthSkip]
        omega
    · have := ihb h
      omega

theorem depth_lt_of_mem_parts {v p : Value} (h : p ∈ v.parts) : p.depth < v.depth := by
  have hall {xs : List Value} (h : p ∈ xs) : p.depth ≤ depthAll xs := le_of_mem (fun _ _ => rfl) h
  match v, h with
  | .recur ⟨_, xs⟩, h => exact Nat.lt_succ_of_le (hall h)
  | .list ⟨_, .window _ _ _ ⟨xs⟩⟩, h => exact Nat.lt_succ_of_le (hall h)
  | .list ⟨_, .tree ⟨xs⟩⟩, h => exact Nat.lt_succ_of_le (hall h)
  | .map ⟨_, m⟩, h => exact Nat.lt_succ_of_le (depth_le_depthMap h)
  | .set ⟨_, ⟨s⟩⟩, h =>
    obtain ⟨⟨k, _⟩, he, rfl⟩ := List.mem_map.mp h
    have := depthKey_le_depthMembers he
    exact Nat.lt_succ_of_le this
  | .record ⟨_, ⟨_, fs, _⟩⟩, h =>
    obtain ⟨⟨t, w⟩, hf, rfl⟩ := List.mem_map.mp h
    have : depthField (t, w) ≤ depthFields fs := le_of_mem (fun _ _ => rfl) hf
    exact Nat.lt_succ_of_le this
  | .tuple ⟨_, ⟨t, xs, _⟩⟩, h =>
    rcases List.mem_cons.mp h with rfl | h
    · exact Nat.lt_succ_of_le (Nat.le_max_left ..)
    · exact Nat.lt_succ_of_le (Nat.le_trans (hall h) (Nat.le_max_right ..))

/-! ## Properties of all parts -/

/-- A property of a value, of its parts, of their parts and so on. -/
inductive Every (P : Value → Prop) : Value → Prop where
  | intro {v : Value} (here : P v) (parts : ∀ p ∈ v.parts, Every P p) : Every P v

theorem Every.here {P : Value → Prop} {v : Value} : v.Every P → P v
  | .intro h _ => h

theorem Every.parts {P : Value → Prop} {v : Value} : v.Every P → ∀ p ∈ v.parts, p.Every P
  | .intro _ h => h

theorem Every.mono {P Q : Value → Prop} (h : ∀ v, P v → Q v) {v : Value} (hv : v.Every P) :
    v.Every Q := by
  induction hv with
  | intro here _ ih => exact .intro (h _ here) ih

end Value
end DynVal
