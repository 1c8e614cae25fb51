import DynVal.Wire.Decode

/-!
# The nodes that decoding knows

A leaf, or a list that starts with one of eight markers and has as many items as go with it
(`Wire.Node`). For each of them one equation says what decoding does; any other tree is refused at
once (`Wire.decode_of_not_node`).

* `Wire.node_induction`: what holds of a node if it holds of the trees that are decoded for it holds
  of all trees.
-/

namespace DynVal.Wire

section Equations

variable (mode : Mode) (c : Cirru) (cs : List Cirru)

theorem decode_leaf (s : String) : decode mode (.leaf s) = Op.ofExcept (decodeLeaf mode s) := by
  unfold decode
  rfl

theorem decode_list : decode mode (.list (.leaf "[]" :: cs)) =
    decodeAll mode cs >>= Value.ofList := by
  unfold decode
  rfl

theorem decode_set : decode mode (.list (.leaf "#\x7b\x7d" :: cs)) =
    decodeAll mode cs >>= Value.ofElements := by
  unfold decode
  rfl

theorem decode_map : decode mode (.list (.leaf "\x7b\x7d" :: cs)) =
    decodePairs mode (.list (.leaf "\x7b\x7d" :: cs)) cs >>= Value.ofPairs := by
  unfold decode
  rfl

theorem decode_record : decode mode (.list (.leaf "%\x7b\x7d" :: c :: cs)) = (do
    let tag ← expectTag (.list (.leaf "%\x7b\x7d" :: c :: cs)) "record name" c
    let fs ← decodeFields mode (.list (.leaf "%\x7b\x7d" :: c :: cs)) cs
    return .record (← RecordNode.make tag fs)) := by
  rw [decode]
  rfl

theorem decode_tuple : decode mode (.list (.leaf "::" :: c :: cs)) = (do
    let tag ← decode mode c
    Value.ofTuple tag (← decodeAll mode cs) []) := by
  rw [decode]
  rfl

theorem decode_quote : decode mode (.list [.leaf "quote", c]) = pure (.quote c) := by
  rw [decode]
  rfl

theorem decode_atom : decode mode (.list [.leaf "atom", c]) = (do
    return .ref (← Cells.create (← decode mode c))) := by
  rw [decode]
  rfl

theorem decode_inner : decode mode (.list [.leaf "do", c]) = decode mode c := by
  rw [decode]
  rfl

end Equations

/-- A leaf, or a list with a marker and as many items as go with it. -/
inductive Node : Cirru → Prop where
  | leaf (s : String) : Node (.leaf s)
  | list (cs : List Cirru) : Node (.list (.leaf "[]" :: cs))
  | set (cs : List Cirru) : Node (.list (.leaf "#\x7b\x7d" :: cs))
  | map (cs : List Cirru) : Node (.list (.leaf "\x7b\x7d" :: cs))
  | record (name : Cirru) (cs : List Cirru) : Node (.list (.leaf "%\x7b\x7d" :: name :: cs))
  | tuple (head : Cirru) (cs : List Cirru) : Node (.list (.leaf "::" :: head :: cs))
  | quote (c : Cirru) : Node (.list [.leaf "quote", c])
  | atom (c : Cirru) : Node (.list [.leaf "atom", c])
  | inner (c : Cirru) : Node (.list [.leaf "do", c])

/-- Anything else is refused at once. -/
theorem decode_of_not_node {c : Cirru} (h : ¬ Node c) (mode : Mode) :
    ∃ node reason, decode mode c = Op.fail (.undecodable node reason) := by
  match c with
  | .leaf s => exact absurd (.leaf s) h
  | .list [] => exact ⟨_, _, rfl⟩
  | .list (.list _ :: _) => exact ⟨_, _, rfl⟩
  | .list (.leaf marker :: rest) =>
    unfold decode
    dsimp only
    split
    · subst_vars
      exact absurd (.list rest) h
    split
    · subst_vars
      exact absurd (.set rest) h
    split
    · subst_vars
      exact absurd (.map rest) h
    split
    · subst_vars
      split
      · exact ⟨_, _, rfl⟩
      · exact absurd (.record _ _) h
    split
    · subst_vars
      split
      · exact ⟨_, _, rfl⟩
      · exact absurd (.tuple _ _) h
    split
    · subst_vars
      split
      · exact absurd (.quote _) h
      · exact ⟨_, _, rfl⟩
    split
    · subst_vars
      split
      · exact absurd (.atom _) h
      · exact ⟨_, _, rfl⟩
    split
    · subst_vars
      split
      · exact absurd (.inner _) h
      · exact ⟨_, _, rfl⟩
    · exact ⟨_, _, rfl⟩

theorem sizeOf_lt_of_mem {c h : Cirru} {cs : List Cirru} (hc : c ∈ cs) :
    sizeOf c < sizeOf (Cirru.list (h :: cs)) := by
  have := List.sizeOf_lt_of_mem hc
  simp only [Cirru.list.sizeOf_spec, List.cons.sizeOf_spec]
  omega

theorem node_induction {motive : Cirru → Prop} (leaf : ∀ s, motive (.leaf s))
    (list : ∀ cs, (∀ c ∈ cs, motive c) → motive (.list (.leaf "[]" :: cs)))
    (set : ∀ cs, (∀ c ∈ cs, motive c) → motive (.list (.leaf "#\x7b\x7d" :: cs)))
    (map : ∀ cs, (∀ k v, .list [k, v] ∈ cs → motive k ∧ motive v) →
      motive (.list (.leaf "\x7b\x7d" :: cs)))
    (record : ∀ name cs, (∀ k v, .list [k, v] ∈ cs → motive v) →
      motive (.list (.leaf "%\x7b\x7d" :: name :: cs)))
    (tuple : ∀ head cs, motive head → (∀ c ∈ cs, motive c) →
      motive (.list (.leaf "::" :: head :: cs)))
    (quote : ∀ c, motive (.list [.leaf "quote", c]))
    (atom : ∀ c, motive c → motive (.list [.leaf "atom", c]))
    (inner : ∀ c, motive c → motive (.list [.leaf "do", c]))
    (other : ∀ c, ¬ Node c → motive c) (c : Cirru) : motive c := by
  induction hsize : sizeOf c using Nat.strongRecOn generalizing c with
  | _ n ih =>
    subst hsize
    have hitem {h d : Cirru} {cs : List Cirru} (hc : c = .list (h :: cs)) (hd : d ∈ cs) :
        motive d := ih _ (hc ▸ sizeOf_lt_of_mem hd) d rfl
    have hpair {h k v d : Cirru} {cs : List Cirru} (hc : c = .list (h :: cs))
        (hkv : .list [k, v] ∈ cs) (hd : d ∈ [k, v]) : motive d := by
      refine ih _ ?_ d rfl
      have hlt : sizeOf d < sizeOf (Cirru.list [k, v]) := by
        simp only [List.mem_cons, List.not_mem_nil, or_false] at hd
        rcases hd with rfl | rfl
        · simp only [Cirru.list.sizeOf_spec, List.cons.sizeOf_spec]
          omega
        · exact sizeOf_lt_of_mem List.mem_cons_self
      exact Nat.lt_trans hlt (hc ▸ sizeOf_lt_of_mem hkv)
    by_cases hn : Node c
    · cases hn with
      | leaf s => exact leaf s
      | list cs => exact list cs fun c hc => hitem rfl hc
      | set cs => exact set cs fun c hc => hitem rfl hc
      | map cs => exact map cs fun k v hc => ⟨hpair rfl hc (by simp), hpair rfl hc (by simp)⟩
      | record name cs =>
        exact record name cs fun k v hc => hpair rfl (List.mem_cons_of_mem _ hc) (by simp)
      | tuple head cs =>
        exact tuple head cs (hitem rfl List.mem_cons_self) fun c hc =>
          hitem rfl (List.mem_cons_of_mem _ hc)
      | quote c => exact quote c
      | atom c => exact atom c (hitem rfl List.mem_cons_self)
      | inner c => exact inner c (hitem rfl List.mem_cons_self)
    · exact other c hn

end DynVal.Wire
