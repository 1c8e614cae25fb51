import Mathlib.Order.Defs.Unbundled
import DynVal.Proofs.Wire.Nodes
import DynVal.Wire.Encode

/-!
# What operations do to the store

Where the steps of an operation all lead along a relation between stores that is reflexive and
transitive, so does the operation (`Op.Moves`), whether or not it has a result.

* `Op.Basics`: the steps that values are made by.
* `Wire.moves_decode`: the steps of decoding are that a value is made of others, or a cell of one.
-/

namespace DynVal

variable {α β : Type}

/-! ## Along a relation -/

/-- The operation leads along a relation, whether or not it has a result. -/
def Op.Moves (R : Store → Store → Prop) (op : Op α) : Prop := ∀ s, R s (op s).2

section Moves

variable {R : Store → Store → Prop}

namespace Op

theorem moves_bind [IsTrans Store R] {op : Op α} {next : α → Op β} (h : op.Moves R)
    (hn : ∀ a, (next a).Moves R) : (op >>= next).Moves R := by
  intro s
  show R s (ExceptT.bindCont next (op s).1 (op s).2).2
  cases (op s).1 with
  | ok a => exact IsTrans.trans _ _ _ (h s) (hn a _)
  | error e => exact h s

variable [Std.Refl R]

theorem moves_pure (a : α) : (pure a : Op α).Moves R := fun s => Std.Refl.refl s

theorem moves_throw (h : Halt) : (throw h : Op α).Moves R := fun s => Std.Refl.refl s

theorem moves_ofExcept : ∀ r : Except Error α, (ofExcept r).Moves R
  | .ok a => moves_pure a
  | .error e => moves_throw (.error e)

theorem moves_get : (get : Op Store).Moves R := fun s => Std.Refl.refl s

/-- The steps that values are made by lead along a relation: a node is taken, a backing is added and
the memo is worked on. -/
structure Basics (R : Store → Store → Prop) : Prop where
  share : ∀ {β : Type} (body : β), (Op.share body).Moves R
  memo : ∀ {β : Type} (f : StateM Memo β), (withMemo f).Moves R
  backing : ∀ items : Array Value, (withBackings fun bs => Sequence.ofArray bs items).Moves R

section Basics

variable [IsTrans Store R] (h : Basics R)
include h

theorem moves_ofList (xs : List Value) : (Value.ofList xs).Moves R :=
  moves_bind (moves_bind (h.backing _) fun _ => h.share _) fun _ => moves_pure _

theorem moves_ofElements (xs : List Value) : (Value.ofElements xs).Moves R :=
  moves_bind (moves_bind (h.memo _) fun _ => h.share _) fun _ => moves_pure _

theorem moves_ofPairs (ps : List (Value × Value)) : (Value.ofPairs ps).Moves R :=
  moves_bind (moves_bind (h.memo _) fun _ => h.share _) fun _ => moves_pure _

theorem moves_makeRecord (name : Tag) (fs : List (Tag × Value)) :
    (RecordNode.make name fs).Moves R :=
  moves_bind (moves_ofExcept _) fun _ => h.share _

theorem moves_ofTuple (tag : Value) (extra : List Value) (impls : List (Record Value)) :
    (Value.ofTuple tag extra impls).Moves R :=
  moves_bind (h.share _) fun _ => moves_pure _

theorem moves_finite (t : OptionT (StateM Memo) String) : (finite t).Moves R :=
  moves_bind (h.memo _) fun
    | some t => moves_pure t
    | none => moves_throw .endless

theorem moves_text (v : Value) : (text v).Moves R :=
  moves_bind moves_get fun _ => moves_finite h _

theorem moves_encode (v : Value) : (Wire.encode v).Moves R :=
  moves_bind moves_get fun _ => moves_bind (h.memo _) fun
    | .ok c => moves_pure c
    | .error e => moves_throw e

end Basics

end Op

namespace Wire

open Op

/-- The steps of decoding lead along a relation. -/
structure Makes (R : Store → Store → Prop) : Prop where
  list : ∀ xs, (Value.ofList xs).Moves R
  set : ∀ xs, (Value.ofElements xs).Moves R
  map : ∀ ps, (Value.ofPairs ps).Moves R
  record : ∀ name ps, (RecordNode.make name ps).Moves R
  tuple : ∀ tag extra impls, (Value.ofTuple tag extra impls).Moves R
  cell : ∀ v, (Cells.create v).Moves R

variable [Std.Refl R]

theorem moves_undecodable (node : Cirru) (reason : String) :
    (undecodable node reason : Op α).Moves R := moves_throw _

theorem moves_expectTag (node : Cirru) (what : String) (c : Cirru) :
    (expectTag node what c).Moves R := by
  unfold expectTag
  split
  · exact moves_pure _
  · exact moves_undecodable _ _

variable [IsTrans Store R]

theorem moves_decodeAll {mode : Mode} :
    ∀ {cs : List Cirru}, (∀ c ∈ cs, (decode mode c).Moves R) → (decodeAll mode cs).Moves R := by
  intro cs
  induction cs with
  | nil => exact fun _ => moves_pure _
  | cons c cs ih =>
    intro h
    refine moves_bind (h c (by simp)) fun _ => ?_
    exact moves_bind (ih fun d hd => h d (by simp [hd])) fun _ => moves_pure _

theorem moves_decodePairs {mode : Mode} (node : Cirru) :
    ∀ {cs : List Cirru},
      (∀ k v, .list [k, v] ∈ cs → (decode mode k).Moves R ∧ (decode mode v).Moves R) →
      (decodePairs mode node cs).Moves R := by
  intro cs
  induction cs with
  | nil => exact fun _ => moves_pure _
  | cons c cs ih =>
    intro h
    unfold decodePairs
    split
    · exact moves_pure _
    · rename_i k v rest heq
      obtain ⟨rfl, rfl⟩ := List.cons.inj heq
      obtain ⟨hk, hv⟩ := h k v (by simp)
      refine moves_bind hk fun _ => moves_bind hv fun _ => ?_
      exact moves_bind (ih fun k v hd => h k v (by simp [hd])) fun _ => moves_pure _
    · exact moves_undecodable _ _

theorem moves_decodeFields {mode : Mode} (node : Cirru) :
    ∀ {cs : List Cirru}, (∀ k v, .list [k, v] ∈ cs → (decode mode v).Moves R) →
      (decodeFields mode node cs).Moves R := by
  intro cs
  induction cs with
  | nil => exact fun _ => moves_pure _
  | cons c cs ih =>
    intro h
    unfold decodeFields
    split
    · exact moves_pure _
    · rename_i k v rest heq
      obtain ⟨rfl, rfl⟩ := List.cons.inj heq
      refine moves_bind (moves_expectTag _ _ k) fun _ => moves_bind (h k v (by simp)) fun _ => ?_
      exact moves_bind (ih fun k v hd => h k v (by simp [hd])) fun _ => moves_pure _
    · exact moves_undecodable _ _

theorem makes_of_basics (h : Basics R) (hcell : ∀ v, (Cells.create v).Moves R) : Makes R where
  list := moves_ofList h
  set := moves_ofElements h
  map := moves_ofPairs h
  record := moves_makeRecord h
  tuple := moves_ofTuple h
  cell := hcell

/-- Decoding goes through a tree, and what it does to the store it does by making values. -/
theorem moves_decode (hm : Makes R) (mode : Mode) (c : Cirru) : (decode mode c).Moves R := by
  induction c using node_induction with
  | leaf s =>
    rw [decode_leaf]
    exact moves_ofExcept _
  | list cs ih =>
    rw [decode_list]
    exact moves_bind (moves_decodeAll ih) hm.list
  | set cs ih =>
    rw [decode_set]
    exact moves_bind (moves_decodeAll ih) hm.set
  | map cs ih =>
    rw [decode_map]
    exact moves_bind (moves_decodePairs _ ih) hm.map
  | record name cs ih =>
    rw [decode_record]
    refine moves_bind (moves_expectTag _ _ _) fun tag => ?_
    refine moves_bind (moves_decodeFields _ ih) fun ps => ?_
    exact moves_bind (hm.record tag ps) fun _ => moves_pure _
  | tuple head cs ihh ih =>
    rw [decode_tuple]
    exact moves_bind ihh fun tag => moves_bind (moves_decodeAll ih) fun xs => hm.tuple tag xs []
  | quote c =>
    rw [decode_quote]
    exact moves_pure _
  | atom c ih =>
    rw [decode_atom]
    exact moves_bind ih fun v => moves_bind (hm.cell v) fun _ => moves_pure _
  | inner c ih =>
    rw [decode_inner]
    exact ih
  | other c hn =>
    obtain ⟨node, reason, h⟩ := decode_of_not_node hn mode
    rw [h]
    exact moves_throw _

end Wire

end Moves

end DynVal
