import DynVal.Proofs.Relations.Equality
import DynVal.Wire.Encode

/-!
# Encoded forms without effects

`Wire.formAt` is what encoding gives down to a depth when the layers of maps are read and values are
compared without effects. Which tree comes out, if one does, is said by the trees of the contents
(`Wire.FormBy`, `Wire.formAt_succ_iff`).

* `formAt_unique`: no two depths give different trees.
* `exists_formBy`: a scalar or a collection has a tree if its contents do.
* `throughout_of_formAt`: what a value with a tree holds has a tree, down to the last part.
-/

namespace DynVal.Wire

open Std Value

/-- Literal values first, then by key. -/
def entryOrder (cmp : Value → Value → Ordering) (a b : Value × Value) : Ordering :=
  (literalFirst a.2 b.2).then (cmp a.1 b.1)

theorem compareEntries_id (cmp : Value → Value → Ordering) :
    compareEntries (m := Id) cmp = entryOrder cmp := by
  funext a b
  exact thenM_id _ _

instance transCmp_literalFirst : TransCmp literalFirst where
  eq_swap {_ _} := @OrientedCmp.eq_swap _ (compare (α := Bool)) _ _ _
  isLE_trans {_ _ _} h h' := @TransCmp.isLE_trans _ (compare (α := Bool)) _ _ _ _ h' h

instance transCmp_entryOrder {cmp : Value → Value → Ordering} [TransCmp cmp] :
    TransCmp (entryOrder cmp) :=
  have := transCmp_on (Prod.snd (α := Value) (β := Value)) literalFirst
  have := transCmp_on (Prod.fst (α := Value) (β := Value)) cmp
  inferInstanceAs (TransCmp (compareLex (fun a b : Value × Value => literalFirst a.2 b.2)
    fun a b : Value × Value => cmp a.1 b.1))

instance transCmp_compareFields : TransCmp compareFields :=
  have := transCmp_on (Prod.snd (α := Tag) (β := Value)) literalFirst
  have := transCmp_on (Prod.fst (α := Tag) (β := Value)) Tag.compare
  inferInstanceAs (TransCmp (compareLex (fun a b : Tag × Value => literalFirst a.2 b.2)
    fun a b : Tag × Value => a.1.compare b.1))

/-! ## Contents in the order in which they are encoded -/

section Sorted

variable (rank : Fn → Nat)

def sortedEntries (x : MapNode) : List (Value × Value) :=
  sorted .eight (entryOrder (order rank)) (entriesUnder rank x)

def sortedElements (s : SetNode) : List Value := sorted .eight (order rank) s.body.elements

def sortedFields (r : RecordNode) : List (Tag × Value) := sortBy compareFields r.body.fields

variable {rank}

theorem sortedEntries_perm (x : MapNode) : (sortedEntries rank x).Perm (entriesUnder rank x) :=
  sorted_perm .eight _

theorem sortedElements_perm (s : SetNode) : (sortedElements rank s).Perm s.body.elements :=
  sorted_perm .eight _

theorem sortedFields_perm (r : RecordNode) : (sortedFields r).Perm r.body.fields := by
  rw [sortedFields, sortBy_eq_sorted]
  exact sorted_perm .four _

theorem mem_sortedEntries {x : MapNode} {e : Value × Value} (h : e ∈ sortedEntries rank x) :
    e.1 ∈ contents (entriesUnder rank) (.map x) ∧ e.2 ∈ contents (entriesUnder rank) (.map x) :=
  mem_contents_map ((sortedEntries_perm x).mem_iff.mp h)

theorem mem_sortedElements {s : SetNode} {p : Value} (h : p ∈ sortedElements rank s) :
    p ∈ contents (entriesUnder rank) (.set s) := (sortedElements_perm s).mem_iff.mp h

theorem mem_sortedFields {r : RecordNode} {f : Tag × Value} (h : f ∈ sortedFields r) :
    f.2 ∈ contents (entriesUnder rank) (.record r) :=
  List.mem_map_of_mem ((sortedFields_perm r).mem_iff.mp h)

end Sorted

/-! ## Results without effects -/

section Results

variable {α β ε : Type} {c : ExceptT ε Id α} {k : α → ExceptT ε Id β} {a : α} {b : β}

theorem run_pure_iff {a' : α} : Id.run (pure a : ExceptT ε Id α).run = .ok a' ↔ a = a' :=
  Except.ok.injEq a a' ▸ Iff.rfl

theorem run_bind_iff :
    Id.run (c >>= k).run = .ok b ↔ ∃ a, Id.run c.run = .ok a ∧ Id.run (k a).run = .ok b := by
  rw [ExceptT.run_bind]
  cases h : Id.run c.run with
  | ok a => simp [h]
  | error e => simp [h]

theorem run_lift_iff {c : Id α} :
    Id.run (ExceptT.lift c : ExceptT ε Id α).run = .ok a ↔ Id.run c = a :=
  Except.ok.injEq (Id.run c) a ▸ Iff.rfl

theorem run_mapM_iff {f : α → ExceptT ε Id β} {xs : List α} {ys : List β} :
    Id.run (xs.mapM f).run = .ok ys ↔
      List.Forall₂ (fun x y => Id.run (f x).run = .ok y) xs ys := by
  induction xs generalizing ys with
  | nil => simp [eq_comm]
  | cons x xs ih =>
    simp only [List.mapM_cons, run_bind_iff, run_pure_iff, ih, List.forall₂_cons_left_iff]
    constructor
    · rintro ⟨y, hy, ys, hys, rfl⟩
      exact ⟨y, ys, hy, hys, rfl⟩
    · rintro ⟨y, ys, hy, hys, rfl⟩
      exact ⟨y, hy, ys, hys, rfl⟩

end Results

/-! ## Trees by the trees of contents -/

section Forms

variable {E E' : Value → Cirru → Prop}

/-- An entry of a map as a tree. -/
def EntryForm (E : Value → Cirru → Prop) (e : Value × Value) (c : Cirru) : Prop :=
  ∃ k v, E e.1 k ∧ E e.2 v ∧ c = .list [k, v]

/-- A field of a record as a tree. -/
def FieldForm (E : Value → Cirru → Prop) (f : Tag × Value) (c : Cirru) : Prop :=
  ∃ v, E f.2 v ∧ c = .list [leaf f.1.text, v]

/-- The tree of a value, where `E` says which tree each of the contents has. -/
inductive FormBy (rank : Fn → Nat) (content : Ref → Value) (E : Value → Cirru → Prop) :
    Value → Cirru → Prop where
  | nil : FormBy rank content E .nil (leaf "nil")
  | bool (b : Bool) : FormBy rank content E (.bool b) (leaf (if b then "true" else "false"))
  | number {n : Number} (h : n.isFinite = true) : FormBy rank content E (.number n) (leaf n.text)
  | str (s : String) : FormBy rank content E (.str s) (leaf ("|" ++ s))
  | tag (t : Tag) : FormBy rank content E (.tag t) (leaf t.text)
  | symbol (s : Symbol) : FormBy rank content E (.symbol s) (leaf s.text)
  | quote (c : Cirru) : FormBy rank content E (.quote c) (.list [leaf "quote", c])
  | ref {r : Ref} {c : Cirru} (h : E (content r) c) :
    FormBy rank content E (.ref r) (.list [leaf "atom", c])
  | list {l : ListNode} {cs : List Cirru} (h : List.Forall₂ E l.body.shown.toList cs) :
    FormBy rank content E (.list l) (.list (leaf "[]" :: cs))
  | map {x : MapNode} {cs : List Cirru} (h : List.Forall₂ (EntryForm E) (sortedEntries rank x) cs) :
    FormBy rank content E (.map x) (.list (leaf "\x7b\x7d" :: cs))
  | set {s : SetNode} {cs : List Cirru} (h : List.Forall₂ E (sortedElements rank s) cs) :
    FormBy rank content E (.set s) (.list (leaf "#\x7b\x7d" :: cs))
  | record {r : RecordNode} {cs : List Cirru} (h : List.Forall₂ (FieldForm E) (sortedFields r) cs) :
    FormBy rank content E (.record r) (.list (leaf "%\x7b\x7d" :: leaf r.body.name.text :: cs))
  | tuple {t : TupleNode} {cs : List Cirru} (h : List.Forall₂ E t.body.items cs) :
    FormBy rank content E (.tuple t) (.list (leaf "::" :: cs))

/-- The contents of a value may be encoded in another way that gives the same trees. -/
theorem FormBy.mono {rank : Fn → Nat} {content : Ref → Value} {v : Value} {c : Cirru}
    (h : FormBy rank content E v c)
    (hv : ∀ p ∈ v.contents (entriesUnder rank), ∀ i, E p i → E' p i)
    (hr : ∀ r i, E (content r) i → E' (content r) i) : FormBy rank content E' v c := by
  cases h with
  | number h => exact .number h
  | ref h => exact .ref (hr _ _ h)
  | list h => exact .list (forall₂_mono (fun p hp i _ => hv p hp i) h)
  | set h => exact .set (forall₂_mono (fun p hp i _ => hv p (mem_sortedElements hp) i) h)
  | tuple h => exact .tuple (forall₂_mono (fun p hp i _ => hv p hp i) h)
  | map h =>
    refine .map (forall₂_mono (fun e he i _ => ?_) h)
    rintro ⟨k, w, hk, hw, rfl⟩
    exact ⟨k, w, hv _ (mem_sortedEntries he).1 k hk, hv _ (mem_sortedEntries he).2 w hw, rfl⟩
  | record h =>
    refine .record (forall₂_mono (fun f hf i _ => ?_) h)
    rintro ⟨w, hw, rfl⟩
    exact ⟨w, hv _ (mem_sortedFields hf) w hw, rfl⟩
  | _ => constructor

end Forms

/-! ## The form of a value down to a depth -/

section FormAt

variable {rank : Fn → Nat} {content : Ref → Value} {text : Value → OptionT Id String} {d d' : Nat}
  {v : Value} {c c' : Cirru}

/-- The encoded form down to a depth, or the error that is reported in its place. -/
def formAt (rank : Fn → Nat) (content : Ref → Value) (text : Value → OptionT Id String) (d : Nat)
    (v : Value) : Except Halt Cirru :=
  Id.run (encodeAt (entriesUnder rank) (order rank) content text d v).run

theorem run_unencodable (text : Value → OptionT Id String) (v : Value) (c : Cirru) :
    Id.run (unencodable text v).run ≠ .ok c := by
  rw [unencodable, ne_eq, run_bind_iff]
  rintro ⟨t, -, h⟩
  cases t <;> cases h

theorem run_encodeEntry_iff {enc : Value → ExceptT Halt Id Cirru} {e : Value × Value} :
    Id.run (encodeEntry enc e).run = .ok c ↔
      EntryForm (fun p i => Id.run (enc p).run = .ok i) e c := by
  simp only [encodeEntry, run_bind_iff, run_pure_iff, EntryForm]
  constructor
  · rintro ⟨k, hk, v, hv, rfl⟩
    exact ⟨k, v, hk, hv, rfl⟩
  · rintro ⟨k, v, hk, hv, rfl⟩
    exact ⟨k, hk, v, hv, rfl⟩

theorem run_encodeField_iff {enc : Value → ExceptT Halt Id Cirru} {f : Tag × Value} :
    Id.run (encodeField enc f).run = .ok c ↔
      FieldForm (fun p i => Id.run (enc p).run = .ok i) f c := by
  simp only [encodeField, run_bind_iff, run_pure_iff, FieldForm]
  constructor
  · rintro ⟨v, hv, rfl⟩
    exact ⟨v, hv, rfl⟩
  · rintro ⟨v, hv, rfl⟩
    exact ⟨v, hv, rfl⟩

/-- The tree of a value is made of those of its contents. -/
theorem formAt_succ_iff : formAt rank content text (d + 1) v = .ok c ↔
    FormBy rank content (fun p i => formAt rank content text d p = .ok i) v c := by
  unfold formAt
  constructor
  · intro h
    cases v <;> simp only [encodeAt, run_bind_iff, run_pure_iff, run_lift_iff, run_mapM_iff,
      run_encodeEntry_iff, run_encodeField_iff, compareEntries_id] at h
    case number n =>
      split at h
      · rw [← run_pure_iff.mp h]
        exact .number ‹_›
      · exact absurd h (run_unencodable _ _ _)
    case ref r =>
      obtain ⟨i, hi, rfl⟩ := h
      exact .ref hi
    case fn f => exact absurd h (run_unencodable _ _ _)
    case recur r => exact absurd h (run_unencodable _ _ _)
    case list l =>
      obtain ⟨cs, hcs, rfl⟩ := h
      exact .list hcs
    case map x =>
      obtain ⟨es, rfl, fs, rfl, cs, hcs, rfl⟩ := h
      exact .map hcs
    case set s =>
      obtain ⟨xs, rfl, cs, hcs, rfl⟩ := h
      exact .set hcs
    case record r =>
      obtain ⟨cs, hcs, rfl⟩ := h
      exact .record hcs
    case tuple t =>
      obtain ⟨cs, hcs, rfl⟩ := h
      exact .tuple hcs
    all_goals
      subst h
      constructor
  · intro h
    cases h <;> simp only [encodeAt, run_bind_iff, run_pure_iff, run_lift_iff, run_mapM_iff,
      run_encodeEntry_iff, run_encodeField_iff, compareEntries_id]
    case number n h => rw [if_pos h, run_pure_iff]
    case ref i h => exact ⟨i, h, rfl⟩
    case list cs h => exact ⟨cs, h, rfl⟩
    case map cs h => exact ⟨_, rfl, _, rfl, cs, h, rfl⟩
    case set cs h => exact ⟨_, rfl, cs, h, rfl⟩
    case record cs h => exact ⟨cs, h, rfl⟩
    case tuple cs h => exact ⟨cs, h, rfl⟩

theorem formAt_succ (h : formAt rank content text d v = .ok c) :
    formAt rank content text (d + 1) v = .ok c := by
  induction d generalizing v c with
  | zero => cases h
  | succ d ih => exact formAt_succ_iff.mpr ((formAt_succ_iff.mp h).mono
      (fun _ _ _ => ih) fun _ _ => ih)

theorem formAt_mono (hd : d ≤ d') (h : formAt rank content text d v = .ok c) :
    formAt rank content text d' v = .ok c := by
  induction hd with
  | refl => exact h
  | step _ ih => exact formAt_succ ih

/-- A depth that is enough gives the tree that any other does. -/
theorem formAt_unique (h : formAt rank content text d v = .ok c)
    (h' : formAt rank content text d' v = .ok c') : c = c' := by
  have hd := formAt_mono (Nat.le_max_left d d') h
  rw [formAt_mono (Nat.le_max_right d d') h'] at hd
  exact (Except.ok.inj hd).symm

/-! ## Which values have a form -/

/-- A scalar or collection that has an encoded form if its contents do. -/
def isEncodable : Value → Bool
  | .number n => n.isFinite
  | .ref _ | .fn _ | .recur _ => false
  | _ => true

theorem isDefinite_of_isEncodable (h : isEncodable v = true) : v.isDefinite = true := by
  cases v with
  | number n =>
    have hn : n.isFinite = true := h
    simp only [Number.isFinite, decide_eq_true_eq] at hn
    simp only [Value.isDefinite, Number.isNaN, Bool.not_eq_true', decide_eq_false_iff_not]
    omega
  | recur r => cases h
  | _ => rfl

/-- Neither references nor functions, recur markers or numbers that are not finite are held. -/
def Encodable (rank : Fn → Nat) (v : Value) : Prop :=
  v.Throughout (entriesUnder rank) fun p => isEncodable p = true

theorem exists_forall₂ {α β : Type} {R : α → β → Prop} {xs : List α}
    (h : ∀ x ∈ xs, ∃ y, R x y) : ∃ ys, List.Forall₂ R xs ys := by
  induction xs with
  | nil => exact ⟨[], .nil⟩
  | cons x xs ih =>
    obtain ⟨y, hy⟩ := h x (by simp)
    obtain ⟨ys, hys⟩ := ih fun x hx => h x (by simp [hx])
    exact ⟨y :: ys, .cons hy hys⟩

variable {E : Value → Cirru → Prop}

theorem exists_formBy (hv : isEncodable v = true)
    (hE : ∀ p ∈ v.contents (entriesUnder rank), ∃ c, E p c) :
    ∃ c, FormBy rank content E v c := by
  cases v with
  | number n => exact ⟨_, .number hv⟩
  | list l =>
    obtain ⟨cs, hcs⟩ := exists_forall₂ hE
    exact ⟨_, .list hcs⟩
  | tuple t =>
    obtain ⟨cs, hcs⟩ := exists_forall₂ hE
    exact ⟨_, .tuple hcs⟩
  | set s =>
    obtain ⟨cs, hcs⟩ := exists_forall₂ fun p hp => hE p (mem_sortedElements hp)
    exact ⟨_, .set hcs⟩
  | map x =>
    have hentry : ∀ e ∈ sortedEntries rank x, ∃ c, EntryForm E e c := by
      intro e he
      obtain ⟨k, hk⟩ := hE e.1 (mem_sortedEntries he).1
      obtain ⟨v, hv⟩ := hE e.2 (mem_sortedEntries he).2
      exact ⟨_, k, v, hk, hv, rfl⟩
    obtain ⟨cs, hcs⟩ := exists_forall₂ hentry
    exact ⟨_, .map hcs⟩
  | record r =>
    have hfield : ∀ f ∈ sortedFields r, ∃ c, FieldForm E f c := by
      intro f hf
      obtain ⟨v, hv⟩ := hE f.2 (mem_sortedFields hf)
      exact ⟨_, v, hv, rfl⟩
    obtain ⟨cs, hcs⟩ := exists_forall₂ hfield
    exact ⟨_, .record hcs⟩
  | ref r => cases hv
  | fn f => cases hv
  | recur r => cases hv
  | _ => exact ⟨_, by constructor⟩

theorem FormBy.encodable (h : FormBy rank content E v c) (hr : ∀ r, v ≠ .ref r) :
    isEncodable v = true := by
  cases h with
  | number h => exact h
  | ref => exact absurd rfl (hr _)
  | _ => rfl

/-- Where a value has a tree, so do its contents. -/
theorem FormBy.contents (h : FormBy rank content E v c) :
    ∀ p ∈ v.contents (entriesUnder rank), ∃ i, E p i := by
  have hpart {α : Type} {R : α → Cirru → Prop} {xs : List α} {cs : List Cirru}
      (h : List.Forall₂ R xs cs) {x : α} (hx : x ∈ xs) : ∃ i, R x i := by
    obtain ⟨i, -, hi⟩ := Multiset.exists_mem_of_rel_of_mem (rel_of_forall₂ h)
      (Multiset.mem_coe.mpr hx)
    exact ⟨i, hi⟩
  intro p hp
  cases h with
  | list h => exact hpart h hp
  | tuple h => exact hpart h hp
  | set h => exact hpart h ((sortedElements_perm _).mem_iff.mpr hp)
  | map h =>
    obtain ⟨e, he, hpe⟩ := List.mem_flatMap.mp hp
    obtain ⟨i, k, v, hk, hv, -⟩ := hpart h ((sortedEntries_perm _).mem_iff.mpr he)
    rcases List.mem_pair.mp hpe with rfl | rfl
    · exact ⟨k, hk⟩
    · exact ⟨v, hv⟩
  | record h =>
    obtain ⟨f, hf, rfl⟩ := List.mem_map.mp hp
    obtain ⟨i, v, hv, -⟩ := hpart h ((sortedFields_perm _).mem_iff.mpr hf)
    exact ⟨v, hv⟩
  | _ => cases hp

/-- What holds of every value with a tree holds throughout such a value. -/
theorem throughout_of_formAt {P : Value → Prop}
    (hP : ∀ E v c, FormBy rank content E v c → P v)
    (h : formAt rank content text d v = .ok c) : v.Throughout (entriesUnder rank) P := by
  induction d generalizing v c with
  | zero => cases h
  | succ d ih =>
    have hform := formAt_succ_iff.mp h
    refine .intro (hP _ _ _ hform) fun p hp => ?_
    obtain ⟨i, hi⟩ := hform.contents p hp
    exact ih hi

theorem definite_of_formAt (h : formAt rank content text d v = .ok c) :
    v.Throughout (entriesUnder rank) fun p => p.isDefinite = true := by
  refine throughout_of_formAt (fun E v c hform => ?_) h
  cases hform with
  | number h => exact isDefinite_of_isEncodable h
  | _ => rfl

end FormAt

end DynVal.Wire
