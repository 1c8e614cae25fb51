import DynVal.Proofs.Numbers.Positions
import DynVal.Proofs.Store.History

/-!
# Access by position

Lists and tuples have items one after the other (`Store.items?`), and a key that is a number stands
for the position of one of them. Access by position looks at nothing but the items and the key, and
where it is refused it leaves the store as it was.

* `HasItems.lookup`, `HasItems.assoc`, `HasItems.dissoc`: what access comes to on the items, once
  the key is read.
* `access_by_position`: a key acts on the position whose number it stands for, and on no other.
-/

namespace DynVal

open Op

/-! ## Lists at an index -/

namespace Sequence

variable {α : Type} {bs : Backings α} {s : Sequence α} {xs : List α} {i : Nat}
  (h : s.Shows bs xs) (hi : xs.length ≤ i)
include h hi

theorem Shows.assoc_error (x : α) : s.assoc bs i x = .error (.index "assoc" i xs.length) := by
  rw [assoc, h.checkIndex_eq, if_neg (by omega)]
  rfl

theorem Shows.dissoc_error : s.dissoc bs i = .error (.index "dissoc" i xs.length) := by
  rw [dissoc, h.checkIndex_eq, if_neg (by omega)]
  rfl

end Sequence

/-- The store after a body was put at a node of its own. -/
def Store.afterShare (s : Store) : Store := { s with nodes := s.nodes + 1 }

namespace Op

variable {α β : Type} {s : Store} {r : Except Error β} {e : Error}

/-- The operation fails and changes nothing. -/
def Refused (op : Op α) (s : Store) (e : Error) : Prop := op s = (.error (.error e), s)

theorem Refused.bind {op : Op α} (h : op.Refused s e) (next : α → Op β) :
    (op >>= next).Refused s e := by
  rw [Refused, bind_error (congrArg Prod.fst h), congrArg Prod.snd h]

theorem run_bind {op : Op α} {a : α} {t : Store} (h : op s = (.ok a, t)) (next : α → Op β) :
    (op >>= next) s = next a t := by
  rw [bind_ok (congrArg Prod.fst h), congrArg Prod.snd h]

theorem run_share {b : β} (h : r = .ok b) :
    (ofExcept r >>= share) s = (.ok ⟨s.nodes, b⟩, s.afterShare) := by
  rw [h]
  rfl

theorem refused_share (h : r = .error e) : (ofExcept r >>= share).Refused s e := by
  rw [h]
  rfl

end Op

namespace ListNode

variable {s : Store} {l : ListNode} {xs : List Value} {i : Nat}
  (hl : l.body.Shows s.backings xs)
include hl

theorem run_assoc (hi : i < xs.length) (x : Value) :
    ∃ k, l.assoc i x s = (.ok k, s.afterShare) ∧ k.body.Shows s.backings (xs.set i x) := by
  obtain ⟨t, ht, hshows⟩ := Sequence.shows_assoc hl hi x
  exact ⟨⟨s.nodes, t⟩, run_share ht, hshows⟩

theorem run_dissoc (hi : i < xs.length) :
    ∃ k, l.dissoc i s = (.ok k, s.afterShare) ∧ k.body.Shows s.backings (xs.eraseIdx i) := by
  obtain ⟨t, ht, hshows⟩ := Sequence.shows_dissoc hl hi
  exact ⟨⟨s.nodes, t⟩, run_share ht, hshows⟩

theorem refused_assoc (hi : xs.length ≤ i) (x : Value) :
    (l.assoc i x).Refused s (.index "assoc" i xs.length) := refused_share (hl.assoc_error hi x)

theorem refused_dissoc (hi : xs.length ≤ i) :
    (l.dissoc i).Refused s (.index "dissoc" i xs.length) := refused_share (hl.dissoc_error hi)

end ListNode

/-! ## Tuples at an index -/

section Tuples

variable {ν : Type} {t : Tuple ν} {i : Nat}

theorem Tuple.assoc_of_lt (hi : i < t.items.length) (v : ν) :
    ∃ u, t.assoc i v = .ok u ∧ u.items = t.items.set i v ∧ u.impls = t.impls := by
  cases i with
  | zero => exact ⟨_, rfl, rfl, rfl⟩
  | succ i =>
    have hextra : i < t.extra.length := by simpa [items] using hi
    exact ⟨⟨t.tag, t.extra.set i v, t.impls⟩, by rw [assoc, if_pos hextra], rfl, rfl⟩

theorem Tuple.assoc_error (hi : t.items.length ≤ i) (v : ν) :
    t.assoc i v = .error (.index "tuple assoc" i t.items.length) := by
  cases i with
  | zero => simp [items] at hi
  | succ i =>
    have hextra : ¬ i < t.extra.length := by simpa [items] using hi
    rw [assoc, if_neg hextra]
    rfl

end Tuples

/-! ## Items -/

/-- The elements of a list, or the values of a tuple. -/
def Store.items? (s : Store) : Value → Option (List Value)
  | .list l => some (l.body.toList s.backings)
  | .tuple t => some t.body.items
  | _ => none

/-- The two values are of one kind and differ at most in what they hold: tuples in their items,
records in the values of their fields. -/
def Value.SameForm : Value → Value → Prop
  | .list _, .list _ => True
  | .map _, .map _ => True
  | .tuple t, .tuple u => u.body.size = t.body.size ∧ u.body.impls = t.body.impls
  | .record r, .record q =>
    q.body.name = r.body.name ∧ q.body.names = r.body.names ∧ q.body.impls = r.body.impls
  | _, _ => False

/-- The name under which a position past the end is refused. -/
def Value.assocName : Value → String
  | .tuple _ => "tuple assoc"
  | _ => "assoc"

/-- A list shows these items, or they are the values of a tuple. -/
inductive HasItems (s : Store) : Value → List Value → Prop where
  | list {l : ListNode} {xs : List Value} (h : l.body.Shows s.backings xs) : HasItems s (.list l) xs
  | tuple (t : TupleNode) : HasItems s (.tuple t) t.body.items

/-- A list is read through its backing, which shows what it showed when the list was made. -/
theorem Store.At.hasItems {s : Store} {g : Stage} (hs : s.At g) {v : Value} (hv : v.Sound g)
    {xs : List Value} (hxs : s.items? v = some xs) : HasItems s v xs := by
  cases v with
  | list l =>
    obtain rfl : l.body.toList s.backings = xs := Option.some.inj hxs
    have hshows := hs.backings ▸ ListNode.shows_of_sound hv
    exact .list (hshows.toList.symm ▸ hshows)
  | tuple t =>
    obtain rfl : t.body.items = xs := Option.some.inj hxs
    exact .tuple t
  | _ => cases hxs

namespace HasItems

variable {s : Store} {v key x : Value} {xs : List Value} {i : Nat} {e : Error}
  (h : HasItems s v xs)
include h

theorem items? : s.items? v = some xs := by
  cases h with
  | list h => exact congrArg some h.toList
  | tuple t => rfl

theorem lookup (hi : indexArg "get" key xs.length = .ok i) : v.lookup key s = (.ok xs[i]?, s) := by
  cases h with
  | list h =>
    simp only [Value.lookup, h.length_eq, hi]
    exact congrArg (fun r => (Except.ok r, s)) (h.get?_eq i)
  | tuple t =>
    have hi : indexArg "get" key t.body.size = .ok i := hi
    simp only [Value.lookup, hi]
    rfl

theorem refused_lookup (he : indexArg "get" key xs.length = .error e) :
    (v.lookup key).Refused s e := by
  cases h with
  | list h =>
    simp only [Value.lookup, h.length_eq, he]
    rfl
  | tuple t =>
    have he : indexArg "get" key t.body.size = .error e := he
    simp only [Value.lookup, he]
    rfl

theorem assoc (hk : indexArg "assoc" key xs.length = .ok i) (hi : i < xs.length) (x : Value) :
    ∃ w, v.assoc key x s = (.ok w, s.afterShare) ∧ v.SameForm w ∧
      HasItems s.afterShare w (xs.set i x) := by
  cases h with
  | @list l xs h =>
    obtain ⟨k, hrun, hshows⟩ := ListNode.run_assoc h hi x
    refine ⟨.list k, ?_, trivial, .list hshows⟩
    simp only [Value.assoc, h.length_eq, hk]
    exact run_bind hrun _
  | tuple t =>
    have hk : indexArg "assoc" key t.body.size = .ok i := hk
    obtain ⟨u, hu, hitems, himpls⟩ := Tuple.assoc_of_lt hi x
    have hsize : u.size = t.body.size := by
      have hlength := congrArg List.length hitems
      rw [List.length_set] at hlength
      exact hlength
    refine ⟨.tuple ⟨s.nodes, u⟩, ?_, ⟨hsize, himpls⟩, hitems ▸ .tuple ⟨s.nodes, u⟩⟩
    simp only [Value.assoc, hk]
    exact run_bind (@run_share _ s _ _ hu) _

/-- A position past the end is refused by the list or tuple. -/
theorem refused_assoc (hk : indexArg "assoc" key xs.length = .ok i) (hi : xs.length ≤ i)
    (x : Value) : (v.assoc key x).Refused s (.index v.assocName i xs.length) := by
  cases h with
  | list h =>
    simp only [Value.assoc, h.length_eq, hk]
    exact (ListNode.refused_assoc h hi x).bind _
  | tuple t =>
    have hk : indexArg "assoc" key t.body.size = .ok i := hk
    have hrun : (TupleNode.assoc t i x).Refused s _ := refused_share (Tuple.assoc_error hi x)
    simp only [Value.assoc, hk]
    exact hrun.bind _

theorem refused_assoc_key (he : indexArg "assoc" key xs.length = .error e) (x : Value) :
    (v.assoc key x).Refused s e := by
  cases h with
  | list h =>
    simp only [Value.assoc, h.length_eq, he]
    rfl
  | tuple t =>
    have he : indexArg "assoc" key t.body.size = .error e := he
    simp only [Value.assoc, he]
    rfl

section Lists

variable (hv : v.kind = .list)
include hv

theorem dissoc (hk : indexArg "dissoc" key xs.length = .ok i) (hi : i < xs.length) :
    ∃ w, v.dissoc key s = (.ok w, s.afterShare) ∧ v.SameForm w ∧
      HasItems s.afterShare w (xs.eraseIdx i) := by
  cases h with
  | list h =>
    obtain ⟨k, hrun, hshows⟩ := ListNode.run_dissoc h hi
    refine ⟨.list k, ?_, trivial, .list hshows⟩
    simp only [Value.dissoc, h.length_eq, hk]
    exact run_bind hrun _
  | tuple t => cases hv

theorem refused_dissoc (hk : indexArg "dissoc" key xs.length = .ok i) (hi : xs.length ≤ i) :
    (v.dissoc key).Refused s (.index "dissoc" i xs.length) := by
  cases h with
  | list h =>
    simp only [Value.dissoc, h.length_eq, hk]
    exact (ListNode.refused_dissoc h hi).bind _
  | tuple t => cases hv

theorem refused_dissoc_key (he : indexArg "dissoc" key xs.length = .error e) :
    (v.dissoc key).Refused s e := by
  cases h with
  | list h =>
    simp only [Value.dissoc, h.length_eq, he]
    rfl
  | tuple t => cases hv

end Lists

end HasItems

/-! ## By what the key stands for -/

/-- An index error, the index being cut off to 64 bits with a sign. -/
def Error.offIndex (op : String) (z : Int) (length : Nat) : Error :=
  .indexOutOfBounds op (max (-0x8000000000000000) (min z 0x7fffffffffffffff)) length

section Keys

variable {key : Value} {op : String} {length i : Nat} {z : Int}

theorem indexArg_below (hk : key.IsInteger z) (hz : z < 0) :
    indexArg op key length = .error (.offIndex op z length) := by
  rw [Value.indexArg_of_isInteger hk, if_pos hz, Error.offIndex]
  congr 2
  omega

theorem indexArg_within (hk : key.IsInteger i) (hi : i < length) (hlength : length < 2 ^ 64) :
    indexArg op key length = .ok i := by
  rw [Value.indexArg_of_isInteger hk, if_neg (by omega)]
  congr 1
  omega

/-- A position that is cut off is still past the end, and is reported as it would be otherwise. -/
theorem indexArg_past (hk : key.IsInteger z) (hz : length ≤ z) (hlength : length < 2 ^ 64) :
    ∃ i, indexArg op key length = .ok i ∧ length ≤ i ∧
      ∀ name, Error.index name i length = .offIndex name z length := by
  refine ⟨_, by rw [Value.indexArg_of_isInteger hk, if_neg (by omega)], by omega, fun name => ?_⟩
  rw [Error.index, Error.offIndex]
  congr 1
  omega

end Keys

/-- A key of a list or a tuple acts on the position whose number it stands for, and is refused where
it stands for none. -/
theorem access_by_position {host : Host} {s : Store} {log : Log} (h : History host s log)
    {v : Value} (hv : Held log v) {xs : List Value} (hxs : s.items? v = some xs)
    (hlength : xs.length < 2 ^ 64) (key x : Value) :
    -- a position
    (∀ (i : Nat) (hi : i < xs.length), key.IsInteger i →
      v.lookup key s = (.ok (some xs[i]), s) ∧
      (∃ w t, v.assoc key x s = (.ok w, t) ∧ v.SameForm w ∧ t.items? w = some (xs.set i x)) ∧
      (v.kind = .list →
        ∃ w t, v.dissoc key s = (.ok w, t) ∧ v.SameForm w ∧ t.items? w = some (xs.eraseIdx i))) ∧
    -- past the end
    (∀ z : Int, xs.length ≤ z → key.IsInteger z →
      v.lookup key s = (.ok none, s) ∧
      (v.assoc key x).Refused s (.offIndex v.assocName z xs.length) ∧
      (v.kind = .list → (v.dissoc key).Refused s (.offIndex "dissoc" z xs.length))) ∧
    -- before the beginning
    (∀ z : Int, z < 0 → key.IsInteger z →
      (v.lookup key).Refused s (.offIndex "get" z xs.length) ∧
      (v.assoc key x).Refused s (.offIndex "assoc" z xs.length) ∧
      (v.kind = .list → (v.dissoc key).Refused s (.offIndex "dissoc" z xs.length))) ∧
    -- no integer
    ((∀ z, ¬ key.IsInteger z) →
      (v.lookup key).Refused s (.typeMismatch "get" "integer index" key.typeName) ∧
      (v.assoc key x).Refused s (.typeMismatch "assoc" "integer index" key.typeName) ∧
      (v.kind = .list →
        (v.dissoc key).Refused s (.typeMismatch "dissoc" "integer index" key.typeName))) := by
  obtain ⟨g, hs, hk⟩ := h.exists_stage
  have hitems := hs.hasItems (hk.held hv) hxs
  refine ⟨fun i hi hkey => ⟨?_, ?_, fun hl => ?_⟩, fun z hz hkey => ⟨?_, ?_, fun hl => ?_⟩,
    fun z hz hkey => ⟨?_, ?_, fun hl => ?_⟩, fun hkey => ⟨?_, ?_, fun hl => ?_⟩⟩
  · rw [hitems.lookup (indexArg_within hkey hi hlength), List.getElem?_eq_getElem hi]
  · obtain ⟨w, hw, hform, hset⟩ := hitems.assoc (indexArg_within hkey hi hlength) hi x
    exact ⟨w, _, hw, hform, hset.items?⟩
  · obtain ⟨w, hw, hform, herase⟩ := hitems.dissoc hl (indexArg_within hkey hi hlength) hi
    exact ⟨w, _, hw, hform, herase.items?⟩
  · obtain ⟨i, hi, hpast, -⟩ := @indexArg_past _ "get" _ _ hkey hz hlength
    rw [hitems.lookup hi, List.getElem?_eq_none hpast]
  · obtain ⟨i, hi, hpast, herror⟩ := @indexArg_past _ "assoc" _ _ hkey hz hlength
    exact herror _ ▸ hitems.refused_assoc hi hpast x
  · obtain ⟨i, hi, hpast, herror⟩ := @indexArg_past _ "dissoc" _ _ hkey hz hlength
    exact herror _ ▸ hitems.refused_dissoc hl hi hpast
  · exact hitems.refused_lookup (indexArg_below hkey hz)
  · exact hitems.refused_assoc_key (indexArg_below hkey hz) x
  · exact hitems.refused_dissoc_key hl (indexArg_below hkey hz)
  · exact hitems.refused_lookup (Value.indexArg_of_not_isInteger hkey)
  · exact hitems.refused_assoc_key (Value.indexArg_of_not_isInteger hkey) x
  · exact hitems.refused_dissoc_key hl (Value.indexArg_of_not_isInteger hkey)

/-- The negative zero is the first position, and 2 ^ 64, which is cut off, is past the end. -/
theorem access_by_position_zero :
    let l : Value := .list ⟨0, .window 0 0 2 #[.bool true, .nil]⟩
    let zero : Value := .number (.ofBits 0x8000000000000000)
    let huge : Value := .number (.ofBits 0x43f0000000000000)
    ∃ s, History default s [(.makeList [.bool true, .nil], .ok (.value l))] ∧
      l.lookup zero s = (.ok (some (.bool true)), s) ∧
      l.lookup huge s = (.ok none, s) ∧
      (l.assoc huge .nil).Refused s (.indexOutOfBounds "assoc" 0x7fffffffffffffff 2) := by
  intro l zero huge
  have hlist : History default _ [(.makeList [.bool true, .nil], .ok (.value l))] :=
    History.start.ask (.makeList [.bool true, .nil]) (by
      simpa [Request.operands] using ⟨.scalar rfl, .scalar rfl⟩)
  have hl : Held [(.makeList [.bool true, .nil], .ok (.value l))] l :=
    .replied (q := .makeList [.bool true, .nil]) (r := .value l) List.mem_cons_self
      (by simp [Reply.held])
  have hzero : zero.IsInteger (0 : Nat) :=
    ⟨_, rfl, by decide, (Number.value_eq_iff (by decide)).mpr (by decide)⟩
  have hhuge : huge.IsInteger (2 ^ 64) :=
    ⟨_, rfl, by decide, (Number.value_eq_iff (by decide)).mpr (by decide)⟩
  have access := @access_by_position _ _ _ hlist l hl [.bool true, .nil] rfl (by decide)
  exact ⟨_, hlist, ((access zero .nil).1 0 (by decide) hzero).1,
    ((access huge .nil).2.1 (2 ^ 64) (by decide) hhuge).1,
    ((access huge .nil).2.1 (2 ^ 64) (by decide) hhuge).2.1⟩

end DynVal
