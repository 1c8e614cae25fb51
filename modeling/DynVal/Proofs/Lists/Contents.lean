import Mathlib.Data.List.Basic
import DynVal.Sequence

/-!
# Contents of sequences

A sequence shows some elements (`Sequence.Shows`) when reading it through the backings gives them,
its window lies within its backing, and the elements that it carries are the same.

* `Shows.grows`: a sequence goes on showing its elements when backings are added or pushed onto.
  Nothing else ever happens to backings (`Grows`), so that windows that share one need not be
  looked at together.
* One lemma for each operation says which elements its result shows. None of them depends on how
  its operands are stored.
-/

namespace DynVal.Sequence

variable {α : Type} {bs cs ds : Backings α} {s t : Sequence α} {xs ys : List α}

/-! ## Growing backings -/

/-- Backings are only added, and only pushed onto. -/
structure Grows (bs cs : Backings α) : Prop where
  size : bs.size ≤ cs.size
  backing : ∀ b, (backing bs b).toList <+: (backing cs b).toList

theorem Grows.refl (bs : Backings α) : Grows bs bs := ⟨Nat.le_refl _, fun _ => List.prefix_rfl⟩

theorem Grows.trans (h : Grows bs cs) (h' : Grows cs ds) : Grows bs ds :=
  ⟨Nat.le_trans h.size h'.size, fun b => (h.backing b).trans (h'.backing b)⟩

theorem backing_push (bs : Backings α) (items : Array α) (b : Nat) :
    backing (bs.push items) b = if b = bs.size then items else backing bs b := by
  simp only [backing, Array.getD_eq_getD_getElem?, Array.getElem?_push]
  split <;> rfl

theorem backing_modify_push {bs : Backings α} {b : Nat} (hb : b < bs.size) (x : α) (c : Nat) :
    backing (bs.modify b (·.push x)) c =
      if c = b then (backing bs b).push x else backing bs c := by
  simp only [backing, Array.getD_eq_getD_getElem?, Array.getElem?_modify]
  rcases eq_or_ne b c with rfl | h
  · simp [Array.getElem?_eq_getElem hb]
  · simp [h, h.symm]

theorem grows_push (bs : Backings α) (items : Array α) : Grows bs (bs.push items) := by
  refine ⟨by simp, fun b => ?_⟩
  rw [backing_push]
  split
  · rename_i h
    have : backing bs b = #[] := by simp [backing, h]
    simp [this]
  · exact List.prefix_rfl

theorem grows_modify_push {bs : Backings α} {b : Nat} (hb : b < bs.size) (x : α) :
    Grows bs (bs.modify b (·.push x)) := by
  refine ⟨by simp, fun c => ?_⟩
  rw [backing_modify_push hb]
  split
  · rename_i h
    subst h
    simp
  · exact List.prefix_rfl

/-! ## What a sequence shows -/

/-- A window lies within its backing. -/
def Fits (bs : Backings α) : Sequence α → Prop
  | .window b start stop _ => b < bs.size ∧ start ≤ stop ∧ stop ≤ (backing bs b).size
  | .tree _ => True

/-- Read through the backings and read from what it carries, a sequence has these elements. -/
structure Shows (bs : Backings α) (s : Sequence α) (xs : List α) : Prop where
  fits : s.Fits bs
  toList : s.toList bs = xs
  shown : s.shown.toList = xs

theorem shows_tree (bs : Backings α) (items : Array α) : Shows bs (.tree items) items.toList :=
  ⟨trivial, rfl, rfl⟩

theorem toList_window (bs : Backings α) (b start stop : Nat) (shown : Array α) :
    (window b start stop shown).toList bs =
      ((backing bs b).toList.drop start).take (stop - start) := by
  simp [Sequence.toList, toArray]

theorem shows_window {b start stop : Nat} {shown : Array α} :
    Shows bs (.window b start stop shown) xs ↔
      (b < bs.size ∧ start ≤ stop ∧ stop ≤ (backing bs b).size) ∧
        ((backing bs b).toList.drop start).take (stop - start) = xs ∧ shown.toList = xs := by
  rw [← toList_window bs b start stop shown]
  exact ⟨fun h => ⟨h.fits, h.toList, h.shown⟩, fun h => ⟨h.1, h.2.1, h.2.2⟩⟩

theorem Shows.grows (h : s.Shows bs xs) (hg : Grows bs cs) : s.Shows cs xs := by
  cases s with
  | tree items => exact ⟨trivial, h.toList, h.shown⟩
  | window b start stop shown =>
    obtain ⟨⟨hb, hle, hstop⟩, hread, hshown⟩ := shows_window.mp h
    obtain ⟨more, hmore⟩ := hg.backing b
    have hsize : (backing bs b).size ≤ (backing cs b).size := (hg.backing b).length_le
    refine shows_window.mpr ⟨⟨Nat.lt_of_lt_of_le hb hg.size, hle, Nat.le_trans hstop hsize⟩, ?_,
      hshown⟩
    have hstop' : stop ≤ (backing bs b).toList.length := hstop
    rw [← hmore, List.drop_append_of_le_length (by omega),
      List.take_append_of_le_length (by rw [List.length_drop]; omega), hread]

section Reading

variable (h : s.Shows bs xs)
include h

theorem Shows.length_eq : s.length = xs.length := by
  cases s with
  | tree items => rw [← h.shown]; rfl
  | window b start stop shown =>
    obtain ⟨⟨_, hle, hstop⟩, hread, _⟩ := shows_window.mp h
    have hstop' : stop ≤ (backing bs b).toList.length := hstop
    rw [← hread, List.length_take, List.length_drop]
    show stop - start = _
    omega

theorem Shows.isEmpty_eq : s.isEmpty = xs.isEmpty := by
  rw [Sequence.isEmpty, h.length_eq]
  cases xs <;> rfl

theorem Shows.get?_eq (i : Nat) : s.get? bs i = xs[i]? := by
  cases s with
  | tree items => rw [← h.shown]; simp [get?, Sequence.shown]
  | window b start stop shown =>
    obtain ⟨_, hread, _⟩ := shows_window.mp h
    rw [← hread, List.getElem?_take, List.getElem?_drop]
    simp [get?]

theorem Shows.first?_eq : s.first? bs = xs.head? := by
  rw [first?, h.get?_eq, List.head?_eq_getElem?]

/-- Reading past the end is an error. -/
theorem Shows.nth_eq (i : Nat) :
    s.nth bs i = match xs[i]? with
      | some x => .ok x
      | none => .error (.index "nth" i xs.length) := by
  cases hx : xs[i]? <;> simp only [nth, h.get?_eq, h.length_eq, hx]

theorem Shows.toArray_eq : s.toArray bs = xs.toArray := by
  rw [← h.toList]
  rfl

end Reading

/-! ## Operations -/

theorem shows_ofArray (bs : Backings α) (items : Array α) :
    (ofArray bs items).1.Shows (ofArray bs items).2 items.toList := by
  refine shows_window.mpr ⟨⟨?_, ?_, ?_⟩, ?_, rfl⟩
  · simp [ofArray]
  · exact Nat.zero_le _
  · simp [ofArray, backing_push]
  · rw [ofArray, backing_push, if_pos rfl, List.drop_zero]
    exact List.take_length

theorem grows_ofArray (bs : Backings α) (items : Array α) : Grows bs (ofArray bs items).2 :=
  grows_push bs items

theorem grows_append (h : s.Shows bs xs) (x : α) : Grows bs (s.append bs x).2 := by
  cases s with
  | tree items => exact .refl bs
  | window b start stop shown =>
    simp only [append]
    split
    · exact grows_modify_push (shows_window.mp h).1.1 x
    · exact .refl bs

theorem shows_append (h : s.Shows bs xs) (x : α) :
    (s.append bs x).1.Shows (s.append bs x).2 (xs ++ [x]) := by
  have htree : Shows bs (.tree ((s.toArray bs).push x)) (xs ++ [x]) := by
    rw [h.toArray_eq]
    simpa using shows_tree bs (xs.toArray.push x)
  cases s with
  | tree items => exact htree
  | window b start stop shown =>
    simp only [append]
    split
    · rename_i hend
      obtain ⟨⟨hb, hle, _⟩, hread, hshown⟩ := shows_window.mp h
      refine shows_window.mpr ⟨⟨by simpa using hb, by omega, ?_⟩, ?_, by simp [hshown]⟩
      · simp [backing_modify_push hb, hend.2]
      · have hlen : (backing bs b).toList.length = stop := hend.2
        rw [backing_modify_push hb, if_pos rfl, Array.toList_push,
          List.drop_append_of_le_length (by omega),
          List.take_of_length_le (by rw [List.length_append, List.length_drop]; simp; omega)]
        rw [List.take_of_length_le (by rw [List.length_drop]; omega)] at hread
        rw [hread]
    · exact htree

theorem shows_prepend (h : s.Shows bs xs) (x : α) : (s.prepend bs x).Shows bs (x :: xs) := by
  rw [prepend, h.toArray_eq]
  simpa using shows_tree bs (#[x] ++ xs.toArray)

theorem shows_reverse (h : s.Shows bs xs) : (s.reverse bs).Shows bs xs.reverse := by
  rw [reverse, h.toArray_eq]
  simpa using shows_tree bs (xs.toArray.reverse)

/-- All but the first element; an empty sequence serves itself. -/
theorem shows_rest (h : s.Shows bs xs) : (s.rest?.getD s).Shows bs xs.tail := by
  unfold rest?
  rw [h.isEmpty_eq]
  cases xs with
  | nil => exact h
  | cons x xs =>
    cases s with
    | tree items =>
      obtain rfl : items = (x :: xs).toArray := h.toArray_eq
      simpa using shows_tree bs ((x :: xs).toArray.extract 1 (xs.length + 1))
    | window b start stop shown =>
      obtain ⟨⟨hb, hle, hstop⟩, hread, hshown⟩ := shows_window.mp h
      have hlen := h.length_eq
      simp only [Sequence.length, List.length_cons] at hlen
      refine shows_window.mpr ⟨⟨hb, by omega, hstop⟩, ?_, ?_⟩
      · have := congrArg (List.drop 1) hread
        rw [List.drop_take, List.drop_drop] at this
        simpa [Nat.sub_sub] using this
      · have hsize : shown.size = xs.length + 1 := by simpa using congrArg List.length hshown
        simp [hshown, hsize]

theorem shows_slice (h : s.Shows bs xs) {start stop : Nat} (hle : start ≤ stop)
    (hstop : stop ≤ xs.length) :
    ∃ t, s.slice start stop = .ok t ∧ t.Shows bs ((xs.drop start).take (stop - start)) := by
  have hguard : ¬s.length < stop ∧ ¬stop < start := by
    rw [h.length_eq]
    omega
  cases s with
  | tree items =>
    obtain rfl : items = xs.toArray := h.toArray_eq
    refine ⟨.tree (xs.toArray.extract start stop), by simp [slice, hguard], ?_⟩
    simpa using shows_tree bs (xs.toArray.extract start stop)
  | window b first last shown =>
    obtain ⟨⟨hb, hfirst, hlast⟩, hread, hshown⟩ := shows_window.mp h
    have hlen := h.length_eq
    simp only [Sequence.length] at hlen
    refine ⟨.window b (first + start) (first + stop) (shown.extract start stop),
      by simp [slice, hguard], shows_window.mpr ⟨⟨hb, by omega, by omega⟩, ?_, ?_⟩⟩
    · rw [← hread, List.drop_take, List.drop_drop, List.take_take]
      congr 1
      omega
    · simp [hshown]

theorem shows_refill (bs : Backings α) (s : Sequence α) (items : Array α) :
    (s.refill bs items).1.Shows (s.refill bs items).2 items.toList := by
  unfold refill
  split
  · exact shows_tree bs items
  · exact shows_ofArray bs items

theorem grows_refill (bs : Backings α) (s : Sequence α) (items : Array α) :
    Grows bs (s.refill bs items).2 := by
  unfold refill
  split
  · exact .refl bs
  · exact grows_ofArray bs items

theorem shows_concat (hs : s.Shows bs xs) (ht : t.Shows bs ys) :
    (s.concat bs t).1.Shows (s.concat bs t).2 (xs ++ ys) := by
  unfold concat
  rw [hs.toArray_eq, ht.toArray_eq]
  split
  · simpa using shows_tree bs (xs.toArray ++ ys.toArray)
  · simpa using shows_ofArray bs (xs.toArray ++ ys.toArray)

theorem grows_concat (bs : Backings α) (s t : Sequence α) : Grows bs (s.concat bs t).2 := by
  unfold concat
  split
  · exact .refl bs
  · exact grows_ofArray bs _

/-! ### At an index -/

theorem Shows.checkIndex_eq (h : s.Shows bs xs) (op : String) (i : Nat) :
    s.checkIndex op i = if i < xs.length then .ok () else .error (.index op i xs.length) := by
  rw [checkIndex, h.length_eq]

/-- What is done at an index is done within the sequence. -/
theorem Shows.lt_of_ok (h : s.Shows bs xs) {op : String} {i : Nat} {f : Unit → Sequence α}
    (ht : (s.checkIndex op i).map f = .ok t) : i < xs.length := by
  rw [h.checkIndex_eq] at ht
  split at ht
  · assumption
  · cases ht

section AtIndex

variable (h : s.Shows bs xs) {i : Nat} (hi : i < xs.length)
include h hi

theorem shows_assoc (x : α) : ∃ t, s.assoc bs i x = .ok t ∧ t.Shows bs (xs.set i x) := by
  refine ⟨_, by rw [assoc, h.checkIndex_eq, if_pos hi]; rfl, ?_⟩
  rw [h.toArray_eq]
  simpa using shows_tree bs (xs.toArray.setIfInBounds i x)

theorem shows_assocBefore (x : α) :
    ∃ t, s.assocBefore bs i x = .ok t ∧ t.Shows bs (xs.insertIdx i x) := by
  refine ⟨_, by rw [assocBefore, h.checkIndex_eq, if_pos hi]; rfl, ?_⟩
  rw [h.toArray_eq]
  simpa using shows_tree bs (xs.toArray.insertIdxIfInBounds i x)

theorem shows_assocAfter (x : α) :
    ∃ t, s.assocAfter bs i x = .ok t ∧ t.Shows bs (xs.insertIdx (i + 1) x) := by
  refine ⟨_, by rw [assocAfter, h.checkIndex_eq, if_pos hi]; rfl, ?_⟩
  rw [h.toArray_eq]
  simpa using shows_tree bs (xs.toArray.insertIdxIfInBounds (i + 1) x)

theorem shows_dissoc : ∃ t, s.dissoc bs i = .ok t ∧ t.Shows bs (xs.eraseIdx i) := by
  refine ⟨_, by rw [dissoc, h.checkIndex_eq, if_pos hi]; rfl, ?_⟩
  rw [h.toArray_eq]
  simpa using shows_tree bs (xs.toArray.eraseIdxIfInBounds i)

end AtIndex

end DynVal.Sequence
