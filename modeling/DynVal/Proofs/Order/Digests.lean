import DynVal.Proofs.Order.Total

/-!
# Values that compare equal have one hash

A hash goes through the parts of a value in the order in which a comparison does, so parts that
compare equal pairwise leave the same hash (`foldM_congr`, `foldEntriesM_congr`). Contents of sets
and maps are sorted first by both. Again nothing is asked of the values.
-/

namespace DynVal

open Std

namespace Digest

variable {cmp : Value → Value → Ordering} {hash : Value → UInt64}
  (hh : ∀ a b, cmp a b = .eq → hash a = hash b)
include hh

theorem foldM_congr {xs ys : List Value} (h : List.Forall₂ (fun x y => cmp x y = .eq) xs ys)
    (seed : UInt64) : foldM (m := Id) hash seed xs = foldM (m := Id) hash seed ys := by
  induction h generalizing seed with
  | nil => rfl
  | cons hxy _ ih =>
    simp only [foldM, hh _ _ hxy]
    exact ih _

theorem foldEntriesM_congr {es fs : List (Value × Value)}
    (h : List.Forall₂ (fun e f => Value.entryOrder cmp e f = .eq) es fs) (seed : UInt64) :
    foldEntriesM (m := Id) hash seed es = foldEntriesM (m := Id) hash seed fs := by
  induction h generalizing seed with
  | nil => rfl
  | cons hef _ ih =>
    rw [Value.entryOrder, Ordering.then_eq_eq] at hef
    simp only [foldEntriesM, hh _ _ hef.1, hh _ _ hef.2]
    exact ih _

/-- Fields with the same names and pairwise equal values. -/
theorem foldFieldsM_congr {fs gs : List (Tag × Value)} (hn : fs.map (·.1) = gs.map (·.1))
    (hv : List.Forall₂ (fun x y => cmp x y = .eq) (fs.map (·.2)) (gs.map (·.2))) (seed : UInt64) :
    foldFieldsM (m := Id) hash seed fs = foldFieldsM (m := Id) hash seed gs := by
  induction fs generalizing gs seed with
  | nil =>
    cases gs with
    | nil => rfl
    | cons g gs => simp at hn
  | cons f fs ih =>
    cases gs with
    | nil => simp at hn
    | cons g gs =>
      simp only [List.map_cons, List.cons.injEq, List.forall₂_cons] at hn hv
      simp only [foldFieldsM, hn.1, hh _ _ hv.1]
      exact ih hn.2 hv.2 _

end Digest

namespace Value

open Digest

theorem ofNumber_congr {a b : Number} (h : a.compare b = .eq) : ofNumber a = ofNumber b := by
  rcases Number.place_eq_iff.mp (Number.compare_eq_iff.mp h) with rfl | ⟨ha, hb⟩
  · rfl
  · simp [ofNumber, ha, hb]

theorem kind_eq_of_compareBy_eq {rank : Fn → Nat} {rel : Relations Id} {a b : Value}
    (h : compareBy (.ofRank rank) rel a b = .eq) : a.kind = b.kind := by
  by_contra hk
  rw [compareBy_of_kind_ne rank rel hk] at h
  exact hk (rank_injective (Nat.compare_eq_eq.mp h))

theorem hashOf_ofRank (rank : Fn → Nat) (node : Nat) (h : UInt64) :
    (Memory.ofRank (m := Id) rank).hashOf node h = h := rfl

theorem hashBy_recur (rank : Fn → Nat) (rel : Relations Id) (x : RecurNode) :
    hashBy (.ofRank rank) rel (.recur x) = foldM (m := Id) rel.hash (seed .recur) x.body := rfl

theorem hashBy_list (rank : Fn → Nat) (rel : Relations Id) (x : ListNode) :
    hashBy (.ofRank rank) rel (.list x) =
      foldM (m := Id) rel.hash (seed .list) x.body.shown.toList := rfl

theorem hashBy_tuple (rank : Fn → Nat) (rel : Relations Id) (x : TupleNode) :
    hashBy (.ofRank rank) rel (.tuple x) =
      foldM (m := Id) rel.hash (seed .tuple) x.body.items := hashOf_ofRank rank _ _

theorem hashBy_set (rank : Fn → Nat) (rel : Relations Id) (x : SetNode) :
    hashBy (.ofRank rank) rel (.set x) =
      foldM (m := Id) rel.hash (seed .set) (sorted .eight rel.compare x.body.elements) := rfl

theorem hashBy_map (rank : Fn → Nat) (rel : Relations Id) (x : MapNode) :
    hashBy (.ofRank rank) rel (.map x) =
      foldEntriesM (m := Id) rel.hash (seed .map)
        (sorted .eight (entryOrder rel.compare) (x.body.storage rel).entries) := by
  simp only [hashBy, storageOf_ofRank, compareEntries_id]
  rfl

theorem hashBy_record (rank : Fn → Nat) (rel : Relations Id) (x : RecordNode) :
    hashBy (.ofRank rank) rel (.record x) =
      foldFieldsM (m := Id) rel.hash (mix (seed .record) (ofTag x.body.name)) x.body.fields := rfl

theorem hashBy_eq_of_compareBy_eq {rank : Fn → Nat} {rel : Relations Id} [TransCmp rel.compare]
    (hh : ∀ a b, rel.compare a b = .eq → rel.hash a = rel.hash b) {a b : Value}
    (h : compareBy (.ofRank rank) rel a b = .eq) :
    hashBy (.ofRank rank) rel a = hashBy (.ofRank rank) rel b := by
  have hk := kind_eq_of_compareBy_eq h
  cases a <;> cases b <;> first | (cases hk; done) | skip
  case nil.nil => rfl
  case bool.bool x y => rw [LawfulEqOrd.eq_of_compare (show compare x y = .eq from h)]
  case number.number x y => exact congrArg pure (ofNumber_congr h)
  case str.str x y => rw [LawfulEqOrd.eq_of_compare (show compare x y = .eq from h)]
  case tag.tag x y => rw [LawfulEqCmp.eq_of_compare (show x.compare y = .eq from h)]
  case symbol.symbol x y => rw [LawfulEqCmp.eq_of_compare (show x.compare y = .eq from h)]
  case quote.quote x y => rw [LawfulEqCmp.eq_of_compare (show x.compare y = .eq from h)]
  case ref.ref x y =>
    have : x.path = y.path := LawfulEqOrd.eq_of_compare h
    simp only [hashBy, this]
  case fn.fn f g =>
    have : rank f = rank g := Nat.compare_eq_eq.mp h
    simp only [hashBy, Memory.ofRank, this]
  case recur.recur x y =>
    rw [compareBy_recur] at h
    rw [hashBy_recur, hashBy_recur]
    exact foldM_congr hh (compareLex_eq_iff.mp h) _
  case list.list x y =>
    rw [compareBy_list] at h
    rw [hashBy_list, hashBy_list]
    exact foldM_congr hh (compareLex_eq_iff.mp h) _
  case tuple.tuple x y =>
    rw [compareBy_tuple] at h
    rw [hashBy_tuple, hashBy_tuple]
    exact foldM_congr hh (compareLex_eq_iff.mp h) _
  case set.set x y =>
    rw [compareBy_set, contentOrder, Ordering.then_eq_eq] at h
    rw [hashBy_set, hashBy_set]
    exact foldM_congr hh (compareLex_eq_iff.mp h.2) _
  case map.map x y =>
    rw [compareBy_map, contentOrder, Ordering.then_eq_eq] at h
    rw [hashBy_map, hashBy_map]
    exact foldEntriesM_congr hh (compareLex_eq_iff.mp h.2) _
  case record.record x y =>
    rw [compareBy_record, recordOrder, Ordering.then_eq_eq, Ordering.then_eq_eq] at h
    obtain ⟨hname, hnames, hvalues⟩ := h
    rw [hashBy_record, hashBy_record, LawfulEqCmp.eq_of_compare hname]
    exact foldFieldsM_congr hh (LawfulEqCmp.eq_of_compare hnames) (compareLex_eq_iff.mp hvalues) _

theorem hash_eq_of_compare_eq (rank : Fn → Nat) (d : Nat) (a b : Value) :
    (relationsBelow (m := Id) (.ofRank rank) d).compare a b = .eq →
      (relationsBelow (m := Id) (.ofRank rank) d).hash a =
        (relationsBelow (m := Id) (.ofRank rank) d).hash b := by
  induction d generalizing a b with
  | zero => exact fun _ => rfl
  | succ d ih => exact hashBy_eq_of_compareBy_eq ih

end Value
end DynVal
