import DynVal.Proofs.Storage.Buckets
import DynVal.Proofs.Storage.Entries
import DynVal.Storage

/-!
# Storages as finite maps

What the operations on storages come to without effects, for keys that are told apart by a symmetric
and transitive test that respects the hash (`Keyed.Lawful`). A storage holds some entries (`Holds`)
when its own are these up to their order and up to equal keys, no two of its keys are equal, and a
tree keeps each entry under the hash of its key.

One lemma for each operation says what the result holds. None of them depends on the kind of
storage: a slice keeps the key that it has and a tree takes the new one, which makes no difference
up to equal keys.
-/

namespace DynVal

open Entries

/-- The test by which keys are told apart. -/
def Keyed.test {κ : Type} (keyed : Keyed Id κ) (x y : κ) : Bool := Id.run (keyed.same x y)

def Keyed.digest {κ : Type} (keyed : Keyed Id κ) (x : κ) : UInt64 := Id.run (keyed.hash x)

/-- A symmetric and transitive test that respects the hash. -/
structure Keyed.Lawful {κ : Type} (keyed : Keyed Id κ) : Prop where
  equiv : PartialEquiv keyed.test
  hash : ∀ {x y}, keyed.test x y = true → keyed.digest x = keyed.digest y

namespace Storage

variable {κ ν : Type} (keyed : Keyed Id κ)

/-! ## Runs of entries -/

theorem valueIn_eq (k : κ) (es : List (κ × ν)) :
    valueIn (m := Id) keyed k es = lookup keyed.test k es := by
  induction es with
  | nil => rfl
  | cons e es ih =>
    rw [lookup_cons, ← ih]
    rfl

theorem isIn_eq (k : κ) (es : List (κ × ν)) :
    isIn (m := Id) keyed k es = (lookup keyed.test k es).isSome := by
  induction es with
  | nil => rfl
  | cons e es ih =>
    rw [lookup_cons, apply_ite Option.isSome, ← ih]
    rfl

theorem without_eq (k : κ) (es : List (κ × ν)) :
    without (m := Id) keyed k es = erase keyed.test k es := by
  induction es with
  | nil => rfl
  | cons e es ih =>
    show (if keyed.test e.1 k = true then without (m := Id) keyed k es
      else e :: without (m := Id) keyed k es) = _
    rw [ih, erase, erase, List.filter_cons]
    cases keyed.test e.1 k <;> rfl

theorem rebind_eq (k : κ) (v : ν) (es : List (κ × ν)) :
    rebind? (m := Id) keyed k v es =
      if (lookup keyed.test k es).isSome = true then some (put keyed.test k v es) else none := by
  induction es with
  | nil => rfl
  | cons e es ih =>
    show (if keyed.test e.1 k = true then some ((e.1, v) :: es)
      else (rebind? (m := Id) keyed k v es : Option _).map (e :: ·)) = _
    rw [ih, lookup_cons, put]
    cases keyed.test e.1 k with
    | true => rfl
    | false =>
      simp only [Bool.false_eq_true, if_false]
      split <;> rfl

theorem put_eq_append {k : κ} {es : List (κ × ν)} (h : lookup keyed.test k es = none) (v : ν) :
    put keyed.test k v es = es ++ [(k, v)] := by
  induction es with
  | nil => rfl
  | cons e es ih =>
    rw [lookup_cons] at h
    split at h
    · cases h
    · rename_i hk
      rw [put, if_neg hk, ih h]
      rfl

theorem bindAll_eq (es ps : List (κ × ν)) :
    bindAll (m := Id) keyed es ps = merge keyed.test (fun _ => false) es ps := by
  induction ps generalizing es with
  | nil => rfl
  | cons p ps ih =>
    have hstep : bindAll (m := Id) keyed es (p :: ps) =
        bindAll (m := Id) keyed (put keyed.test p.1 p.2 es) ps := by
      show (match rebind? (m := Id) keyed p.1 p.2 es with
        | some fs => bindAll (m := Id) keyed fs ps
        | none => bindAll (m := Id) keyed (es ++ [p]) ps) = _
      rw [rebind_eq]
      cases hl : lookup keyed.test p.1 es with
      | some v => rfl
      | none =>
        rw [put_eq_append keyed hl]
        rfl
    rw [hstep, ih]
    rfl

variable {keyed} (hk : keyed.Lawful)
include hk

theorem perm_replace {es : List (κ × ν)} (h : Distinct keyed.test es) (k : κ) (v : ν) :
    List.Perm (replace (m := Id) keyed k v es) ((k, v) :: erase keyed.test k es) := by
  induction es with
  | nil => exact .refl _
  | cons e es ih =>
    show List.Perm (if keyed.test e.1 k = true then (k, v) :: es
      else e :: replace (m := Id) keyed k v es) _
    by_cases he : keyed.test e.1 k = true
    · have hes := h.erase_eq_self hk.equiv he
      unfold erase at hes ⊢
      rw [if_pos he, List.filter_cons_of_neg (by simp [he]), hes]
    · rw [if_neg he, erase, List.filter_cons_of_pos (by simp [he])]
      exact ((ih h.tail).cons e).trans (.swap ..)

/-! ## What a storage holds -/

omit hk

/-- No two keys are equal, and a tree keeps each entry under the hash of its key. -/
structure Lawful (keyed : Keyed Id κ) (s : Storage κ ν) : Prop where
  distinct : Distinct keyed.test s.entries
  keeps : ∀ t, s = .tree t → t.Keeps fun e => keyed.digest e.1

/-- The storage holds these entries, in any order and up to equal keys. -/
structure Holds (keyed : Keyed Id κ) (s : Storage κ ν) (es : List (κ × ν)) : Prop where
  lawful : s.Lawful keyed
  alike : Alike keyed.test s.entries es

variable {s : Storage κ ν} {t : Buckets (κ × ν)} {es fs : List (κ × ν)}

theorem Lawful.holds (h : s.Lawful keyed) : s.Holds keyed s.entries := ⟨h, .refl _⟩

theorem holds_slice (h : Distinct keyed.test es) : (slice es).Holds keyed es :=
  ⟨⟨h, nofun⟩, .refl _⟩

theorem holds_empty : (Storage.tree .empty).Holds keyed ([] : List (κ × ν)) :=
  ⟨⟨.nil, fun t ht => by cases ht; trivial⟩, .refl _⟩

include hk

theorem Holds.distinct (h : s.Holds keyed es) : Distinct keyed.test es :=
  h.lawful.distinct.alike hk.equiv h.alike

theorem Holds.of_alike (h : s.Holds keyed es) (ha : Alike keyed.test es fs) : s.Holds keyed fs :=
  ⟨h.lawful, h.alike.trans hk.equiv ha⟩

theorem Holds.lookup_eq (h : s.Holds keyed es) (k : κ) :
    lookup keyed.test k s.entries = lookup keyed.test k es :=
  lookup_alike hk.equiv h.lawful.distinct h.alike k

omit hk in
theorem Holds.size_eq (h : s.Holds keyed es) : s.size = es.length := h.alike.length_eq

/-- All entries with a key lie in one bucket. -/
theorem lookup_bucket (ht : t.Keeps fun e => keyed.digest e.1) (k : κ) :
    lookup keyed.test k (t.bucket (keyed.digest k)) = lookup keyed.test k t.toList := by
  rw [Buckets.bucket_eq_filter ht, lookup, lookup, List.find?_filter]
  congr 2
  funext e
  cases he : keyed.test e.1 k with
  | false => simp
  | true => simp [hk.hash he]

theorem erase_bucket (ht : t.Keeps fun e => keyed.digest e.1) (k : κ) :
    (erase keyed.test k (t.bucket (keyed.digest k)) ++
      t.toList.filter fun e => keyed.digest e.1 != keyed.digest k).Perm
        (erase keyed.test k t.toList) := by
  have hothers : (t.toList.filter fun e => keyed.digest e.1 != keyed.digest k) =
      (erase keyed.test k t.toList).filter fun e => !(keyed.digest e.1 == keyed.digest k) := by
    rw [erase, List.filter_filter]
    refine List.filter_congr fun e _ => ?_
    cases he : keyed.test e.1 k with
    | false => simp [bne]
    | true => simp [hk.hash he]
  have hbucket : erase keyed.test k (t.bucket (keyed.digest k)) =
      (erase keyed.test k t.toList).filter fun e => keyed.digest e.1 == keyed.digest k := by
    rw [Buckets.bucket_eq_filter ht, erase, erase, List.filter_filter, List.filter_filter]
    exact List.filter_congr fun e _ => Bool.and_comm ..
  rw [hothers, hbucket]
  exact List.filter_append_perm _ _

/-! ## Operations -/

theorem get?_eq (h : s.Holds keyed es) (k : κ) :
    s.get? (m := Id) keyed k = lookup keyed.test k es := by
  rw [← h.lookup_eq hk]
  cases s with
  | slice es => exact valueIn_eq keyed k es
  | tree t =>
    rw [entries, ← lookup_bucket hk (h.lawful.keeps t rfl)]
    exact valueIn_eq keyed k _

theorem contains_eq (h : s.Holds keyed es) (k : κ) :
    s.contains (m := Id) keyed k = (lookup keyed.test k es).isSome := by
  rw [← h.lookup_eq hk]
  cases s with
  | slice es => exact isIn_eq keyed k es
  | tree t =>
    rw [entries, ← lookup_bucket hk (h.lawful.keeps t rfl)]
    exact isIn_eq keyed k _

omit hk in
/-- Other items for the bucket of a key. -/
theorem lawful_put_bucket (ht : (Storage.tree t).Lawful keyed) {k : κ} {ys : List (κ × ν)}
    (hy : ∀ y ∈ ys, keyed.digest y.1 = keyed.digest k)
    (hd : Distinct keyed.test (t.put (keyed.digest k) ys).toList) :
    (Storage.tree (t.put (keyed.digest k) ys)).Lawful keyed := by
  refine ⟨hd, ?_⟩
  rintro _ ⟨⟩
  exact Buckets.keeps_put (ht.keeps t rfl) hy

omit hk in
theorem digest_of_mem_bucket (ht : t.Keeps fun e => keyed.digest e.1) {k : κ} {e : κ × ν}
    (he : e ∈ erase keyed.test k (t.bucket (keyed.digest k))) :
    keyed.digest e.1 = keyed.digest k := by
  rw [erase, Buckets.bucket_eq_filter ht] at he
  simpa using (List.mem_filter.mp (List.mem_filter.mp he).1).2

omit hk in
theorem Lawful.distinct_bucket (ht : (Storage.tree t).Lawful keyed) (k : κ) :
    Distinct keyed.test (t.bucket (keyed.digest k)) := by
  have hd : Distinct keyed.test t.toList := ht.distinct
  rw [Buckets.bucket_eq_filter (ht.keeps t rfl)]
  exact hd.filter _

theorem perm_insert (ht : (Storage.tree t).Lawful keyed) (k : κ) (v : ν) :
    List.Perm (Storage.insert (m := Id) keyed t k v).toList
      ((k, v) :: erase keyed.test k t.toList) := by
  have hkeeps := ht.keeps t rfl
  refine (Buckets.toList_put hkeeps (keyed.digest k) _).trans ?_
  exact ((perm_replace hk (ht.distinct_bucket k) k v).append_right _).trans
    ((erase_bucket hk hkeeps k).cons _)

theorem Lawful.insert (ht : (Storage.tree t).Lawful keyed) (k : κ) (v : ν) :
    (Storage.tree (Storage.insert (m := Id) keyed t k v)).Lawful keyed := by
  have hkeeps := ht.keeps t rfl
  have hd : Distinct keyed.test t.toList := ht.distinct
  refine lawful_put_bucket ht (fun y hy => ?_)
    ((hd.cons_erase hk.equiv k v).perm hk.equiv (perm_insert hk ht k v).symm)
  rcases List.mem_cons.mp ((perm_replace hk (ht.distinct_bucket k) k v).mem_iff.mp hy) with rfl | hy
  · rfl
  · exact digest_of_mem_bucket hkeeps hy

theorem Holds.insert (h : (Storage.tree t).Holds keyed es) (k : κ) (v : ν) :
    (Storage.tree (Storage.insert (m := Id) keyed t k v)).Holds keyed (put keyed.test k v es) := by
  refine ⟨h.lawful.insert hk k v, (alike_of_perm (perm_insert hk h.lawful k v)).trans hk.equiv ?_⟩
  exact ((h.alike.erase hk.equiv k).cons (.refl _)).trans hk.equiv
    ((alike_put hk.equiv (h.distinct hk) k v).symm hk.equiv)

theorem Holds.insertAll (h : (Storage.tree t).Holds keyed es) (ps : List (κ × ν)) :
    (Storage.tree (Storage.insertAll (m := Id) keyed t ps)).Holds keyed
      (merge keyed.test (fun _ => false) es ps) := by
  induction ps generalizing t es with
  | nil => exact h
  | cons p ps ih => exact ih (h.insert hk p.1 p.2)

/-- Putting distinct entries in from the start gives these entries. -/
theorem alike_merge_nil (h : Distinct keyed.test es) :
    Alike keyed.test (merge keyed.test (fun _ => false) [] es) es := by
  simpa [untouched] using alike_merge hk.equiv (fun _ => false) .nil h

theorem Holds.toTree (h : s.Holds keyed es) :
    (Storage.tree (s.toTree (m := Id) keyed)).Holds keyed es := by
  cases s with
  | tree t => exact h
  | slice fs =>
    refine (holds_empty.insertAll hk fs).of_alike hk ?_
    exact (alike_merge_nil hk h.lawful.distinct).trans hk.equiv h.alike

theorem holds_ofPairs (ps : List (κ × ν)) :
    (Storage.ofPairs (m := Id) keyed ps).Holds keyed (merge keyed.test (fun _ => false) [] ps) := by
  show Storage.Holds keyed (if ps.length ≤ sliceLimit then
    Storage.slice (bindAll (m := Id) keyed [] ps)
    else Storage.tree (Storage.insertAll (m := Id) keyed .empty ps)) _
  split
  · rw [bindAll_eq]
    exact holds_slice (Distinct.merge hk.equiv _ .nil ps)
  · exact holds_empty.insertAll hk ps

theorem Holds.assoc (h : s.Holds keyed es) (k : κ) (v : ν) :
    (Storage.assoc (m := Id) keyed s k v).Holds keyed (put keyed.test k v es) := by
  cases s with
  | tree t => exact h.insert hk k v
  | slice fs =>
    have hd : Distinct keyed.test fs := h.lawful.distinct
    have hslice : (Storage.slice (put keyed.test k v fs)).Holds keyed (put keyed.test k v es) :=
      (holds_slice (hd.put hk.equiv k v)).of_alike hk (h.alike.put hk.equiv hd k v)
    show Storage.Holds keyed (match rebind? (m := Id) keyed k v fs with
      | some gs => Storage.slice gs
      | none => if fs.length < sliceLimit then Storage.slice (fs ++ [(k, v)])
        else Storage.tree (Storage.insert (m := Id) keyed
          (Storage.insertAll (m := Id) keyed .empty fs) k v)) _
    rw [rebind_eq]
    cases hl : lookup keyed.test k fs with
    | some w => exact hslice
    | none =>
      simp only [Option.isSome_none, Bool.false_eq_true, if_false]
      split
      · rw [← put_eq_append keyed hl v]
        exact hslice
      · exact (h.toTree hk).insert hk k v

/-- The entries without those that have the key are left as they are. -/
theorem perm_dissoc (h : s.Lawful keyed) (k : κ) :
    List.Perm (Storage.dissoc (m := Id) keyed s k).entries (erase keyed.test k s.entries) := by
  cases s with
  | slice fs =>
    show List.Perm (without (m := Id) keyed k fs) _
    rw [without_eq]
    exact .refl _
  | tree t =>
    show List.Perm (t.put (keyed.digest k)
      (without (m := Id) keyed k (t.bucket (keyed.digest k)))).toList _
    rw [without_eq]
    have hkeeps := h.keeps t rfl
    exact (Buckets.toList_put hkeeps (keyed.digest k) _).trans (erase_bucket hk hkeeps k)

theorem Lawful.dissoc (h : s.Lawful keyed) (k : κ) :
    (Storage.dissoc (m := Id) keyed s k).Lawful keyed := by
  have hd := (h.distinct.erase k).perm hk.equiv (perm_dissoc hk h k).symm
  cases s with
  | slice fs => exact ⟨hd, nofun⟩
  | tree t =>
    refine lawful_put_bucket h (fun y hy => ?_) hd
    rw [without_eq] at hy
    exact digest_of_mem_bucket (h.keeps t rfl) hy

theorem Holds.dissoc (h : s.Holds keyed es) (k : κ) :
    (Storage.dissoc (m := Id) keyed s k).Holds keyed (erase keyed.test k es) :=
  ⟨h.lawful.dissoc hk k,
    (alike_of_perm (perm_dissoc hk h.lawful k)).trans hk.equiv (h.alike.erase hk.equiv k)⟩

/-! ## Entries that are stored as they are -/

theorem perm_insertAll (ht : (Storage.tree t).Lawful keyed)
    (hd : Distinct keyed.test (t.toList ++ es)) :
    List.Perm (Storage.insertAll (m := Id) keyed t es).toList (t.toList ++ es) := by
  induction es generalizing t with
  | nil =>
    rw [List.append_nil]
    exact .refl _
  | cons e es ih =>
    have hperm := perm_insert hk ht e.1 e.2
    rw [erase_of_new hd.new] at hperm
    have hmiddle := (hperm.append_right es).trans List.perm_middle.symm
    exact (ih (ht.insert hk e.1 e.2) (hd.perm hk.equiv hmiddle.symm)).trans hmiddle

theorem perm_toTree (h : s.Lawful keyed) :
    List.Perm (s.toTree (m := Id) keyed).toList s.entries := by
  cases s with
  | tree t => exact .refl _
  | slice fs => exact perm_insertAll hk holds_empty.lawful h.distinct

theorem perm_ofPairs (hd : Distinct keyed.test es) :
    List.Perm (Storage.ofPairs (m := Id) keyed es).entries es := by
  show List.Perm (Storage.entries (if es.length ≤ sliceLimit then
    Storage.slice (bindAll (m := Id) keyed [] es)
    else Storage.tree (Storage.insertAll (m := Id) keyed .empty es))) _
  split
  · rw [bindAll_eq, @merge_of_distinct _ _ _ [] _ hd]
    exact .refl _
  · exact perm_insertAll hk holds_empty.lawful hd

theorem perm_assoc (h : s.Lawful keyed) {k : κ} (hnew : ∀ e ∈ s.entries, keyed.test e.1 k = false)
    (v : ν) : List.Perm (Storage.assoc (m := Id) keyed s k v).entries ((k, v) :: s.entries) := by
  have hinsert {t : Buckets (κ × ν)} (ht : (Storage.tree t).Lawful keyed)
      (hperm : t.toList.Perm s.entries) :
      List.Perm (Storage.insert (m := Id) keyed t k v).toList ((k, v) :: s.entries) := by
    have hp := perm_insert hk ht k v
    rw [erase_of_new fun e he => hnew e (hperm.mem_iff.mp he)] at hp
    exact hp.trans (hperm.cons _)
  cases s with
  | tree t => exact hinsert h (.refl _)
  | slice fs =>
    show List.Perm (Storage.entries (match rebind? (m := Id) keyed k v fs with
      | some gs => Storage.slice gs
      | none => if fs.length < sliceLimit then Storage.slice (fs ++ [(k, v)])
        else Storage.tree (Storage.insert (m := Id) keyed
          (Storage.insertAll (m := Id) keyed .empty fs) k v))) _
    rw [rebind_eq, @lookup_of_new _ _ _ fs _ hnew]
    simp only [Option.isSome_none, Bool.false_eq_true, if_false]
    split
    · exact List.perm_append_comm
    · exact hinsert (h.holds.toTree hk).lawful (perm_toTree hk h)

end Storage

end DynVal
