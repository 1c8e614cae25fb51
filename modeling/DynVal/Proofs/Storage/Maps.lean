import DynVal.Map
import DynVal.Proofs.Storage.Plain
import DynVal.Set

/-!
# Maps and sets without effects

A map holds what its layers hold when they are combined. Whether it is a slice, a tree or a chain
does not matter:

* `Map.perm_resolved`: what the combined layers hold does not depend on how keys are hashed.
* `Map.get?_eq`: looking a key up layer by layer finds what it finds in the combined layers.
* `Map.holds_merge`: merging, at once or by a further layer, puts in the entries of the map in front
  one after the other, those with a skipped value apart.
* `Set.holds_ofList`: a set of some elements holds one of each that are equal.
-/

namespace DynVal

open Entries

namespace Map

variable {α : Type} (keyed : Keyed Id α)

/-- Whether a merge leaves an entry with this value out. -/
def skips (skip : Option α) (v : α) : Bool := Id.run (isSkipped keyed skip v)

/-- Every layer is a lawful storage. -/
def Lawful : Map α → Prop
  | .flat s => s.Lawful keyed
  | .chain front _ back _ => front.Lawful ∧ back.Lawful

/-- The combined layers hold these entries. -/
structure Holds (x : Map α) (es : List (α × α)) : Prop where
  lawful : x.Lawful keyed
  resolved : Storage.Holds keyed (x.resolved (m := Id) keyed) es

variable {keyed} (hk : keyed.Lawful) {s : Storage α α} {x front back : Map α} {skip : Option α}
  {es fs : List (α × α)}

theorem holds_flat (h : s.Holds keyed es) : (Map.flat s).Holds keyed es := ⟨h.lawful, h⟩

include hk

theorem Holds.distinct (h : x.Holds keyed es) : Distinct keyed.test es := h.resolved.distinct hk

/-! ## Layers -/

theorem holds_overlay (skip : Option α) {t : Buckets (α × α)}
    (h : (Storage.tree t).Holds keyed es) (fs : List (α × α)) :
    (Storage.tree (overlay (m := Id) keyed skip t fs)).Holds keyed
      (Entries.merge keyed.test (skips keyed skip) es fs) := by
  induction fs generalizing t es with
  | nil => exact h
  | cons f fs ih =>
    show Storage.Holds keyed (Storage.tree (if skips keyed skip f.2 = true then
      overlay (m := Id) keyed skip t fs
      else overlay (m := Id) keyed skip (Storage.insert (m := Id) keyed t f.1 f.2) fs)) _
    simp only [Entries.merge, List.foldl_cons]
    split
    · exact ih h
    · exact ih (h.insert hk f.1 f.2)

/-- What is laid over a tree goes in as it is. -/
theorem perm_overlay (skip : Option α) {t : Buckets (α × α)}
    (h : (Storage.tree t).Lawful keyed) (hd : Distinct keyed.test fs) :
    List.Perm (overlay (m := Id) keyed skip t fs).toList
      (fs.filter (fun f => !skips keyed skip f.2) ++
        untouched keyed.test (skips keyed skip) fs t.toList) := by
  induction fs generalizing t with
  | nil =>
    show List.Perm t.toList _
    simp [untouched]
  | cons f fs ih =>
    show List.Perm (if skips keyed skip f.2 = true then overlay (m := Id) keyed skip t fs
      else overlay (m := Id) keyed skip (Storage.insert (m := Id) keyed t f.1 f.2) fs).toList _
    by_cases hs : skips keyed skip f.2 = true
    · rw [if_pos hs, List.filter_cons_of_neg (by simp [hs]), untouched_of_skip hs]
      exact ih h hd.tail
    · rw [if_neg hs, List.filter_cons_of_pos (by simp [hs])]
      have hput := @untouched_perm _ _ keyed.test _ _ _ _ (skips keyed skip) (.refl fs)
        (Storage.perm_insert hk h f.1 f.2)
      rw [untouched_cons hd hs] at hput
      exact ((ih (h.insert hk f.1 f.2) hd.tail).trans (hput.append_left _)).trans List.perm_middle

theorem holds_chain (hf : front.Holds keyed fs) (hb : back.Holds keyed es) (d : Nat) :
    (Map.chain front skip back d).Holds keyed
      (Entries.merge keyed.test (skips keyed skip) es fs) := by
  refine ⟨⟨hf.lawful, hb.lawful⟩, ?_⟩
  have hover := holds_overlay hk skip (hb.resolved.toTree hk)
    (Storage.entries (front.resolved (m := Id) keyed))
  refine Storage.Holds.of_alike hk hover ?_
  exact (Alike.refl es).merge hk.equiv _ hf.resolved.alike (hb.distinct hk)
    hf.resolved.lawful.distinct

theorem Lawful.holds (h : x.Lawful keyed) :
    x.Holds keyed (Storage.entries (x.resolved (m := Id) keyed)) := by
  induction x with
  | flat s => exact holds_flat (Storage.Lawful.holds h)
  | chain front skip back d ihf ihb =>
    exact ⟨h, (holds_chain hk (ihf h.1) (ihb h.2) d).resolved.lawful.holds⟩

/-- What the combined layers hold depends on which keys are the same, not on how keys are hashed. -/
theorem perm_resolved {keyed' : Keyed Id α} (hk' : keyed'.Lawful) (ht : keyed.test = keyed'.test)
    (h : x.Lawful keyed) (h' : x.Lawful keyed') :
    List.Perm (Storage.entries (x.resolved (m := Id) keyed))
      (Storage.entries (x.resolved (m := Id) keyed')) := by
  induction x with
  | flat s => exact .refl _
  | chain front skip back d ihf ihb =>
    have hlayers {keyed : Keyed Id α} (hk : keyed.Lawful) (hf : front.Lawful keyed)
        (hb : back.Lawful keyed) :
        List.Perm (Storage.entries ((Map.chain front skip back d).resolved (m := Id) keyed))
          ((Storage.entries (front.resolved (m := Id) keyed)).filter
              (fun f => !skips keyed skip f.2) ++
            untouched keyed.test (skips keyed skip)
              (Storage.entries (front.resolved (m := Id) keyed))
              (Storage.entries (back.resolved (m := Id) keyed))) := by
      have hback := (Lawful.holds hk hb).resolved
      refine (perm_overlay hk skip (hback.toTree hk).lawful
        (Lawful.holds hk hf).resolved.lawful.distinct).trans ?_
      exact (untouched_perm _ (.refl _) (Storage.perm_toTree hk hback.lawful)).append_left _
    have hskip : skips keyed skip = skips keyed' skip := by
      funext v
      cases skip with
      | none => rfl
      | some s => exact congrFun (congrFun ht v) s
    refine (hlayers hk h.1 h.2).trans (.trans ?_ (hlayers hk' h'.1 h'.2).symm)
    rw [ht, hskip]
    exact ((ihf h.1 h'.1).filter _).append (untouched_perm _ (ihf h.1 h'.1) (ihb h.2 h'.2))

theorem get?_eq (h : x.Holds keyed es) (k : α) :
    x.get? (m := Id) keyed k = lookup keyed.test k es := by
  induction x generalizing es with
  | flat s => exact Storage.get?_eq hk h.resolved k
  | chain front skip back d ihf ihb =>
    have hf := Lawful.holds hk h.lawful.1
    have hb := Lawful.holds hk h.lawful.2
    have hchain := @holds_chain _ _ hk _ _ skip _ _ hf hb d
    rw [← h.resolved.lookup_eq hk, hchain.resolved.lookup_eq hk,
      lookup_merge hk.equiv _ (hb.distinct hk) (hf.distinct hk), ← ihf hf, ← ihb hb]
    rfl

/-! ## Operations -/

omit hk in
theorem size_eq (h : x.Holds keyed es) : x.size (m := Id) keyed = es.length :=
  Storage.Holds.size_eq h.resolved

theorem contains_eq (h : x.Holds keyed es) (k : α) :
    x.contains (m := Id) keyed k = (lookup keyed.test k es).isSome :=
  Storage.contains_eq hk h.resolved k

theorem Holds.assoc (h : x.Holds keyed es) (k v : α) :
    Map.Holds keyed (x.assoc (m := Id) keyed k v) (put keyed.test k v es) :=
  holds_flat (Storage.Holds.assoc hk h.resolved k v)

theorem Holds.dissoc (h : x.Holds keyed es) (k : α) :
    Map.Holds keyed (x.dissoc (m := Id) keyed k) (erase keyed.test k es) :=
  holds_flat (Storage.Holds.dissoc hk h.resolved k)

theorem holds_ofPairs (ps : List (α × α)) :
    Map.Holds keyed (Map.ofPairs (m := Id) keyed ps)
      (Entries.merge keyed.test (fun _ => false) [] ps) :=
  holds_flat (Storage.holds_ofPairs hk ps)

theorem holds_layer (hf : front.Holds keyed fs) (hb : back.Holds keyed es) :
    Map.Holds keyed (layer (m := Id) keyed back front skip)
      (Entries.merge keyed.test (skips keyed skip) es fs) := by
  have hchain := @holds_chain _ _ hk _ _ skip _ _ hf hb (back.depth + front.depth + 1)
  unfold layer
  dsimp only
  split
  · exact holds_flat hchain.resolved
  · exact hchain

theorem holds_assocAll {done : Option (Storage α α)} (h : (done.getD s).Holds keyed es)
    (fs : List (α × α)) :
    ((Id.run (assocAll? keyed s skip done fs)).getD s).Holds keyed
      (Entries.merge keyed.test (skips keyed skip) es fs) := by
  induction fs generalizing done es with
  | nil => exact h
  | cons f fs ih =>
    show Storage.Holds keyed ((if skips keyed skip f.2 = true then
      Id.run (assocAll? keyed s skip done fs)
      else Id.run (assocAll? keyed s skip
        (some (Storage.assoc (m := Id) keyed (done.getD s) f.1 f.2)) fs)).getD s) _
    simp only [Entries.merge, List.foldl_cons]
    split
    · exact ih h
    · exact @ih _ (some _) (h.assoc hk f.1 f.2)

theorem holds_merge (hf : front.Holds keyed fs) (hb : back.Holds keyed es) :
    ((Id.run (merge? keyed back front skip)).getD back).Holds keyed
      (Entries.merge keyed.test (skips keyed skip) es fs) := by
  have hlayer := @holds_layer _ _ hk _ _ skip _ _ hf hb
  match front, back with
  | .chain .., _ => exact hlayer
  | .flat (.tree _), _ => exact hlayer
  | .flat (.slice _), .chain .. => exact hlayer
  | .flat (.slice _), .flat (.tree _) => exact hlayer
  | .flat (.slice gs), .flat (.slice bs) =>
    have hgs : Alike keyed.test gs fs := hf.resolved.alike
    simp only [merge?]
    split
    · rename_i hempty
      obtain rfl := List.isEmpty_iff.mp hempty
      obtain rfl := List.length_eq_zero_iff.mp hgs.length_eq.symm
      exact hb
    split
    · have hall := @holds_assocAll _ _ hk (.slice bs) skip _ none hb.resolved gs
      have halike := (@Alike.refl _ _ keyed.test es).merge hk.equiv (skips keyed skip) hgs
        (hb.distinct hk) hf.resolved.lawful.distinct
      have hheld := holds_flat (hall.of_alike hk halike)
      show Map.Holds keyed (Option.getD (Option.map Map.flat
        (Id.run (assocAll? keyed (.slice bs) skip none gs))) _) _
      cases hr : Id.run (assocAll? keyed (.slice bs) skip none gs) with
      | none => rw [hr] at hheld; exact hheld
      | some s => rw [hr] at hheld; exact hheld
    · exact hlayer

end Map

/-! ## Sets -/

namespace Set

variable {κ : Type} {keyed : Keyed Id κ} (hk : keyed.Lawful) {s t : Set κ}
  {es : List (κ × Unit)}

/-- Elements as entries without values. -/
def bare (xs : List κ) : List (κ × Unit) := xs.map fun x => (x, ())

theorem put_eq_self {k : κ} (h : (lookup keyed.test k es).isSome = true) :
    put keyed.test k () es = es := by
  induction es with
  | nil => cases h
  | cons e es ih =>
    rw [lookup_cons] at h
    simp only [put]
    split
    · rfl
    · rename_i hne
      rw [if_neg hne] at h
      rw [ih h]

include hk

theorem contains_eq (h : s.members.Holds keyed es) (x : κ) :
    s.contains (m := Id) keyed x = (lookup keyed.test x es).isSome :=
  Storage.contains_eq hk h x

theorem holds_include (h : s.members.Holds keyed es) (x : κ) :
    ((Id.run (s.include? keyed x)).getD s).members.Holds keyed (put keyed.test x () es) := by
  show Storage.Holds keyed ((if Id.run (s.contains keyed x) = true then none
    else some (Set.mk (s.members.assoc (m := Id) keyed x ()))).getD s).members _
  rw [show Id.run (s.contains keyed x) = _ from contains_eq hk h x]
  split
  · rename_i hin
    rw [put_eq_self hin]
    exact h
  · exact Storage.Holds.assoc hk h x ()

theorem exclude_eq (h : s.members.Holds keyed es) (x : κ) :
    ((Id.run (s.exclude? keyed x)).getD s).members =
      if (lookup keyed.test x es).isSome then s.members.dissoc (m := Id) keyed x
      else s.members := by
  show ((if Id.run (s.contains keyed x) = true then
    some (Set.mk (s.members.dissoc (m := Id) keyed x)) else none).getD s).members = _
  rw [show Id.run (s.contains keyed x) = _ from contains_eq hk h x]
  split <;> rfl

theorem holds_exclude (h : s.members.Holds keyed es) (x : κ) :
    ((Id.run (s.exclude? keyed x)).getD s).members.Holds keyed (erase keyed.test x es) := by
  rw [exclude_eq hk h]
  split
  · exact Storage.Holds.dissoc hk h x
  · rename_i hout
    rw [erase_of_lookup_eq_none hk.equiv (h.distinct hk) (by simpa using hout)]
    exact h

/-- The other elements stay as they are. -/
theorem perm_exclude (h : s.members.Lawful keyed) (x : κ) :
    List.Perm ((Id.run (s.exclude? keyed x)).getD s).members.entries
      (erase keyed.test x s.members.entries) := by
  rw [exclude_eq hk h.holds]
  split
  · exact Storage.perm_dissoc hk h x
  · rename_i hout
    rw [erase_of_lookup_eq_none hk.equiv h.distinct (by simpa using hout)]

omit hk in
theorem includeAll_cons (done : Option (Set κ)) (x : κ) (xs : List κ) :
    Id.run (includeAll? keyed s done (x :: xs)) =
      (Id.run ((done.getD s).include? keyed x)).elim (Id.run (includeAll? keyed s done xs))
        fun t => Id.run (includeAll? keyed s (some t) xs) := by
  rw [includeAll?, Id.run_bind]
  cases Id.run ((done.getD s).include? keyed x) <;> rfl

theorem holds_includeAll {done : Option (Set κ)} (h : (done.getD s).members.Holds keyed es)
    (xs : List κ) :
    ((Id.run (includeAll? keyed s done xs)).getD s).members.Holds keyed
      (Entries.merge keyed.test (fun _ => false) es (bare xs)) := by
  induction xs generalizing done es with
  | nil => exact h
  | cons x xs ih =>
    have hx := holds_include hk h x
    rw [includeAll_cons]
    cases hr : Id.run ((done.getD s).include? keyed x) with
    | none => rw [hr] at hx; exact ih hx
    | some t => rw [hr] at hx; exact @ih _ (some t) hx

/-- Distinct elements that are not there yet are added as they are. -/
theorem perm_includeAll {done : Option (Set κ)} (h : (done.getD s).members.Lawful keyed)
    {xs : List κ} (hd : Distinct keyed.test ((done.getD s).members.entries ++ bare xs)) :
    List.Perm ((Id.run (includeAll? keyed s done xs)).getD s).members.entries
      ((done.getD s).members.entries ++ bare xs) := by
  induction xs generalizing done with
  | nil =>
    rw [bare, List.map_nil, List.append_nil]
    exact .refl _
  | cons x xs ih =>
    have hnew := hd.new
    have hout : Id.run ((done.getD s).contains keyed x) = false := by
      rw [show Id.run ((done.getD s).contains keyed x) = _ from contains_eq hk h.holds x,
        lookup_of_new hnew]
      rfl
    have hinclude : Id.run ((done.getD s).include? keyed x) =
        some (Set.mk ((done.getD s).members.assoc (m := Id) keyed x ())) := by
      show (if Id.run ((done.getD s).contains keyed x) = true then none
        else some (Set.mk ((done.getD s).members.assoc (m := Id) keyed x ()))) = _
      rw [hout, if_neg Bool.false_ne_true]
    rw [includeAll_cons, hinclude, Option.elim_some]
    have hmiddle := ((Storage.perm_assoc hk h hnew ()).append_right (bare xs)).trans
      List.perm_middle.symm
    exact (@ih (some _) (h.holds.assoc hk x ()).lawful (hd.perm hk.equiv hmiddle.symm)).trans
      hmiddle

theorem perm_ofList {xs : List κ} (hd : Distinct keyed.test (bare xs)) :
    List.Perm (Set.ofList (m := Id) keyed xs).elements xs := by
  have hperm := @perm_includeAll _ _ hk Set.empty none
    (Storage.holds_slice .nil).lawful xs hd
  have hkeys := hperm.map Prod.fst
  have hbare : (bare xs).map Prod.fst = xs := by simp [bare, Function.comp_def]
  rw [show Storage.entries (Option.getD none Set.empty).members = ([] : List (κ × Unit)) from rfl,
    List.nil_append, hbare] at hkeys
  exact hkeys

theorem holds_ofList (xs : List κ) :
    Storage.Holds keyed (Set.ofList (m := Id) keyed xs).members
      (Entries.merge keyed.test (fun _ => false) [] (bare xs)) :=
  @holds_includeAll _ _ hk Set.empty _ none (Storage.holds_slice .nil) xs

end Set
end DynVal
