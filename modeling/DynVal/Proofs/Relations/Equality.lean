import DynVal.Proofs.Relations.Matching
import DynVal.Proofs.Storage.Maps
import DynVal.Proofs.Values.Records

/-!
# Equality of well-formed values

A value is well formed when its storages are lawful: a window shows as many elements as it carries,
no two keys of a map or elements of a set are equal, trees keep them by hash, and the fields of a
record stand in order. On such values
equality is symmetric and transitive and refines the order. The three are proved together by
induction on depth, since a map is only told apart by its keys where keys are.

* `equal_iff`: values are equal when they are one node or when their parts match by equality.
* `lawful_wellFormed`: well-formed values are lawful keys.
* `order_eq_of_equal`, `equal_of_order_eq`: equal values are not told apart by the order, and where
  no NaN and no recur marker is held, values that the order does not tell apart are equal.
-/

namespace DynVal

open Std Entries

/-! ## Restricted keys -/

open Classical in
/-- Keys that lie outside a property are equal to nothing. -/
noncomputable def Keyed.within {κ : Type} (keyed : Keyed Id κ) (P : κ → Prop) : Keyed Id κ :=
  ⟨fun x y => decide (P x ∧ P y ∧ keyed.test x y = true), keyed.hash⟩

section Within

variable {κ ν : Type} {keyed : Keyed Id κ} {P : κ → Prop} {x y : κ}

open Classical in
theorem Keyed.test_within :
    (keyed.within P).test x y = true ↔ P x ∧ P y ∧ keyed.test x y = true :=
  decide_eq_true_iff

theorem Keyed.test_within_eq (hx : P x) (hy : P y) :
    (keyed.within P).test x y = keyed.test x y := by
  rw [Bool.eq_iff_iff, Keyed.test_within]
  exact ⟨fun h => h.2.2, fun h => ⟨hx, hy, h⟩⟩

theorem keys_within : Tracking.plain.Keys P keyed fun _ => keyed.within P where
  same _ _ hx hy := ⟨trivial, (Keyed.test_within_eq hx hy).symm⟩
  hash _ _ := ⟨trivial, rfl⟩

theorem lawful_within_iff {s : Storage κ ν} (hs : ∀ e ∈ s.entries, P e.1) :
    s.Lawful (keyed.within P) ↔ s.Lawful keyed := by
  have hd : Distinct (keyed.within P).test s.entries ↔ Distinct keyed.test s.entries :=
    List.Pairwise.iff_of_mem fun he hf => by rw [Keyed.test_within_eq (hs _ he) (hs _ hf)]
  exact ⟨fun h => ⟨hd.mp h.distinct, h.keeps⟩, fun h => ⟨hd.mpr h.distinct, h.keeps⟩⟩

theorem Map.lawful_within_iff {keyed : Keyed Id κ} {m : Map κ} (hm : m.All P) :
    m.Lawful (keyed.within P) ↔ m.Lawful keyed := by
  induction m with
  | flat s => exact DynVal.lawful_within_iff fun e he => (hm e he).1
  | chain front skip back d ihf ihb => exact and_congr (ihf hm.1) (ihb hm.2.2)

end Within

/-- If each element has a partner, and no two have one in common, then two lists of one length pair
off. -/
theorem rel_of_forall_exists {α β : Type} {R : α → β → Prop} {xs : List α} {ys : List β}
    (hlen : xs.length = ys.length) (hex : ∀ x ∈ xs, ∃ y ∈ ys, R x y)
    (hone : xs.Pairwise fun x x' => ∀ y, R x y → ¬R x' y) :
    Multiset.Rel R (xs : Multiset α) (ys : Multiset β) := by
  induction xs generalizing ys with
  | nil =>
    obtain rfl := List.length_eq_zero_iff.mp hlen.symm
    exact .zero
  | cons x xs ih =>
    obtain ⟨hx, hrest⟩ := List.pairwise_cons.mp hone
    obtain ⟨y, hy, hxy⟩ := hex x (by simp)
    obtain ⟨s, t, rfl⟩ := List.append_of_mem hy
    have hperm : (s ++ y :: t).Perm (y :: (s ++ t)) := List.perm_middle
    rw [Multiset.coe_eq_coe.mpr hperm, ← Multiset.cons_coe, ← Multiset.cons_coe]
    refine .cons hxy (ih ?_ (fun x' hx' => ?_) hrest)
    · have := hperm.length_eq
      simp only [List.length_cons] at hlen this
      omega
    · obtain ⟨z, hz, hxz⟩ := hex x' (by simp [hx'])
      refine ⟨z, ?_, hxz⟩
      rcases List.mem_cons.mp (hperm.mem_iff.mp hz) with rfl | hz
      · exact absurd hxz (hx x' hx' z hxy)
      · exact hz

namespace Value

/-! ## Loops without effects -/

variable {eq : Value → Value → Bool} {xs ys : List Value} {x : Value}

theorem allPairs_iff (h : xs.length = ys.length) :
    allPairsM (m := Id) eq xs ys = true ↔ List.Forall₂ (fun x y => eq x y = true) xs ys := by
  induction xs generalizing ys with
  | nil =>
    obtain rfl := List.length_eq_zero_iff.mp h.symm
    exact ⟨fun _ => .nil, fun _ => rfl⟩
  | cons x xs ih =>
    cases ys with
    | nil => cases h
    | cons y ys =>
      rw [List.forall₂_cons, ← ih (by simpa using h)]
      show (if eq x y = true then Id.run (allPairsM (m := Id) eq xs ys) else false) = true ↔ _
      split <;> simp_all [Id.run]

theorem equalToSome_iff :
    equalToSomeM (m := Id) eq x ys = true ↔ ∃ y ∈ ys, eq x y = true := by
  induction ys with
  | nil => exact ⟨nofun, fun ⟨_, h, _⟩ => by cases h⟩
  | cons y ys ih =>
    rw [List.exists_mem_cons_iff, ← ih]
    show (if eq x y = true then true else Id.run (equalToSomeM (m := Id) eq x ys)) = true ↔ _
    split <;> simp_all [Id.run]

theorem every_iff {test : Value → Bool} :
    everyM (m := Id) test xs = true ↔ ∀ x ∈ xs, test x = true := by
  induction xs with
  | nil => exact ⟨fun _ _ h => (List.not_mem_nil h).elim, fun _ => rfl⟩
  | cons x xs ih =>
    rw [List.forall_mem_cons, ← ih]
    show (if test x = true then Id.run (everyM (m := Id) test xs) else false) = true ↔ _
    split <;> simp_all [Id.run]

theorem entriesIn_iff {rel : Relations Id} {y : Map Value} {es : List (Value × Value)} :
    entriesInM rel y es = true ↔
      ∀ e ∈ es, ∃ v, y.get? rel.keyed e.1 = some v ∧ rel.equal e.2 v = true := by
  induction es with
  | nil => exact ⟨fun _ _ h => (List.not_mem_nil h).elim, fun _ => rfl⟩
  | cons e es ih =>
    rw [List.forall_mem_cons, ← ih]
    simp only [entriesInM]
    change Id.run (Id.run (y.get? rel.keyed e.1) >>= _) = true ↔
      (∃ v, Id.run (y.get? rel.keyed e.1) = some v ∧ _) ∧ _
    rw [Id.run_bind]
    cases Id.run (y.get? rel.keyed e.1) with
    | none => simp [Id.run]
    | some v =>
      show (if Id.run (rel.equal e.2 v) = true then Id.run (entriesInM rel y es) else false) =
        true ↔ _
      simp only [Option.some.injEq, exists_eq_left']
      split <;> simp_all [Id.run]

/-- Values of one node are equal at once, others where their parts are. -/
theorem ite_isSame_iff {β : Type} {wrap : Shared β → Value} {x y : Shared β} {test : Bool}
    {M : Prop} (h : test = true ↔ M) :
    (if isSame wrap x y = true then true else test) = true ↔ wrap x = wrap y ∨ M := by
  split
  · rename_i hs
    exact ⟨fun _ => .inl (isSame_iff.mp hs), fun _ => rfl⟩
  · rename_i hs
    rw [or_iff_right fun hxy => hs (isSame_iff.mpr hxy)]
    exact h

/-- A test behind a comparison of sizes, where what it tests asks for equal sizes. -/
theorem ite_size_iff {n k : Nat} {test : Bool} {M : Prop} (hsize : M → n = k)
    (h : n = k → (test = true ↔ M)) : (if n != k then false else test) = true ↔ M := by
  by_cases hnk : n = k
  · rw [if_neg (by simpa using hnk)]
    exact h hnk
  · rw [if_pos (by simpa using hnk)]
    exact ⟨fun h => absurd h Bool.false_ne_true, fun h => absurd (hsize h) hnk⟩

/-! ## Well-formed values -/

/-- What a value holds is stored in a lawful way. -/
def Formed (rank : Fn → Nat) : Value → Prop
  | .list l => l.body.shown.size = l.body.length
  | .map m => m.body.Lawful (relations rank).keyed
  | .set s => s.body.members.Lawful (relations rank).keyed
  | .record r => r.body.Ordered
  | _ => True

/-- The values that have a node, which may be equal without being looked into. -/
def isShared : Value → Bool
  | .list _ | .map _ | .set _ | .record _ | .tuple _ => true
  | _ => false

section Equal

variable {ρ : Ranking} {P : Value → Prop}

/-- Equal values with a property. -/
def Agree (ρ : Ranking) (P : Value → Prop) (a b : Value) : Prop :=
  ((relations ρ.rank).keyed.within P).test a b = true

theorem agree_iff {a b : Value} : Agree ρ P a b ↔ P a ∧ P b ∧ equal ρ.rank a b = true :=
  Keyed.test_within

theorem agree_iff_equal {a b : Value} (ha : P a) (hb : P b) :
    Agree ρ P a b ↔ equal ρ.rank a b = true := by
  rw [agree_iff]
  exact ⟨fun h => h.2.2, fun h => ⟨ha, hb, h⟩⟩

theorem forall₂_agree_iff {xs ys : List Value} (hx : ∀ p ∈ xs, P p) (hy : ∀ p ∈ ys, P p) :
    List.Forall₂ (fun x y => equal ρ.rank x y = true) xs ys ↔ List.Forall₂ (Agree ρ P) xs ys :=
  ⟨forall₂_mono fun x hxm y hym h => (agree_iff_equal (hx x hxm) (hy y hym)).mpr h,
    forall₂_mono fun x hxm y hym h => (agree_iff_equal (hx x hxm) (hy y hym)).mp h⟩

variable (hP : ((relations ρ.rank).keyed.within P).Lawful)
include hP

/-- The entries of a map as it is held by restricted keys. -/
theorem holds_entriesUnder {x : MapNode} (hx : x.body.Lawful (relations ρ.rank).keyed)
    (hp : x.body.All P) :
    x.body.Holds ((relations ρ.rank).keyed.within P) (entriesUnder ρ.rank x) ∧
      ∀ e ∈ entriesUnder ρ.rank x, P e.1 ∧ P e.2 := by
  have hres := Tracking.gives_resolved (T := Tracking.plain)
    (@keys_within _ (relations ρ.rank).keyed P) hp
  have hentries : entriesUnder ρ.rank x =
      Storage.entries (x.body.resolved (m := Id) ((relations ρ.rank).keyed.within P)) :=
    congrArg Storage.entries hres.2
  refine ⟨?_, hres.1⟩
  rw [hentries]
  exact Map.Lawful.holds hP ((Map.lawful_within_iff hp).mpr hx)

theorem equal_map_iff {x y : MapNode} (hx : x.body.Lawful (relations ρ.rank).keyed)
    (hy : y.body.Lawful (relations ρ.rank).keyed) (hpx : x.body.All P) (hpy : y.body.All P) :
    equal ρ.rank (.map x) (.map y) = true ↔
      Value.map x = .map y ∨ Matches ρ (Agree ρ P) (.map x) (.map y) := by
  obtain ⟨hxs, hxp⟩ := holds_entriesUnder hP hx hpx
  obtain ⟨hys, hyp⟩ := holds_entriesUnder hP hy hpy
  have hfind {k v : Value} (hk : P k) (hv : P v) :
      (∃ w, y.body.get? (relations ρ.rank).keyed k = some w ∧ (relations ρ.rank).equal v w = true) ↔
        ∃ f ∈ entriesUnder ρ.rank y, Agree ρ P k f.1 ∧ Agree ρ P v f.2 := by
    have hget : y.body.get? (relations ρ.rank).keyed k =
        Entries.lookup ((relations ρ.rank).keyed.within P).test k (entriesUnder ρ.rank y) :=
      (Tracking.gives_lookup (T := Tracking.plain) keys_within hpy hk).2.trans
        (Map.get?_eq hP hys k)
    rw [hget]
    simp only [lookup_eq_some_iff hP.equiv (hys.distinct hP)]
    constructor
    · rintro ⟨w, ⟨f, hf, hfk, rfl⟩, hvw⟩
      exact ⟨f, hf, hP.equiv.symm hfk, (agree_iff_equal hv (hyp f hf).2).mpr hvw⟩
    · rintro ⟨f, hf, hkf, hvf⟩
      exact ⟨f.2, ⟨f, hf, hP.equiv.symm hkf, rfl⟩, (agree_iff_equal hv (hyp f hf).2).mp hvf⟩
  rw [equal_def]
  refine ite_isSame_iff ?_
  simp only [storageOf_ofRank]
  show (if (entriesUnder ρ.rank x).length != (entriesUnder ρ.rank y).length then false
    else Id.run (entriesInM (relations ρ.rank) y.body (entriesUnder ρ.rank x))) = true ↔ _
  refine ite_size_iff Multiset.card_eq_card_of_rel fun hlen =>
    entriesIn_iff.trans ⟨fun h => ?_, fun h e he => ?_⟩
  · refine rel_of_forall_exists hlen (fun e he => ?_) ?_
    · exact (hfind (hxp e he).1 (hxp e he).2).mp (h e he)
    · refine (hxs.distinct hP).imp fun hee' f hef he'f => ?_
      have := hP.equiv.trans hef.1 (hP.equiv.symm he'f.1)
      rw [hee'] at this
      cases this
  · obtain ⟨f, hf, hef⟩ := Multiset.exists_mem_of_rel_of_mem h (Multiset.mem_coe.mpr he)
    exact (hfind (hxp e he).1 (hxp e he).2).mpr ⟨f, Multiset.mem_coe.mp hf, hef⟩

theorem equal_set_iff {x y : SetNode} (hx : x.body.members.Lawful (relations ρ.rank).keyed)
    (hpx : ∀ p ∈ x.body.elements, P p) (hpy : ∀ p ∈ y.body.elements, P p) :
    equal ρ.rank (.set x) (.set y) = true ↔
      Value.set x = .set y ∨ Matches ρ (Agree ρ P) (.set x) (.set y) := by
  have hdistinct : x.body.elements.Pairwise fun p q => ¬Agree ρ P p q := by
    have hkeys : ∀ e ∈ x.body.members.entries, P e.1 := fun e he => hpx _ (List.mem_map_of_mem he)
    refine List.pairwise_map.mpr (((lawful_within_iff hkeys).mpr hx).distinct.imp fun h => ?_)
    simpa [Agree] using h
  have hsize (s : SetNode) : s.body.size = s.body.elements.length := (List.length_map ..).symm
  rw [equal_def]
  refine ite_isSame_iff ?_
  show (if x.body.size != y.body.size then false else Id.run (everyM (m := Id)
    (fun e => equalToSomeM (m := Id) (relations ρ.rank).equal e y.body.elements)
      x.body.elements)) = true ↔ _
  rw [hsize, hsize]
  refine ite_size_iff Multiset.card_eq_card_of_rel fun hlen =>
    every_iff.trans ⟨fun h => ?_, fun h p hp => ?_⟩
  · refine rel_of_forall_exists hlen (fun p hp => ?_) ?_
    · obtain ⟨q, hq, hpq⟩ := equalToSome_iff.mp (h p hp)
      exact ⟨q, hq, (agree_iff_equal (hpx p hp) (hpy q hq)).mpr hpq⟩
    · exact hdistinct.imp fun hpp' q hpq hp'q => hpp' (hP.equiv.trans hpq (hP.equiv.symm hp'q))
  · obtain ⟨q, hq, hpq⟩ := Multiset.exists_mem_of_rel_of_mem h (Multiset.mem_coe.mpr hp)
    have hq := Multiset.mem_coe.mp hq
    exact equalToSome_iff.mpr ⟨q, hq, (agree_iff_equal (hpx p hp) (hpy q hq)).mp hpq⟩

omit hP

theorem equal_list_iff {x y : ListNode} (hx : x.body.shown.size = x.body.length)
    (hy : y.body.shown.size = y.body.length) (hpx : ∀ p ∈ x.body.shown.toList, P p)
    (hpy : ∀ p ∈ y.body.shown.toList, P p) :
    equal ρ.rank (.list x) (.list y) = true ↔
      Value.list x = .list y ∨ Matches ρ (Agree ρ P) (.list x) (.list y) := by
  have hlengths (h : x.body.shown.toList.length = y.body.shown.toList.length) :
      x.body.length = y.body.length := by
    simpa [hx, hy] using h
  rw [equal_def]
  refine ite_isSame_iff ?_
  show (if x.body.length != y.body.length then false else Id.run (allPairsM (m := Id)
    (relations ρ.rank).equal x.body.shown.toList y.body.shown.toList)) = true ↔ _
  refine ite_size_iff (fun h => hlengths (List.Forall₂.length_eq h)) fun hlen => ?_
  have hlen : x.body.shown.toList.length = y.body.shown.toList.length := by
    simpa [hx, hy] using hlen
  exact (allPairs_iff hlen).trans (forall₂_agree_iff hpx hpy)

theorem equal_record_iff {x y : RecordNode} (hpx : ∀ p ∈ x.body.values, P p)
    (hpy : ∀ p ∈ y.body.values, P p) :
    equal ρ.rank (.record x) (.record y) = true ↔
      Value.record x = .record y ∨ Matches ρ (Agree ρ P) (.record x) (.record y) := by
  rw [equal_def]
  refine ite_isSame_iff ?_
  show (if (x.body.name == y.body.name && x.body.names == y.body.names) = true then
    Id.run (allPairsM (m := Id) (relations ρ.rank).equal x.body.values y.body.values)
      else false) = true ↔ _
  split
  · rename_i hshape
    simp only [Bool.and_eq_true, beq_iff_eq] at hshape
    have hlen : x.body.values.length = y.body.values.length := by
      simpa [Record.names, Record.values] using congrArg List.length hshape.2
    refine ((allPairs_iff hlen).trans (forall₂_agree_iff hpx hpy)).trans ?_
    exact ⟨fun h => ⟨hshape.1, hshape.2, h⟩, fun h => h.2.2⟩
  · rename_i hshape
    refine ⟨fun h => absurd h Bool.false_ne_true, fun h => ?_⟩
    exact absurd (by simp [h.1, h.2.1]) hshape

theorem equal_tuple_iff {x y : TupleNode} (hpx : ∀ p ∈ x.body.items, P p)
    (hpy : ∀ p ∈ y.body.items, P p) :
    equal ρ.rank (.tuple x) (.tuple y) = true ↔
      Value.tuple x = .tuple y ∨ Matches ρ (Agree ρ P) (.tuple x) (.tuple y) := by
  have hmatch : Matches ρ (Agree ρ P) (.tuple x) (.tuple y) ↔
      equal ρ.rank x.body.tag y.body.tag = true ∧
        List.Forall₂ (Agree ρ P) x.body.extra y.body.extra :=
    List.forall₂_cons.trans
      (and_congr_left' (agree_iff_equal (hpx _ List.mem_cons_self) (hpy _ List.mem_cons_self)))
  rw [equal_def, hmatch]
  refine ite_isSame_iff ?_
  show (if equal ρ.rank x.body.tag y.body.tag = true then
    (if x.body.extra.length == y.body.extra.length then Id.run (allPairsM (m := Id)
      (relations ρ.rank).equal x.body.extra y.body.extra) else false) else false) = true ↔ _
  split
  · rename_i htag
    split
    · rename_i hlen
      refine (allPairs_iff (by simpa using hlen)).trans ((forall₂_agree_iff
        (fun p hp => hpx p (List.mem_cons_of_mem _ hp))
        fun p hp => hpy p (List.mem_cons_of_mem _ hp)).trans ?_)
      exact ⟨fun h => ⟨htag, h⟩, fun h => h.2⟩
    · rename_i hlen
      refine ⟨fun h => absurd h Bool.false_ne_true, fun h => ?_⟩
      exact absurd (by simp [List.Forall₂.length_eq h.2]) hlen
  · rename_i htag
    exact ⟨fun h => absurd h Bool.false_ne_true, fun h => absurd h.1 htag⟩

include hP

/-- Values are equal when they are one node or when their parts match. -/
theorem equal_iff {a b : Value} (ha : Formed ρ.rank a) (hb : Formed ρ.rank b)
    (hpa : ∀ p ∈ a.parts, P p) (hpb : ∀ p ∈ b.parts, P p) :
    equal ρ.rank a b = true ↔ (a = b ∧ a.isShared = true) ∨ Matches ρ (Agree ρ P) a b := by
  by_cases hk : a.kind = b.kind
  · cases a <;> cases b <;> first | (cases hk; done) | skip
    case map.map x y =>
      simpa [isShared] using equal_map_iff hP ha hb (Map.all_iff.mpr hpa) (Map.all_iff.mpr hpb)
    case set.set x y => simpa [isShared] using equal_set_iff hP ha hpa hpb
    case list.list x y => simpa [isShared] using equal_list_iff ha hb hpa hpb
    case record.record x y => simpa [isShared] using equal_record_iff hpa hpb
    case tuple.tuple x y => simpa [isShared] using equal_tuple_iff hpa hpb
    case nil.nil => simp [equal_def, equalBy, Matches, isShared, pure]
    case bool.bool x y => simp [equal_def, equalBy, Matches, isShared, pure]
    case number.number x y => simp [equal_def, equalBy, Matches, isShared, pure]
    case str.str x y => simp [equal_def, equalBy, Matches, isShared, pure]
    case tag.tag x y => simp [equal_def, equalBy, Matches, isShared, pure]
    case symbol.symbol x y => simp [equal_def, equalBy, Matches, isShared, pure]
    case quote.quote x y => simp [equal_def, equalBy, Matches, isShared, pure]
    case ref.ref x y => simp [equal_def, equalBy, Matches, isShared, pure]
    case fn.fn x y => simp [equal_def, equalBy, Matches, isShared, pure]
    case recur.recur x y => simp [equal_def, equalBy, Matches, isShared, pure]
  · have hno : equal ρ.rank a b = false := by
      rw [equal_def]
      cases a <;> cases b <;> first | rfl | exact absurd rfl hk
    rw [hno]
    refine ⟨fun h => absurd h Bool.false_ne_true, fun h => ?_⟩
    rcases h with h | h
    · exact absurd (congrArg kind h.1) hk
    · exact absurd h.kind_eq hk

end Equal

/-! ## Laws -/

section Laws

variable {ρ : Ranking} {a b c : Value}

/-- Well formed down to the last part. -/
def WellFormed (ρ : Ranking) (v : Value) : Prop := v.Every (Formed ρ.rank)

/-- Well formed and less deep than a bound. -/
def FormedBelow (ρ : Ranking) (d : Nat) (v : Value) : Prop := WellFormed ρ v ∧ v.depth < d

theorem FormedBelow.parts {d : Nat} (h : FormedBelow ρ (d + 1) a) :
    ∀ p ∈ a.parts, FormedBelow ρ d p := by
  intro p hp
  have := depth_lt_of_mem_parts hp
  have := h.2
  exact ⟨h.1.parts p hp, by omega⟩

/-- Below every bound equality is symmetric and transitive and refines the order. -/
theorem laws_below (ρ : Ranking) (d : Nat) :
    ((relations ρ.rank).keyed.within (FormedBelow ρ d)).Lawful ∧
      ∀ a b, Agree ρ (FormedBelow ρ d) a b → order ρ.rank a b = .eq := by
  induction d with
  | zero =>
    have hno {a b : Value} (h : Agree ρ (FormedBelow ρ 0) a b) : False :=
      Nat.not_lt_zero _ (agree_iff.mp h).1.2
    exact ⟨⟨⟨fun h => (hno h).elim, fun h => (hno h).elim⟩, fun h => (hno h).elim⟩,
      fun _ _ h => (hno h).elim⟩
  | succ d ih =>
    obtain ⟨hlaw, hord⟩ := ih
    have hiff {a b : Value} (ha : FormedBelow ρ (d + 1) a) (hb : FormedBelow ρ (d + 1) b) :=
      equal_iff hlaw ha.1.here hb.1.here ha.parts hb.parts
    have hsymm : ∀ p q, Agree ρ (FormedBelow ρ d) p q → Agree ρ (FormedBelow ρ d) q p :=
      fun _ _ => hlaw.equiv.symm
    have htrans : IsTrans Value (Agree ρ (FormedBelow ρ d)) := ⟨fun _ _ _ => hlaw.equiv.trans⟩
    have horder {a b : Value} (h : Agree ρ (FormedBelow ρ (d + 1)) a b) :
        order ρ.rank a b = .eq := by
      obtain ⟨ha, hb, h⟩ := agree_iff.mp h
      rcases (hiff ha hb).mp h with ⟨rfl, -⟩ | h
      · exact ReflCmp.compare_self
      · exact order_eq_of_matches (h.mono fun p _ q _ => hord p q)
    refine ⟨⟨⟨fun {a b} h => ?_, fun {a b c} hab hbc => ?_⟩, fun h => ?_⟩, fun _ _ => horder⟩
    · obtain ⟨ha, hb, h⟩ := agree_iff.mp h
      refine agree_iff.mpr ⟨hb, ha, (hiff hb ha).mpr ?_⟩
      rcases (hiff ha hb).mp h with ⟨rfl, hs⟩ | h
      · exact .inl ⟨rfl, hs⟩
      · exact .inr (h.symm hsymm)
    · obtain ⟨ha, hb, hab⟩ := agree_iff.mp hab
      obtain ⟨-, hc, hbc⟩ := agree_iff.mp hbc
      refine agree_iff.mpr ⟨ha, hc, ?_⟩
      rcases (hiff ha hb).mp hab with ⟨rfl, -⟩ | hab'
      · exact hbc
      rcases (hiff hb hc).mp hbc with ⟨rfl, -⟩ | hbc'
      · exact hab
      · exact (hiff ha hc).mpr (.inr (hab'.trans hbc'))
    · exact digest_eq_of_order_eq (horder h)

theorem equal_of_agree {P : Value → Prop} (h : Agree ρ P a b) : equal ρ.rank a b = true :=
  (agree_iff.mp h).2.2

theorem equal_symm (ha : WellFormed ρ a) (hb : WellFormed ρ b) (h : equal ρ.rank a b = true) :
    equal ρ.rank b a = true :=
  equal_of_agree ((laws_below ρ (max a.depth b.depth + 1)).1.equiv.symm
    (agree_iff.mpr ⟨⟨ha, by omega⟩, ⟨hb, by omega⟩, h⟩))

theorem equal_trans (ha : WellFormed ρ a) (hb : WellFormed ρ b) (hc : WellFormed ρ c)
    (hab : equal ρ.rank a b = true) (hbc : equal ρ.rank b c = true) :
    equal ρ.rank a c = true :=
  equal_of_agree ((laws_below ρ (max a.depth (max b.depth c.depth) + 1)).1.equiv.trans
    (agree_iff.mpr ⟨⟨ha, by omega⟩, ⟨hb, by omega⟩, hab⟩)
    (agree_iff.mpr ⟨⟨hb, by omega⟩, ⟨hc, by omega⟩, hbc⟩))

theorem order_eq_of_equal (ha : WellFormed ρ a) (hb : WellFormed ρ b)
    (h : equal ρ.rank a b = true) : order ρ.rank a b = .eq :=
  (laws_below ρ (max a.depth b.depth + 1)).2 a b
    (agree_iff.mpr ⟨⟨ha, by omega⟩, ⟨hb, by omega⟩, h⟩)

theorem lawful_wellFormed (ρ : Ranking) :
    ((relations ρ.rank).keyed.within (WellFormed ρ)).Lawful where
  equiv := by
    refine ⟨fun h => ?_, fun hab hbc => ?_⟩
    · obtain ⟨ha, hb, h⟩ := agree_iff.mp h
      exact agree_iff.mpr ⟨hb, ha, equal_symm ha hb h⟩
    · obtain ⟨ha, hb, hab⟩ := agree_iff.mp hab
      obtain ⟨-, hc, hbc⟩ := agree_iff.mp hbc
      exact agree_iff.mpr ⟨ha, hc, equal_trans ha hb hc hab hbc⟩
  hash h := by
    obtain ⟨ha, hb, h⟩ := agree_iff.mp h
    exact digest_eq_of_order_eq (order_eq_of_equal ha hb h)

/-- A property of a value and of what it holds as it is read, down to the last part. -/
inductive Throughout (entries : MapNode → List (Value × Value)) (P : Value → Prop) :
    Value → Prop where
  | intro {v : Value} (here : P v) (contents : ∀ p ∈ v.contents entries, Throughout entries P p) :
    Throughout entries P v

section Throughout

variable {entries : MapNode → List (Value × Value)} {P : Value → Prop}

theorem Throughout.here : a.Throughout entries P → P a
  | .intro h _ => h

theorem Throughout.contents :
    a.Throughout entries P → ∀ p ∈ a.contents entries, p.Throughout entries P
  | .intro _ h => h

theorem Throughout.mono {Q : Value → Prop} (h : a.Throughout entries P) (hpq : ∀ v, P v → Q v) :
    a.Throughout entries Q := by
  induction h with
  | intro here _ ih => exact .intro (hpq _ here) ih

theorem mem_contents_congr {entries' : MapNode → List (Value × Value)} {p : Value}
    (h : ∀ x, a = .map x → (entries x).Perm (entries' x)) :
    p ∈ a.contents entries ↔ p ∈ a.contents entries' := by
  cases a with
  | map x => exact ((h x rfl).flatMap_right _).mem_iff
  | _ => exact Iff.rfl

/-- Maps may be read in another way that shows the same entries. -/
theorem Throughout.congr {entries' : MapNode → List (Value × Value)} {S : Value → Prop}
    (hS : ∀ v, S v → ∀ p ∈ v.contents entries, S p)
    (he : ∀ x, S (.map x) → (entries x).Perm (entries' x)) (hv : S a)
    (h : a.Throughout entries P) : a.Throughout entries' P := by
  induction h with
  | @intro v here _ ih =>
    refine .intro here fun p hp => ?_
    have hmem := (mem_contents_congr fun x hx => he x (hx ▸ hv)).mpr hp
    exact ih p hmem (hS v hv p hmem)

end Throughout

theorem WellFormed.contents (h : WellFormed ρ a) :
    ∀ p ∈ a.contents (entriesUnder ρ.rank), WellFormed ρ p :=
  fun p hp => h.parts p (contents_subset_parts hp)

theorem equal_of_order_eq (ha : WellFormed ρ a) (hb : WellFormed ρ b)
    (hda : a.Throughout (entriesUnder ρ.rank) fun v => v.isDefinite = true)
    (hdb : b.Throughout (entriesUnder ρ.rank) fun v => v.isDefinite = true)
    (h : order ρ.rank a b = .eq) : equal ρ.rank a b = true := by
  induction hda generalizing b with
  | @intro a hda _ ih =>
    cases hdb with
    | intro hdb hpb =>
      have hlaw := lawful_wellFormed ρ
      refine (equal_iff hlaw ha.here hb.here ha.parts hb.parts).mpr (.inr ?_)
      refine (matches_of_order_eq hda hdb h).mono fun p hp q hq hpq => ?_
      have hwp := ha.contents p hp
      have hwq := hb.contents q hq
      exact (agree_iff_equal hwp hwq).mpr (ih p hp hwp hwq (hpb q hq) hpq)

end Laws

end Value
end DynVal
