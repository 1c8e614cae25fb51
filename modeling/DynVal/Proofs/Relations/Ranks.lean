import DynVal.Proofs.Relations.Equality

/-!
# The relations under different identity numbers

Trees keep their entries by hash, and hashes depend on the numbers that functions have. Which values
are equal does not: under any two rankings that a value is well formed by, it is equal to the same
values, and a map shows the same entries. The order depends on the numbers of the functions that are
shown, but not on those of others, by which trees may be laid out as well.

* `equal_eq`: equality does not depend on the ranking.
* `entriesUnder_perm`: nor does what a map shows, up to the order of entries.
* `order_congr`: the order is the same under rankings that agree on what is shown.
-/

namespace DynVal

open Std Entries

/-- Fewer keys are told apart in the same way. -/
theorem Keyed.Lawful.within {κ : Type} {keyed : Keyed Id κ} {P Q : κ → Prop}
    (h : (keyed.within Q).Lawful) (hpq : ∀ x, P x → Q x) : (keyed.within P).Lawful := by
  have hq {x y : κ} (hxy : (keyed.within P).test x y = true) : (keyed.within Q).test x y = true :=
    let ⟨hx, hy, ht⟩ := Keyed.test_within.mp hxy
    Keyed.test_within.mpr ⟨hpq x hx, hpq y hy, ht⟩
  refine ⟨⟨fun {x y} hxy => ?_, fun {x y z} hxy hyz => ?_⟩, fun hxy => h.hash (hq hxy)⟩
  · obtain ⟨hx, hy, -⟩ := Keyed.test_within.mp hxy
    exact Keyed.test_within.mpr ⟨hy, hx, (Keyed.test_within.mp (h.equiv.symm (hq hxy))).2.2⟩
  · obtain ⟨hx, -, -⟩ := Keyed.test_within.mp hxy
    obtain ⟨-, hz, -⟩ := Keyed.test_within.mp hyz
    have hxz := h.equiv.trans (hq hxy) (hq hyz)
    exact Keyed.test_within.mpr ⟨hx, hz, (Keyed.test_within.mp hxz).2.2⟩

namespace Value

variable {ρ ρ' : Ranking} {P : Value → Prop} {a b : Value}

/-- A map shows the same entries if the keys in it are told apart in the same way. -/
theorem entriesUnder_perm_of (hP : ((relations ρ.rank).keyed.within P).Lawful)
    (hP' : ((relations ρ'.rank).keyed.within P).Lawful)
    (ht : ((relations ρ.rank).keyed.within P).test = ((relations ρ'.rank).keyed.within P).test)
    {x : MapNode} (hx : x.body.Lawful (relations ρ.rank).keyed)
    (hx' : x.body.Lawful (relations ρ'.rank).keyed) (hp : x.body.All P) :
    (entriesUnder ρ.rank x).Perm (entriesUnder ρ'.rank x) := by
  have hentries (ρ : Ranking) : entriesUnder ρ.rank x =
      Storage.entries (x.body.resolved (m := Id) ((relations ρ.rank).keyed.within P)) :=
    congrArg Storage.entries (Tracking.gives_resolved (T := Tracking.plain)
      (@keys_within _ (relations ρ.rank).keyed _) hp).2
  rw [hentries, hentries]
  exact Map.perm_resolved hP hP' ht ((Map.lawful_within_iff hp).mpr hx)
    ((Map.lawful_within_iff hp).mpr hx')

/-- What values match by does not depend on the ranking where maps show the same entries. -/
theorem matches_congr {R : Value → Value → Prop}
    (ha : ∀ x, a = .map x → (entriesUnder ρ.rank x).Perm (entriesUnder ρ'.rank x))
    (hb : ∀ x, b = .map x → (entriesUnder ρ.rank x).Perm (entriesUnder ρ'.rank x)) :
    Matches ρ R a b ↔ Matches ρ' R a b := by
  by_cases hk : a.kind = b.kind
  · cases a <;> cases b <;> first | (cases hk; done) | exact Iff.rfl | skip
    case map.map x y =>
      simp only [Matches]
      rw [Multiset.coe_eq_coe.mpr (ha x rfl), Multiset.coe_eq_coe.mpr (hb y rfl)]
  · exact ⟨fun h => absurd h.kind_eq hk, fun h => absurd h.kind_eq hk⟩

theorem agree_below (ρ ρ' : Ranking) (d : Nat) :
    Agree ρ (fun v => FormedBelow ρ d v ∧ FormedBelow ρ' d v) =
      Agree ρ' (fun v => FormedBelow ρ d v ∧ FormedBelow ρ' d v) := by
  induction d with
  | zero =>
    funext a b
    exact propext ⟨fun h => absurd (agree_iff.mp h).1.1.2 (Nat.not_lt_zero _),
      fun h => absurd (agree_iff.mp h).1.1.2 (Nat.not_lt_zero _)⟩
  | succ d ih =>
    let P : Value → Prop := fun v => FormedBelow ρ d v ∧ FormedBelow ρ' d v
    have hP : ((relations ρ.rank).keyed.within P).Lawful :=
      (laws_below ρ d).1.within fun _ h => h.1
    have hP' : ((relations ρ'.rank).keyed.within P).Lawful :=
      (laws_below ρ' d).1.within fun _ h => h.2
    have htest : ((relations ρ.rank).keyed.within P).test =
        ((relations ρ'.rank).keyed.within P).test := by
      funext a b
      exact Bool.eq_iff_iff.mpr (iff_of_eq (congrFun (congrFun ih a) b))
    have hmap {v : Value} (hv : FormedBelow ρ (d + 1) v) (hv' : FormedBelow ρ' (d + 1) v) :
        ∀ x, v = .map x → (entriesUnder ρ.rank x).Perm (entriesUnder ρ'.rank x) := by
      rintro x rfl
      refine entriesUnder_perm_of hP hP' htest hv.1.here hv'.1.here (Map.all_iff.mpr fun p hp => ?_)
      exact ⟨hv.parts p hp, hv'.parts p hp⟩
    have hparts {v : Value} (hv : FormedBelow ρ (d + 1) v) (hv' : FormedBelow ρ' (d + 1) v) :
        ∀ p ∈ v.parts, P p := fun p hp => ⟨hv.parts p hp, hv'.parts p hp⟩
    funext a b
    refine propext (agree_iff.trans (Iff.trans ?_ agree_iff.symm))
    refine and_congr_right fun ha => and_congr_right fun hb => ?_
    rw [equal_iff hP ha.1.1.here hb.1.1.here (hparts ha.1 ha.2) (hparts hb.1 hb.2),
      equal_iff hP' ha.2.1.here hb.2.1.here (hparts ha.1 ha.2) (hparts hb.1 hb.2), ih,
      matches_congr (hmap ha.1 ha.2) (hmap hb.1 hb.2)]

/-- Equality does not depend on the ranking. -/
theorem equal_eq (ha : WellFormed ρ a) (ha' : WellFormed ρ' a) (hb : WellFormed ρ b)
    (hb' : WellFormed ρ' b) : equal ρ.rank a b = equal ρ'.rank a b := by
  have hd : a.depth < max a.depth b.depth + 1 ∧ b.depth < max a.depth b.depth + 1 := by omega
  have hagree := congrFun (congrFun (agree_below ρ ρ' (max a.depth b.depth + 1)) a) b
  have hiff (σ : Ranking) : Agree σ (fun v => FormedBelow ρ (max a.depth b.depth + 1) v ∧
      FormedBelow ρ' (max a.depth b.depth + 1) v) a b ↔ equal σ.rank a b = true :=
    agree_iff_equal ⟨⟨ha, hd.1⟩, ⟨ha', hd.1⟩⟩ ⟨⟨hb, hd.2⟩, ⟨hb', hd.2⟩⟩
  exact Bool.eq_iff_iff.mpr ((hiff ρ).symm.trans ((iff_of_eq hagree).trans (hiff ρ')))

/-- Nor does what a map shows, but for the order of its entries. -/
theorem entriesUnder_perm {x : MapNode} (hx : WellFormed ρ (.map x))
    (hx' : WellFormed ρ' (.map x)) : (entriesUnder ρ.rank x).Perm (entriesUnder ρ'.rank x) := by
  let P : Value → Prop := fun v => WellFormed ρ v ∧ WellFormed ρ' v
  refine entriesUnder_perm_of (P := P) ((lawful_wellFormed ρ).within fun _ h => h.1)
    ((lawful_wellFormed ρ').within fun _ h => h.2) ?_ hx.here hx'.here
    (Map.all_iff.mpr fun p hp => ⟨hx.parts p hp, hx'.parts p hp⟩)
  funext a b
  refine Bool.eq_iff_iff.mpr (Keyed.test_within.trans (Iff.trans ?_ Keyed.test_within.symm))
  refine and_congr_right fun ha => and_congr_right fun hb => ?_
  exact iff_of_eq (congrArg (· = true) (equal_eq ha.1 ha.2 hb.1 hb.2))

/-! ## The order -/

theorem compareLex_congr {α : Type} {cmp cmp' : α → α → Ordering} {xs ys : List α}
    (h : ∀ x ∈ xs, ∀ y ∈ ys, cmp x y = cmp' x y) :
    List.compareLex cmp xs ys = List.compareLex cmp' xs ys := by
  have hlex : Tracking.plain.givesAny (lexM (m := Id) cmp xs ys)
      fun _ => List.compareLex cmp' xs ys :=
    Tracking.gives_lexM fun x hx y hy => ⟨trivial, h x hx y hy⟩
  rw [← lexM_id]
  exact hlex.2

theorem sorted_congr {α : Type} {cmp cmp' : α → α → Ordering} [TransCmp cmp']
    (grain : Sorting.Grain) {xs : List α} (h : ∀ x ∈ xs, ∀ y ∈ xs, cmp x y = cmp' x y) :
    sorted grain cmp xs = sorted grain cmp' xs := by
  have hsort : Tracking.plain.gives (fun ys => ∀ y ∈ ys, y ∈ xs) (sortM (m := Id) grain cmp xs)
      fun _ => sorted grain cmp' xs :=
    Tracking.gives_sortM (fun _ => inferInstance) grain (fun _ hx => hx)
      fun x y hx hy => ⟨trivial, h x hx y hy⟩
  exact hsort.2

/-- Contents are compared without regard to how they stand, and only with each other. -/
theorem contentOrder_congr {α : Type} {cmp cmp' : α → α → Ordering} [TransCmp cmp]
    [TransCmp cmp'] {xs xs' ys ys' : List α} (hx : xs.Perm xs') (hy : ys.Perm ys')
    (h : ∀ x ∈ xs' ++ ys', ∀ y ∈ xs' ++ ys', cmp x y = cmp' x y) :
    contentOrder cmp xs ys = contentOrder cmp' xs' ys' := by
  have hperm {xs xs' : List α} (hp : xs.Perm xs') : contentOrder cmp xs xs' = .eq := by
    rw [contentOrder_eq_iff, Multiset.coe_eq_coe.mpr hp]
    exact Multiset.rel_refl_of_refl_on fun _ _ => ReflCmp.compare_self
  calc contentOrder cmp xs ys = contentOrder cmp xs' ys' := by
        rw [TransCmp.congr_left (hperm hx), TransCmp.congr_right (hperm hy)]
    _ = contentOrder cmp' xs' ys' := by
        have hleft : ∀ x ∈ xs', x ∈ xs' ++ ys' := fun x hx => List.mem_append_left _ hx
        have hright : ∀ y ∈ ys', y ∈ xs' ++ ys' := fun y hy => List.mem_append_right _ hy
        rw [contentOrder, contentOrder,
          sorted_congr .eight fun x hx y hy => h x (hleft x hx) y (hleft y hy),
          sorted_congr .eight fun x hx y hy => h x (hright x hx) y (hright y hy)]
        refine congrArg _ (compareLex_congr fun x hx y hy => ?_)
        exact h x (hleft x ((sorted_perm .eight xs').mem_iff.mp hx))
          y (hright y ((sorted_perm .eight ys').mem_iff.mp hy))

/-- The rankings give a function the same number. -/
def SameRank (ρ ρ' : Ranking) (v : Value) : Prop := ∀ f, v = .fn f → ρ.rank f = ρ'.rank f

theorem order_congr_below {d : Nat} (hda : a.depth < d) (hdb : b.depth < d)
    (ha : WellFormed ρ a) (ha' : WellFormed ρ' a) (hb : WellFormed ρ b) (hb' : WellFormed ρ' b)
    (hra : a.Throughout (entriesUnder ρ'.rank) (SameRank ρ ρ'))
    (hrb : b.Throughout (entriesUnder ρ'.rank) (SameRank ρ ρ')) :
    order ρ.rank a b = order ρ'.rank a b := by
  induction d generalizing a b with
  | zero => omega
  | succ d ih =>
    let P : Value → Prop := fun v => v.depth < d ∧ WellFormed ρ v ∧ WellFormed ρ' v ∧
      v.Throughout (entriesUnder ρ'.rank) (SameRank ρ ρ')
    have hcmp {p q : Value} (hp : P p) (hq : P q) :
        (relations ρ.rank).compare p q = (relations ρ'.rank).compare p q :=
      ih hp.1 hq.1 hp.2.1 hp.2.2.1 hq.2.1 hq.2.2.1 hp.2.2.2 hq.2.2.2
    have hcontents {v : Value} (hd : v.depth < d + 1) (hv : WellFormed ρ v)
        (hv' : WellFormed ρ' v) (hr : v.Throughout (entriesUnder ρ'.rank) (SameRank ρ ρ')) :
        ∀ p ∈ v.contents (entriesUnder ρ'.rank), P p := by
      intro p hp
      have hpart := contents_subset_parts hp
      have := depth_lt_of_mem_parts hpart
      exact ⟨by omega, hv.parts p hpart, hv'.parts p hpart, hr.contents p hp⟩
    replace hda := hcontents hda ha ha' hra
    replace hdb := hcontents hdb hb hb' hrb
    rw [order_def, order_def]
    by_cases hk : a.kind = b.kind
    · cases a <;> cases b <;> first | (cases hk; done) | skip
      case nil.nil => simp only [compareBy]
      case bool.bool => simp only [compareBy]
      case number.number => simp only [compareBy]
      case str.str => simp only [compareBy]
      case tag.tag => simp only [compareBy]
      case symbol.symbol => simp only [compareBy]
      case quote.quote => simp only [compareBy]
      case ref.ref => simp only [compareBy]
      case fn.fn f g =>
        rw [compareBy_fn, compareBy_fn, hra.here f rfl, hrb.here g rfl]
      case recur.recur x y =>
        rw [compareBy_recur, compareBy_recur]
        exact compareLex_congr fun p hp q hq => hcmp (hda p hp) (hdb q hq)
      case list.list x y =>
        rw [compareBy_list, compareBy_list]
        exact compareLex_congr fun p hp q hq => hcmp (hda p hp) (hdb q hq)
      case tuple.tuple x y =>
        rw [compareBy_tuple, compareBy_tuple]
        exact compareLex_congr fun p hp q hq => hcmp (hda p hp) (hdb q hq)
      case record.record x y =>
        rw [compareBy_record, compareBy_record, recordOrder, recordOrder]
        refine congrArg _ (congrArg _ (compareLex_congr fun p hp q hq => ?_))
        exact hcmp (hda p hp) (hdb q hq)
      case set.set x y =>
        rw [compareBy_set, compareBy_set]
        refine contentOrder_congr (.refl _) (.refl _) fun p hp q hq => ?_
        have hmem : ∀ p ∈ x.body.elements ++ y.body.elements, P p :=
          List.forall_mem_append.mpr ⟨hda, hdb⟩
        exact hcmp (hmem p hp) (hmem q hq)
      case map.map x y =>
        rw [compareBy_map, compareBy_map]
        refine contentOrder_congr (entriesUnder_perm ha ha') (entriesUnder_perm hb hb')
          fun e he f hf => ?_
        have hmem : ∀ e ∈ entriesUnder ρ'.rank x ++ entriesUnder ρ'.rank y, P e.1 ∧ P e.2 := by
          intro e he
          rcases List.mem_append.mp he with he | he
          · exact ⟨hda _ (List.mem_flatMap.mpr ⟨e, he, by simp⟩),
              hda _ (List.mem_flatMap.mpr ⟨e, he, by simp⟩)⟩
          · exact ⟨hdb _ (List.mem_flatMap.mpr ⟨e, he, by simp⟩),
              hdb _ (List.mem_flatMap.mpr ⟨e, he, by simp⟩)⟩
        rw [entryOrder, entryOrder, hcmp (hmem e he).1 (hmem f hf).1,
          hcmp (hmem e he).2 (hmem f hf).2]
    · rw [compareBy_of_kind_ne _ _ hk, compareBy_of_kind_ne _ _ hk]

/-- The order depends only on the numbers of the functions that are shown. -/
theorem order_congr (ha : WellFormed ρ a) (ha' : WellFormed ρ' a) (hb : WellFormed ρ b)
    (hb' : WellFormed ρ' b) (hra : a.Throughout (entriesUnder ρ'.rank) (SameRank ρ ρ'))
    (hrb : b.Throughout (entriesUnder ρ'.rank) (SameRank ρ ρ')) :
    order ρ.rank a b = order ρ'.rank a b :=
  order_congr_below (d := max a.depth b.depth + 1) (by omega) (by omega) ha ha' hb hb' hra hrb

end Value
end DynVal
