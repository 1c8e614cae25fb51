import DynVal.Proofs.Values.Filling

/-!
# Records from pairs

A record is made of pairs in two ways: `ofPairs` sorts them and looks for a field that stands twice
in a row, `withPairs` puts them one by one into the slots of a record that is there. Each is
described by the pairs alone, without its course (`ofPairs_eq_ok_iff`, `withPairs_eq_ok_iff`): the
first refuses a repeated field, the second wants the fields of the record in some order, and both
give the pairs sorted. That they agree, and that the order of the pairs does not count, follows from
this.
-/

namespace DynVal.Record

variable {ν : Type} {r s : Record ν} {ps qs : List (Tag × ν)} {vs us : List (Option ν)}
  {name t u : Tag} {v : ν} {i : Nat}

/-! ## Sorted pairs -/

/-- The order in which a record keeps its fields. -/
def arranged (ps : List (Tag × ν)) : List (Tag × ν) := sortBy (fun p q => p.1.compare q.1) ps

theorem ofPairs_eq_ok_iff :
    ofPairs name ps = .ok r ↔ (ps.map Prod.fst).Nodup ∧ r = ⟨name, arranged ps, []⟩ := by
  constructor
  · exact fun h => ⟨ofPairs_ok_iff.mp ⟨r, h⟩, fields_ofPairs h⟩
  · rintro ⟨hd, rfl⟩
    obtain ⟨s, hs⟩ : ∃ s : Record ν, ofPairs name ps = .ok s := ofPairs_ok_iff.mpr hd
    rw [hs, fields_ofPairs hs]
    rfl

/-- Pairs in any order are arranged as those of a record that has them already. -/
theorem arranged_eq_fields (hr : r.Ordered) (h : ps.Perm r.fields) : arranged ps = r.fields := by
  rw [arranged, sortBy_eq_sorted]
  exact sorted_eq_of_perm .four h (List.pairwise_map.mp hr)

/-- Pairs among which are all fields of a record, and no more than it has. -/
theorem arranged_eq_of_subset (hr : r.Ordered) (h : r.fields ⊆ ps)
    (hlen : ps.length = r.fields.length) : arranged ps = r.fields :=
  arranged_eq_fields hr ((hr.nodup.of_map.subperm h).perm_of_length_le hlen.le).symm

theorem arranged_eq_of_perm (hd : (ps.map Prod.fst).Nodup) (h : ps.Perm qs) :
    arranged ps = arranged qs := by
  have hr : ofPairs ⟨""⟩ qs = .ok ⟨⟨""⟩, arranged qs, []⟩ :=
    ofPairs_eq_ok_iff.mpr ⟨(h.map Prod.fst).nodup_iff.mp hd, rfl⟩
  exact arranged_eq_fields (ordered_ofPairs hr) (h.trans (sortBy_perm qs).symm)

/-! ## Filling each slot once -/

/-- The field has a slot, and nothing is in it. -/
def Vacant (r : Record ν) (vs : List (Option ν)) (t : Tag) : Prop :=
  ∃ i : Nat, r.names[i]? = some t ∧ vs[i]? = some none

theorem vacant_slots_iff : r.Vacant r.slots t ↔ t ∈ r.names := by
  rw [Vacant, List.mem_iff_getElem?]
  refine exists_congr fun i => and_iff_left_of_imp fun hi => ?_
  rw [names, List.getElem?_map, Option.map_eq_some_iff] at hi
  obtain ⟨f, hf, -⟩ := hi
  rw [slots, List.getElem?_map, hf]
  rfl

theorem place_unique (hr : r.Ordered) {j : Nat} (hi : r.names[i]? = some t)
    (hj : r.names[j]? = some t) : i = j := by
  rw [← position?_eq_some_iff hr] at hi hj
  exact Option.some.inj (hi.symm.trans hj)

/-- Putting a value into a slot takes its field from those that are vacant. -/
theorem vacant_set_iff (hr : r.Ordered) (hi : r.names[i]? = some t) (hlen : i < vs.length) :
    r.Vacant (vs.set i (some v)) u ↔ u ≠ t ∧ r.Vacant vs u := by
  constructor
  · rintro ⟨j, hj, hslot⟩
    have hij : i ≠ j := by
      rintro rfl
      rw [List.getElem?_set_self hlen] at hslot
      cases hslot
    rw [List.getElem?_set_ne hij] at hslot
    refine ⟨?_, j, hj, hslot⟩
    rintro rfl
    exact hij (place_unique hr hi hj)
  · rintro ⟨hne, j, hj, hslot⟩
    have hij : i ≠ j := by
      rintro rfl
      exact hne (Option.some.inj (hj.symm.trans hi))
    exact ⟨j, hj, (List.getElem?_set_ne hij).trans hslot⟩

theorem fill_cons_ok_iff (hr : r.Ordered) (hlen : vs.length = r.fields.length) {p : Tag × ν} :
    r.fill vs (p :: ps) = .ok us ↔ ∃ i : Nat, r.names[i]? = some p.1 ∧ vs[i]? = some none ∧
      r.fill (vs.set i (some p.2)) ps = .ok us := by
  rw [fill]
  split
  case h_1 hnone =>
    constructor
    · intro h
      cases h
    · rintro ⟨i, hi, -⟩
      rw [(position?_eq_some_iff hr).mpr hi] at hnone
      cases hnone
  case h_2 i hi =>
    have hi := (position?_eq_some_iff hr).mp hi
    split
    case h_1 v hv =>
      constructor
      · intro h
        cases h
      · rintro ⟨j, hj, hslot, -⟩
        obtain rfl := place_unique hr hi hj
        cases hv.symm.trans hslot
    case h_2 hv =>
      constructor
      · intro h
        refine ⟨i, hi, ?_, h⟩
        obtain ⟨hlt, -⟩ := List.getElem?_eq_some_iff.mp hi
        have hlt : i < vs.length := by simpa [names, hlen] using hlt
        obtain ⟨o, ho⟩ : ∃ o, vs[i]? = some o := ⟨_, List.getElem?_eq_getElem hlt⟩
        cases o with
        | none => exact ho
        | some v => exact absurd ho (hv v)
      · rintro ⟨j, hj, -, h⟩
        obtain rfl := place_unique hr hi hj
        exact h

/-- Filling goes through where the pairs name fields whose slots are vacant, each once. -/
theorem fill_ok_iff (hr : r.Ordered) (hlen : vs.length = r.fields.length) :
    (∃ us, r.fill vs ps = .ok us) ↔
      (ps.map Prod.fst).Nodup ∧ ∀ t ∈ ps.map Prod.fst, r.Vacant vs t := by
  induction ps generalizing vs with
  | nil => exact ⟨fun _ => by simp, fun _ => ⟨vs, rfl⟩⟩
  | cons p ps ih =>
    simp only [fill_cons_ok_iff hr hlen, List.map_cons, List.nodup_cons, List.forall_mem_cons]
    constructor
    · rintro ⟨us, i, hi, hslot, hus⟩
      obtain ⟨hd, hvacant⟩ := (ih ((List.length_set ..).trans hlen)).mp ⟨us, hus⟩
      have hlt := (List.getElem?_eq_some_iff.mp hslot).1
      simp only [vacant_set_iff hr hi hlt] at hvacant
      exact ⟨⟨fun hp => (hvacant _ hp).1 rfl, hd⟩, ⟨i, hi, hslot⟩, fun t ht => (hvacant t ht).2⟩
    · rintro ⟨⟨hp, hd⟩, ⟨i, hi, hslot⟩, hvacant⟩
      have hlt := (List.getElem?_eq_some_iff.mp hslot).1
      have hrest : ∀ t ∈ ps.map Prod.fst, r.Vacant (vs.set i (some p.2)) t := fun t ht =>
        (vacant_set_iff hr hi hlt).mpr ⟨fun h => hp (h ▸ ht), hvacant t ht⟩
      obtain ⟨us, hus⟩ := (ih ((List.length_set ..).trans hlen)).mpr ⟨hd, hrest⟩
      exact ⟨us, i, hi, hslot, hus⟩

/-- Where nothing is refused, it makes no difference that pairs could be passed over. -/
theorem overlay_of_fill (h : r.fill vs ps = .ok us) : r.overlay vs ps = us := by
  induction ps generalizing vs with
  | nil => exact Except.ok.inj h
  | cons p ps ih =>
    unfold fill at h
    unfold overlay
    split at h
    · cases h
    split at h
    · cases h
    · exact ih h

theorem withFields_of_withPairs (h : r.withPairs ps = .ok s) : r.withFields ps = .ok s := by
  unfold withPairs at h
  split at h
  case h_1 us hus =>
    rw [withFields, overlay_of_fill hus]
    exact h
  case h_2 => cases h

theorem eq_of_withSlots (h : r.withSlots vs = .ok s) : s = { r with fields := s.fields } := by
  unfold withSlots at h
  split at h <;> cases h
  rfl

theorem eq_of_fromEntries {r s : Record Value} {es : List (Value × Value)}
    (h : r.fromEntries es = .ok s) : s = { r with fields := s.fields } := by
  unfold fromEntries at h
  split at h
  · exact eq_of_withSlots h
  · cases h

/-- The pairs have to name the fields of the record, each once, in whatever order. -/
theorem withPairs_ok_iff (hr : r.Ordered) :
    (∃ s, r.withPairs ps = .ok s) ↔ (ps.map Prod.fst).Perm r.names := by
  have hlen : r.slots.length = r.fields.length := length_slots
  constructor
  · rintro ⟨s, h⟩
    have hnamed := (withFields_ok_iff hr).mp ⟨s, withFields_of_withPairs h⟩
    unfold withPairs at h
    split at h
    case h_2 => cases h
    case h_1 us hus =>
      obtain ⟨hd, hvacant⟩ := (fill_ok_iff hr hlen).mp ⟨us, hus⟩
      refine (List.perm_ext_iff_of_nodup hd hr.nodup).mpr fun t => ⟨fun ht => ?_, fun ht => ?_⟩
      · exact vacant_slots_iff.mp (hvacant t ht)
      · obtain ⟨p, hp, rfl⟩ := hnamed t ht
        exact List.mem_map_of_mem hp
  · intro hperm
    have hvacant : ∀ t ∈ ps.map Prod.fst, r.Vacant r.slots t := fun t ht =>
      vacant_slots_iff.mpr (hperm.mem_iff.mp ht)
    obtain ⟨us, hus⟩ := (fill_ok_iff hr hlen).mpr ⟨hperm.nodup_iff.mpr hr.nodup, hvacant⟩
    have hnamed : ∀ t ∈ r.names, ∃ p ∈ ps, p.1 = t := fun t ht =>
      List.mem_map.mp (hperm.mem_iff.mpr ht)
    obtain ⟨s, hs⟩ := (withFields_ok_iff hr).mpr hnamed
    rw [withFields, overlay_of_fill hus] at hs
    exact ⟨s, by rw [withPairs, hus]; exact hs⟩

theorem fields_withPairs (hr : r.Ordered) (h : r.withPairs ps = .ok s) :
    s.fields = arranged ps := by
  have hs : s.Ordered := hr.of_names (names_withPairs h)
  have hlen : ps.length = s.fields.length := by
    have hnames := ((withPairs_ok_iff hr).mp ⟨s, h⟩).length_eq
    rw [← names_withPairs h] at hnames
    simpa [names] using hnames
  have hsub : s.fields ⊆ ps := mem_of_withFields hr (withFields_of_withPairs h)
  exact (arranged_eq_of_subset hs hsub hlen).symm

theorem withPairs_eq_ok_iff (hr : r.Ordered) : r.withPairs ps = .ok s ↔
    (ps.map Prod.fst).Perm r.names ∧ s = { r with fields := arranged ps } := by
  have hfields {s : Record ν} (h : r.withPairs ps = .ok s) :
      s = { r with fields := arranged ps } := by
    rw [eq_of_withSlots (withFields_of_withPairs h), fields_withPairs hr h]
  constructor
  · exact fun h => ⟨(withPairs_ok_iff hr).mp ⟨s, h⟩, hfields h⟩
  · rintro ⟨hperm, rfl⟩
    obtain ⟨s, hs⟩ := (withPairs_ok_iff hr).mpr hperm
    rw [hs, ← hfields hs]

/-! ## The two of them -/

theorem sameShape_iff : r.sameShape s = true ↔ r.name = s.name ∧ r.names = s.names := by
  rw [sameShape, Bool.and_eq_true, beq_iff_eq, beq_iff_eq]

/-- What one of them wants of the pairs, as the other one sees it. -/
theorem perm_names_iff (hr : r.Ordered) : (ps.map Prod.fst).Perm r.names ↔
    ∃ s, ofPairs r.name ps = .ok s ∧ r.sameShape s = true := by
  constructor
  · intro hperm
    have hd := hperm.nodup_iff.mpr hr.nodup
    have hs : ofPairs r.name ps = .ok ⟨r.name, arranged ps, []⟩ := ofPairs_eq_ok_iff.mpr ⟨hd, rfl⟩
    refine ⟨_, hs, sameShape_iff.mpr ⟨rfl, ?_⟩⟩
    have hnames : r.names.Perm ((arranged ps).map Prod.fst) :=
      hperm.symm.trans ((sortBy_perm ps).map Prod.fst).symm
    refine hnames.eq_of_pairwise (fun t u _ _ htu hut => ?_) hr (ordered_ofPairs hs)
    rw [@Std.OrientedCmp.eq_swap _ Tag.compare, hut] at htu
    cases htu
  · rintro ⟨s, hs, hshape⟩
    have hnames := (sameShape_iff.mp hshape).2
    obtain ⟨-, rfl⟩ := ofPairs_eq_ok_iff.mp hs
    rw [hnames]
    exact ((sortBy_perm ps).map Prod.fst).symm

/-- Both ways of making a record of pairs give the same fields with the same values, and the one
that starts from a record succeeds just where the other one gives a record of that shape. Neither of
them minds the order of the pairs. -/
theorem withPairs_agrees {p : Record Value} (hp : p.Built) (ps : List (Tag × Value)) :
    ((∃ q, p.withPairs ps = .ok q) ↔ ∃ r, ofPairs p.name ps = .ok r ∧ p.sameShape r = true) ∧
    (∀ q r, p.withPairs ps = .ok q → ofPairs p.name ps = .ok r →
      q.name = r.name ∧ q.fields = r.fields ∧ q.impls = p.impls) ∧
    (∀ qs, ps.Perm qs →
      (∀ q, p.withPairs ps = .ok q ↔ p.withPairs qs = .ok q) ∧
      ∀ name r, ofPairs name ps = .ok r ↔ ofPairs name qs = .ok r) := by
  have hordered := hp.ordered
  refine ⟨?_, fun q r hq hr => ?_, fun qs hperm => ?_⟩
  · rw [withPairs_ok_iff hordered, perm_names_iff hordered]
  · obtain ⟨-, rfl⟩ := (withPairs_eq_ok_iff hordered).mp hq
    obtain ⟨-, rfl⟩ := ofPairs_eq_ok_iff.mp hr
    exact ⟨rfl, rfl, rfl⟩
  · have hnames : (ps.map Prod.fst).Perm (qs.map Prod.fst) := hperm.map Prod.fst
    constructor
    · intro q
      rw [withPairs_eq_ok_iff hordered, withPairs_eq_ok_iff hordered, ← hnames.congr_left]
      refine and_congr_right fun h => ?_
      rw [arranged_eq_of_perm (h.nodup_iff.mpr hordered.nodup) hperm]
    · intro name r
      rw [ofPairs_eq_ok_iff, ofPairs_eq_ok_iff, ← hnames.nodup_iff]
      refine and_congr_right fun hd => ?_
      rw [arranged_eq_of_perm hd hperm]

/-- A point with a table, filled again from its coordinates in the two orders. -/
theorem withPairs_agrees_point :
    let table : Record Value := ⟨⟨"Shape"⟩, [], []⟩
    let point (x y : Value) : Record Value := ⟨⟨"Point"⟩, [(⟨"x"⟩, x), (⟨"y"⟩, y)], [table]⟩
    let p := point .nil .nil
    let ps : List (Tag × Value) := [(⟨"y"⟩, .bool true), (⟨"x"⟩, .bool false)]
    p.Built ∧ ps.Perm ps.reverse ∧
      p.withPairs ps = .ok (point (.bool false) (.bool true)) ∧
      p.withPairs ps.reverse = .ok (point (.bool false) (.bool true)) ∧
      ∃ r, ofPairs ⟨"Point"⟩ ps = .ok r ∧ p.sameShape r = true := by
  intro table point p ps
  have hp : p.Built :=
    .withImpls (.ofPairs (show ofPairs ⟨"Point"⟩ [(⟨"y"⟩, .nil), (⟨"x"⟩, .nil)] = .ok _ from rfl)) _
  have hperm : ps.Perm ps.reverse := (List.reverse_perm ps).symm
  have hnames : (ps.map Prod.fst).Perm p.names := List.Perm.swap ..
  have hps : p.withPairs ps = .ok (point (.bool false) (.bool true)) :=
    (withPairs_eq_ok_iff hp.ordered).mpr ⟨hnames, rfl⟩
  obtain ⟨hshape, -, horder⟩ := withPairs_agrees hp ps
  exact ⟨hp, hperm, hps, ((horder _ hperm).1 _).mp hps, hshape.mp ⟨_, hps⟩⟩

end DynVal.Record
