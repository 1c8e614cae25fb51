import DynVal.Proofs.Relations.Equality
import DynVal.Proofs.Values.Fields

/-!
# Filling a record

A record that is filled from entries holds in each field the value of an entry that names it, or
what it held before where no entry does (`Record.FilledBy`). Which entry that is depends on their
order only where two of them name one field.

* `Record.fromEntries_ok_iff`, `Record.assocAll_ok_iff`: when filling succeeds, in either way.
* `Record.filledBy_fromEntries`, `Record.filledBy_assocAll`: what comes out.
* `Record.FilledBy.forall₂`: entries that name the same fields with related values give related
  records, if entries for one field are related to each other.
-/

namespace DynVal

/-- A key and the field that it names. -/
inductive NamesField : Value → Tag → Prop where
  | tag (t : Tag) : NamesField (.tag t) t
  | str (s : String) : NamesField (.str s) ⟨s⟩
  | symbol (s : Symbol) : NamesField (.symbol s) ⟨s.name⟩

section Keys

variable {op : String} {k l : Value} {t : Tag}

theorem fieldTag_eq_ok_iff : fieldTag op k = .ok t ↔ NamesField k t := by
  constructor
  · intro h
    cases k with
    | tag t => cases h; exact .tag t
    | str s => cases h; exact .str s
    | symbol s => cases h; exact .symbol s
    | _ => cases h
  · rintro (_ | _ | _) <;> rfl

theorem NamesField.unique {u : Tag} (h : NamesField k t) (h' : NamesField k u) : t = u :=
  Except.ok.inj ((fieldTag_eq_ok_iff.mpr h).symm.trans (@fieldTag_eq_ok_iff "" k u |>.mpr h'))

/-- Equal keys name one field. -/
theorem NamesField.of_matches {ρ : Ranking} {R : Value → Value → Prop}
    (h : Value.Matches ρ R k l) (hk : NamesField k t) : NamesField l t := by
  have hkind := h.kind_eq
  cases hk with
  | tag t => cases l <;> first | (cases hkind; done) | exact (show t = _ from h) ▸ .tag t
  | str s => cases l <;> first | (cases hkind; done) | exact (show s = _ from h) ▸ .str s
  | symbol s => cases l <;> first | (cases hkind; done) | exact (show s = _ from h) ▸ .symbol s

theorem exists_fieldPairs_iff {es : List (Value × Value)} :
    (∃ ps, fieldPairs op es = .ok ps) ↔ ∀ e ∈ es, ∃ t, NamesField e.1 t := by
  induction es with
  | nil => exact ⟨fun _ => by simp, fun _ => ⟨[], rfl⟩⟩
  | cons e es ih =>
    rw [List.forall_mem_cons, ← ih]
    constructor
    · rintro ⟨ps, h⟩
      unfold fieldPairs at h
      split at h
      · cases h
      rename_i t ht
      split at h
      · cases h
      rename_i qs hqs
      exact ⟨⟨t, fieldTag_eq_ok_iff.mp ht⟩, qs, hqs⟩
    · rintro ⟨⟨t, ht⟩, qs, hqs⟩
      exact ⟨(t, e.2) :: qs, by rw [fieldPairs, fieldTag_eq_ok_iff.mpr ht, hqs]⟩

theorem mem_fieldPairs {es : List (Value × Value)} {ps : List (Tag × Value)}
    (h : fieldPairs op es = .ok ps) {p : Tag × Value} :
    p ∈ ps ↔ ∃ e ∈ es, NamesField e.1 p.1 ∧ e.2 = p.2 := by
  induction es generalizing ps with
  | nil =>
    cases h
    simp
  | cons e es ih =>
    unfold fieldPairs at h
    split at h
    · cases h
    rename_i t ht
    split at h
    · cases h
    rename_i qs hqs
    cases h
    have ht := fieldTag_eq_ok_iff.mp ht
    have hp : p = (t, e.2) ↔ NamesField e.1 p.1 ∧ e.2 = p.2 := by
      constructor
      · rintro rfl
        exact ⟨ht, rfl⟩
      · rintro ⟨hname, hvalue⟩
        exact Prod.ext (hname.unique ht) hvalue.symm
    rw [List.mem_cons, ih hqs, hp]
    simp

end Keys

namespace Record

variable {ν : Type} {r s : Record ν} {ps : List (Tag × ν)} {vs : List (Option ν)}
  {t : Tag} {i : Nat}

/-! ## Slots -/

/-- A slot holds what the last pair for its field has, or what was in it. -/
theorem getElem?_overlay (hr : r.Ordered) (hi : r.names[i]? = some t) (hlen : i < vs.length) :
    (∃ p ∈ ps, p.1 = t ∧ (r.overlay vs ps)[i]? = some (some p.2)) ∨
      (r.overlay vs ps)[i]? = vs[i]? ∧ ∀ p ∈ ps, p.1 ≠ t := by
  induction ps generalizing vs with
  | nil => exact .inr ⟨rfl, by simp⟩
  | cons p ps ih =>
    unfold overlay
    split
    case h_1 hp =>
      have hne : p.1 ≠ t := by
        rintro rfl
        rw [(position?_eq_some_iff hr).mpr hi] at hp
        cases hp
      rcases ih hlen with ⟨q, hq, h⟩ | ⟨h, hno⟩
      · exact .inl ⟨q, List.mem_cons_of_mem _ hq, h⟩
      · exact .inr ⟨h, List.forall_mem_cons.mpr ⟨hne, hno⟩⟩
    case h_2 j hj =>
      have hj' := (position?_eq_some_iff hr).mp hj
      rcases @ih (vs.set j (some p.2)) (by simpa using hlen) with ⟨q, hq, h⟩ | ⟨h, hno⟩
      · exact .inl ⟨q, List.mem_cons_of_mem _ hq, h⟩
      · by_cases hji : j = i
        · subst hji
          have hpt : p.1 = t := Option.some.inj (hj'.symm.trans hi)
          exact .inl ⟨p, List.mem_cons_self, hpt, by rw [h, List.getElem?_set_self hlen]⟩
        · have hne : p.1 ≠ t := by
            rintro rfl
            rw [(position?_eq_some_iff hr).mpr hi] at hj
            exact hji (Option.some.inj hj).symm
          refine .inr ⟨by rw [h, List.getElem?_set_ne hji], List.forall_mem_cons.mpr ⟨hne, hno⟩⟩

theorem length_overlay : (r.overlay vs ps).length = vs.length := by
  induction ps generalizing vs with
  | nil => rfl
  | cons p ps ih =>
    unfold overlay
    split
    · exact ih
    · exact ih.trans (List.length_set ..)

/-- Slots are closed with what is in them. -/
theorem slots_of_close {fs gs : List (Tag × ν)} (hlen : vs.length = fs.length)
    (h : close fs vs = .ok gs) : gs.map (fun g => some g.2) = vs := by
  induction fs generalizing vs gs with
  | nil =>
    cases h
    exact (List.length_eq_zero_iff.mp hlen).symm
  | cons f fs ih =>
    match vs, h with
    | some v :: vs, h =>
      unfold close at h
      split at h
      · rename_i rest hrest
        cases h
        exact congrArg (some v :: ·) (ih (Nat.succ.inj hlen) hrest)
      · cases h

theorem exists_close {fs : List (Tag × ν)} (hlen : vs.length = fs.length)
    (h : ∀ o ∈ vs, o.isSome) : ∃ gs, close fs vs = .ok gs := by
  induction fs generalizing vs with
  | nil => exact ⟨[], by rw [close]⟩
  | cons f fs ih =>
    match vs, hlen, h with
    | none :: vs, _, h => exact absurd (h none List.mem_cons_self) Bool.false_ne_true
    | some v :: vs, hlen, h =>
      obtain ⟨gs, hgs⟩ := ih (Nat.succ.inj hlen) fun o ho => h o (List.mem_cons_of_mem _ ho)
      exact ⟨(f.1, v) :: gs, by rw [close, hgs]⟩

/-! ## From pairs -/

theorem getElem?_names {f : Tag × ν} (h : r.fields[i]? = some f) : r.names[i]? = some f.1 := by
  rw [names, List.getElem?_map, h]
  rfl

theorem length_slots : r.slots.length = r.fields.length := List.length_map ..

/-- Each field comes from a pair. -/
theorem mem_of_withFields (hr : r.Ordered) (h : r.withFields ps = .ok s) :
    ∀ f ∈ s.fields, f ∈ ps := by
  have hnames := names_withFields h
  unfold withFields withSlots at h
  split at h
  case h_2 => cases h
  case h_1 gs hgs =>
    cases h
    have hslots := slots_of_close (length_overlay.trans length_slots) hgs
    intro f hf
    obtain ⟨i, hi⟩ := List.mem_iff_getElem?.mp hf
    have ht : r.names[i]? = some f.1 := hnames ▸ getElem?_names hi
    have hslot : (r.overlay r.slots ps)[i]? = some (some f.2) := by
      rw [← hslots, List.getElem?_map, hi]
      rfl
    have hlen : i < r.slots.length := by
      obtain ⟨hlt, -⟩ := List.getElem?_eq_some_iff.mp ht
      simpa [names, slots] using hlt
    rcases getElem?_overlay hr ht hlen with ⟨p, hp, hpt, h⟩ | ⟨h, -⟩
    · obtain rfl : p = f := Prod.ext hpt (Option.some.inj (Option.some.inj (h.symm.trans hslot)))
      exact hp
    · rw [hslot, slots, List.getElem?_map,
        List.getElem?_eq_getElem (by simpa [slots] using hlen)] at h
      cases h

/-- All fields have to be named. -/
theorem withFields_ok_iff (hr : r.Ordered) :
    (∃ s, r.withFields ps = .ok s) ↔ ∀ t ∈ r.names, ∃ p ∈ ps, p.1 = t := by
  constructor
  · rintro ⟨s, h⟩ t ht
    rw [← names_withFields h] at ht
    obtain ⟨f, hf, rfl⟩ := List.mem_map.mp ht
    exact ⟨f, mem_of_withFields hr h f hf, rfl⟩
  · intro h
    obtain ⟨gs, hgs⟩ := @exists_close _ (r.overlay r.slots ps) r.fields
      (length_overlay.trans length_slots) (by
        intro o ho
        obtain ⟨i, hi⟩ := List.mem_iff_getElem?.mp ho
        obtain ⟨hlt, -⟩ := List.getElem?_eq_some_iff.mp hi
        rw [length_overlay] at hlt
        have hlt' : i < r.names.length := by simpa [names, slots] using hlt
        obtain ⟨p, hp, hpt⟩ := h _ (List.getElem_mem hlt')
        rcases @getElem?_overlay _ r ps _ _ i hr (List.getElem?_eq_getElem hlt') hlt with
          ⟨q, -, -, hq⟩ | ⟨-, hno⟩
        · rw [hi] at hq
          rw [Option.some.inj hq]
          rfl
        · exact absurd hpt (hno p hp))
    exact ⟨{ r with fields := gs }, by rw [withFields, withSlots, hgs]⟩

end Record

/-! ## What comes out -/

namespace Record

variable {r s : Record Value} {es fs : List (Value × Value)} {op : String} {t : Tag} {v : Value}

/-- The same name and fields. Each field holds the value of an entry that names it, or what the
record had in it where no entry does. -/
structure FilledBy (r : Record Value) (es : List (Value × Value)) (s : Record Value) : Prop where
  name : s.name = r.name
  names : s.names = r.names
  source : ∀ f ∈ s.fields, (∃ e ∈ es, NamesField e.1 f.1 ∧ e.2 = f.2) ∨
    (f ∈ r.fields ∧ ∀ e ∈ es, ¬ NamesField e.1 f.1)

theorem name_withSlots {vs : List (Option Value)} (h : r.withSlots vs = .ok s) :
    s.name = r.name := by
  unfold withSlots at h
  split at h <;> cases h
  rfl

theorem name_assoc (h : r.assoc t v = .ok s) : s.name = r.name := by
  unfold assoc at h
  split at h <;> cases h
  rfl

theorem filledBy_fromEntries (hr : r.Ordered) (h : r.fromEntries es = .ok s) : FilledBy r es s := by
  have hnames := names_fromEntries h
  unfold fromEntries at h
  split at h
  case h_2 => cases h
  case h_1 ps hps =>
    refine ⟨name_withSlots h, hnames, fun f hf => .inl ?_⟩
    exact (mem_fieldPairs hps).mp (mem_of_withFields hr h f hf)

/-- Every key has to name a field, of whatever record, and every field of this one has to be
named. -/
theorem fromEntries_ok_iff (hr : r.Ordered) : (∃ s, r.fromEntries es = .ok s) ↔
    (∀ e ∈ es, ∃ t, NamesField e.1 t) ∧ ∀ t ∈ r.names, ∃ e ∈ es, NamesField e.1 t := by
  rw [← @exists_fieldPairs_iff "record from map", ← exists_and_right]
  unfold fromEntries
  have hnamed {ps : List (Tag × Value)} (hps : fieldPairs "record from map" es = .ok ps) :
      (∃ s, r.withFields ps = .ok s) ↔ ∀ t ∈ r.names, ∃ e ∈ es, NamesField e.1 t := by
    rw [withFields_ok_iff hr]
    refine forall₂_congr fun t _ => ⟨?_, ?_⟩
    · rintro ⟨p, hp, rfl⟩
      obtain ⟨e, he, hname, -⟩ := (mem_fieldPairs hps).mp hp
      exact ⟨e, he, hname⟩
    · rintro ⟨e, he, hname⟩
      exact ⟨(t, e.2), (mem_fieldPairs hps).mpr ⟨e, he, hname, rfl⟩, rfl⟩
  split
  case h_1 ps hps =>
    rw [hnamed hps]
    exact ⟨fun h => ⟨ps, hps, h⟩, fun ⟨_, _, h⟩ => h⟩
  case h_2 e he =>
    constructor
    · rintro ⟨_, ⟨⟩⟩
    · rintro ⟨_, h, -⟩
      cases he.symm.trans h

/-- One field is replaced and the others are left. -/
theorem mem_fields_assoc (hr : r.Ordered) (h : r.assoc t v = .ok s) {f : Tag × Value}
    (hf : f ∈ s.fields) : f = (t, v) ∨ (f ∈ r.fields ∧ f.1 ≠ t) := by
  unfold assoc at h
  split at h
  case h_2 => cases h
  case h_1 i hi =>
    cases h
    have hi := (position?_eq_some_iff hr).mp hi
    obtain ⟨j, hj⟩ := List.mem_iff_getElem?.mp hf
    rw [setAt, List.getElem?_modify] at hj
    obtain ⟨g, hg, rfl⟩ := Option.map_eq_some_iff.mp hj
    by_cases hij : i = j
    · subst hij
      left
      rw [if_pos rfl]
      exact Prod.ext (Option.some.inj ((getElem?_names hg).symm.trans hi)) rfl
    · right
      rw [if_neg hij]
      refine ⟨List.mem_of_getElem? hg, ?_⟩
      rintro rfl
      -- the names of the fields are distinct
      have hji := (position?_eq_some_iff hr).mpr (getElem?_names hg)
      rw [(position?_eq_some_iff hr).mpr hi] at hji
      exact hij (Option.some.inj hji)

theorem assoc_ok_iff (hr : r.Ordered) : (∃ s, r.assoc t v = .ok s) ↔ t ∈ r.names := by
  rw [List.mem_iff_getElem?]
  unfold assoc
  constructor
  · rintro ⟨s, h⟩
    split at h
    · rename_i i hi
      exact ⟨i, (position?_eq_some_iff hr).mp hi⟩
    · cases h
  · rintro ⟨i, hi⟩
    rw [(position?_eq_some_iff hr).mpr hi]
    exact ⟨_, rfl⟩

theorem filledBy_assocAll (hr : r.Ordered) (h : r.assocAll op es = .ok s) : FilledBy r es s := by
  induction es generalizing r with
  | nil =>
    cases h
    exact ⟨rfl, rfl, fun f hf => .inr ⟨hf, by simp⟩⟩
  | cons e es ih =>
    unfold assocAll at h
    split at h
    · cases h
    rename_i t ht
    split at h
    · cases h
    rename_i q hq
    have ht := fieldTag_eq_ok_iff.mp ht
    have hs := ih (hr.of_names (names_assoc hq)) h
    refine ⟨hs.name.trans (name_assoc hq), hs.names.trans (names_assoc hq), fun f hf => ?_⟩
    rcases hs.source f hf with ⟨d, hd, hdf⟩ | ⟨hfq, hno⟩
    · exact .inl ⟨d, List.mem_cons_of_mem _ hd, hdf⟩
    rcases mem_fields_assoc hr hq hfq with rfl | ⟨hfr, hne⟩
    · exact .inl ⟨e, List.mem_cons_self, ht, rfl⟩
    · exact .inr ⟨hfr, List.forall_mem_cons.mpr ⟨fun hname => hne (hname.unique ht), hno⟩⟩

/-- Every key has to name a field of the record. -/
theorem assocAll_ok_iff (hr : r.Ordered) : (∃ s, r.assocAll op es = .ok s) ↔
    ∀ e ∈ es, ∃ t ∈ r.names, NamesField e.1 t := by
  induction es generalizing r with
  | nil => exact ⟨fun _ => by simp, fun _ => ⟨r, rfl⟩⟩
  | cons e es ih =>
    rw [List.forall_mem_cons]
    constructor
    · rintro ⟨s, h⟩
      unfold assocAll at h
      split at h
      · cases h
      rename_i t ht
      split at h
      · cases h
      rename_i q hq
      refine ⟨⟨t, (assoc_ok_iff hr).mp ⟨q, hq⟩, fieldTag_eq_ok_iff.mp ht⟩, ?_⟩
      rw [← names_assoc hq]
      exact (ih (hr.of_names (names_assoc hq))).mp ⟨s, h⟩
    · rintro ⟨⟨t, ht, hname⟩, hrest⟩
      obtain ⟨q, hq⟩ := (assoc_ok_iff (v := e.2) hr).mpr ht
      rw [← names_assoc hq] at hrest
      obtain ⟨s, hs⟩ := (ih (hr.of_names (names_assoc hq))).mpr hrest
      exact ⟨s, by simp only [assocAll, fieldTag_eq_ok_iff.mpr hname, hq, hs]⟩

end Record

/-! ## Two ways to the same content -/

/-- Every entry of one list has its like in another one: it names the same field, and the values are
related. -/
def Covered (like : Value → Value → Prop) (es fs : List (Value × Value)) : Prop :=
  ∀ e ∈ es, ∃ f ∈ fs, (∀ t, NamesField e.1 t ↔ NamesField f.1 t) ∧ like e.2 f.2

theorem forall₂_of_names {ν : Type} {R : ν → ν → Prop} {fs gs : List (Tag × ν)}
    (hnames : fs.map (·.1) = gs.map (·.1)) (h : ∀ f ∈ fs, ∀ g ∈ gs, f.1 = g.1 → R f.2 g.2) :
    List.Forall₂ R (fs.map (·.2)) (gs.map (·.2)) := by
  induction fs generalizing gs with
  | nil =>
    rw [List.map_eq_nil_iff.mp hnames.symm]
    exact .nil
  | cons f fs ih =>
    cases gs with
    | nil => cases hnames
    | cons g gs =>
      obtain ⟨hname, hrest⟩ := List.cons.inj hnames
      refine .cons (h f List.mem_cons_self g List.mem_cons_self hname)
        (ih hrest fun f hf g hg => ?_)
      exact h f (List.mem_cons_of_mem _ hf) g (List.mem_cons_of_mem _ hg)

namespace Record

section Alike

variable {r s u : Record Value} {es fs : List (Value × Value)} {op : String}
  {like : Value → Value → Prop}

theorem fromEntries_ok_of_covered (hr : r.Ordered) (hef : Covered like es fs)
    (hfe : Covered like fs es) (h : ∃ s, r.fromEntries es = .ok s) :
    ∃ u, r.fromEntries fs = .ok u := by
  rw [fromEntries_ok_iff hr] at h ⊢
  refine ⟨fun f hf => ?_, fun t ht => ?_⟩
  · obtain ⟨e, he, hnames, -⟩ := hfe f hf
    exact (h.1 e he).imp fun t => (hnames t).mpr
  · obtain ⟨e, he, hname⟩ := h.2 t ht
    obtain ⟨f, hf, hnames, -⟩ := hef e he
    exact ⟨f, hf, (hnames t).mp hname⟩

theorem assocAll_ok_of_covered (hr : r.Ordered) (hfe : Covered like fs es)
    (h : ∃ s, r.assocAll op es = .ok s) : ∃ u, r.assocAll op fs = .ok u := by
  rw [assocAll_ok_iff hr] at h ⊢
  intro f hf
  obtain ⟨e, he, hnames, -⟩ := hfe f hf
  obtain ⟨t, ht, hname⟩ := h e he
  exact ⟨t, ht, (hnames t).mpr hname⟩

section Results

variable (hr : r.Ordered) (hlike : Equivalence like) (hs : FilledBy r es s) (hu : FilledBy r fs u)
  (hef : Covered like es fs) (hfe : Covered like fs es)
  (hes : ∀ e ∈ es, ∀ e' ∈ es, ∀ t ∈ r.names, NamesField e.1 t → NamesField e'.1 t → like e.2 e'.2)
include hr hlike hs hu hef hfe hes

theorem FilledBy.related {t : Tag} {v w : Value} (hv : (t, v) ∈ s.fields) (hw : (t, w) ∈ u.fields) :
    like v w := by
  have ht : t ∈ r.names := hs.names ▸ List.mem_map_of_mem hv
  rcases hs.source _ hv with ⟨e, he, hname, rfl⟩ | ⟨hv, hno⟩ <;>
    rcases hu.source _ hw with ⟨f, hf, hname', rfl⟩ | ⟨hw, hno'⟩
  · obtain ⟨e', he', hnames, hvalue⟩ := hfe f hf
    exact hlike.trans (hes e he e' he' t ht hname ((hnames t).mp hname')) (hlike.symm hvalue)
  · obtain ⟨f, hf, hnames, -⟩ := hef e he
    exact absurd ((hnames t).mp hname) (hno' f hf)
  · obtain ⟨e, he, hnames, -⟩ := hfe f hf
    exact absurd ((hnames t).mp hname') (hno e he)
  · rw [← get?_eq_some_iff hr] at hv hw
    obtain rfl := Option.some.inj (hv.symm.trans hw)
    exact hlike.refl v

/-- Where entries for one field are related, related entries fill a record with related values. -/
theorem FilledBy.forall₂ : List.Forall₂ like s.values u.values := by
  have hnames : s.fields.map (·.1) = u.fields.map (·.1) := hs.names.trans hu.names.symm
  have hrelated : ∀ f ∈ s.fields, ∀ g ∈ u.fields, f.1 = g.1 → like f.2 g.2 := by
    rintro ⟨t, v⟩ hv ⟨_, w⟩ hw rfl
    exact hs.related hr hlike hu hef hfe hes hv hw
  exact forall₂_of_names hnames hrelated

end Results

end Alike

end Record
end DynVal
