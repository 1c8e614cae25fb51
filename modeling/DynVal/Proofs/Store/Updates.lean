import DynVal.Proofs.Store.Lookups
import DynVal.Proofs.Store.Positions
import DynVal.Proofs.Values.Filling

/-!
# The laws of updates

Lists and tuples find a slot by its position, maps by a key that is equal, records by the text of a
field. What replacing the entry at a key does is the same for all of them (`Store.Updates`): it
shows at the keys that address the same slot (`Store.SameSlot`) and nowhere else.

* `HasItems.updates`, `Store.At.updates_map`, `RecordNode.updates`: the laws for each kind.
* `assoc_updates`: when an update succeeds, and that it obeys the laws then.
-/

namespace DynVal

open Entries Memo Op

/-! ## Slots -/

/-- The key is a number that is read as this position. -/
def Value.Indexes (key : Value) (i : Nat) : Prop :=
  ∃ n : Number, key = .number n ∧ n.isIntegral = true ∧ n.isBelowZero = false ∧ n.toPosition = i

theorem indexArg_eq_ok_iff {op : String} {key : Value} {length i : Nat} :
    indexArg op key length = .ok i ↔ key.Indexes i := by
  constructor
  · intro h
    unfold indexArg at h
    split at h
    case h_1 n =>
      split at h
      case isTrue hi =>
        split at h
        case isTrue => cases h
        case isFalse hb => exact ⟨n, rfl, hi, by simpa using hb, Except.ok.inj h⟩
      case isFalse => cases h
    case h_2 => cases h
  · rintro ⟨n, rfl, hi, hb, rfl⟩
    rw [indexArg, if_pos hi, if_neg (by simp [hb])]

/-- The two keys address one slot of a value: they are read as the same position, are equal, or name
the same field. -/
def Store.SameSlot (s : Store) : Value → Value → Value → Prop
  | .map _, k, l => s.same k l = true
  | .record _, k, l => ∃ t, NamesField k t ∧ NamesField l t
  | _, k, l => ∃ i, k.Indexes i ∧ l.Indexes i

/-- The value is a map without the key, to which an update adds it. -/
def Store.Lacks (s : Store) (v k : Value) : Prop := v.kind = .map ∧ (v.contains k s).1 = .ok false

/-- What holds where the entry of `v` at `k` was replaced by `x`, which made `w` and led from one
store to another. Other slots are looked at through the keys in `keys`. -/
structure Store.Updates (s t : Store) (keys : Value → Prop) (v k x w : Value) : Prop where
  form : v.SameForm w
  self : s.same k k = true → (w.lookup k t).1 = .ok (some x)
  others : ∀ l, keys l → ¬ s.SameSlot v k l → (w.lookup l t).1 = (v.lookup l s).1
  count : ∃ n, (v.count s).1 = .ok n ∧ (s.Lacks v k → (w.count t).1 = .ok (n + 1)) ∧
    (¬ s.Lacks v k → (w.count t).1 = .ok n)

theorem Store.Updates.mono {s t : Store} {keys keys' : Value → Prop} {v k x w : Value}
    (h : s.Updates t keys v k x w) (hkeys : ∀ l, keys' l → keys l) : s.Updates t keys' v k x w :=
  ⟨h.form, h.self, fun l hl => h.others l (hkeys l hl), h.count⟩

/-! ## Lists and tuples -/

namespace HasItems

variable {s t : Store} {v k x w : Value} {xs : List Value}

theorem sameSlot_iff (h : HasItems s v xs) {l : Value} :
    s.SameSlot v k l ↔ ∃ i, k.Indexes i ∧ l.Indexes i := by
  cases h <;> exact Iff.rfl

theorem not_lacks (h : HasItems s v xs) : ¬ s.Lacks v k := by
  rintro ⟨hkind, -⟩
  cases h <;> cases hkind

theorem count (h : HasItems s v xs) : v.count s = (.ok xs.length, s) := by
  cases h with
  | list h => exact congrArg (fun n => (Except.ok n, s)) h.length_eq
  | tuple t => rfl

theorem lookup_eq_some_iff (h : HasItems s v xs) {y : Value} :
    (v.lookup k s).1 = .ok (some y) ↔ ∃ i, k.Indexes i ∧ xs[i]? = some y := by
  cases hi : indexArg "get" k xs.length with
  | error e =>
    rw [h.refused_lookup hi]
    refine iff_of_false nofun ?_
    rintro ⟨i, hk, -⟩
    cases hi.symm.trans (indexArg_eq_ok_iff.mpr hk)
  | ok i =>
    rw [h.lookup hi, Except.ok.injEq]
    refine ⟨fun hy => ⟨i, indexArg_eq_ok_iff.mp hi, hy⟩, ?_⟩
    rintro ⟨j, hk, hy⟩
    cases hi.symm.trans (indexArg_eq_ok_iff.mpr hk)
    exact hy

/-- An update that succeeds sets the item at the position that the key is read as. -/
theorem of_assoc (h : HasItems s v xs) (hw : v.assoc k x s = (.ok w, t)) :
    ∃ i, k.Indexes i ∧ i < xs.length ∧ v.SameForm w ∧ HasItems t w (xs.set i x) := by
  cases hi : indexArg "assoc" k xs.length with
  | error e => cases hw.symm.trans (h.refused_assoc_key hi x)
  | ok i =>
    by_cases hlt : i < xs.length
    · obtain ⟨w', hw', hform, hset⟩ := h.assoc hi hlt x
      cases hw.symm.trans hw'
      exact ⟨i, indexArg_eq_ok_iff.mp hi, hlt, hform, hset⟩
    · cases hw.symm.trans (h.refused_assoc hi (by omega) x)

theorem assoc_ok_iff (h : HasItems s v xs) :
    (∃ w t, v.assoc k x s = (.ok w, t)) ↔ ∃ y, (v.lookup k s).1 = .ok (some y) := by
  simp only [h.lookup_eq_some_iff]
  constructor
  · rintro ⟨w, t, hw⟩
    obtain ⟨i, hk, hi, -⟩ := h.of_assoc hw
    exact ⟨xs[i], i, hk, List.getElem?_eq_getElem hi⟩
  · rintro ⟨y, i, hk, hy⟩
    obtain ⟨hi, -⟩ := List.getElem?_eq_some_iff.mp hy
    obtain ⟨w, hw, -⟩ := h.assoc (indexArg_eq_ok_iff.mpr hk) hi x
    exact ⟨w, _, hw⟩

theorem updates (h : HasItems s v xs) (hw : v.assoc k x s = (.ok w, t)) (keys : Value → Prop) :
    s.Updates t keys v k x w := by
  obtain ⟨i, hk, hi, hform, hset⟩ := h.of_assoc hw
  have hlength : (xs.set i x).length = xs.length := List.length_set
  refine ⟨hform, fun _ => ?_, fun l _ hl => ?_, xs.length, by rw [h.count], fun ha => ?_,
    fun _ => ?_⟩
  · exact hset.lookup_eq_some_iff.mpr ⟨i, hk, List.getElem?_set_self hi⟩
  · rw [h.sameSlot_iff] at hl
    cases hj : indexArg "get" l xs.length with
    | error e => rw [h.refused_lookup hj, hset.refused_lookup (hlength.symm ▸ hj)]
    | ok j =>
      have hij : i ≠ j := by
        rintro rfl
        exact hl ⟨i, hk, indexArg_eq_ok_iff.mp hj⟩
      rw [h.lookup hj, hset.lookup (hlength.symm ▸ hj), List.getElem?_set_ne hij]
  · exact absurd ha h.not_lacks
  · rw [hset.count, hlength]

theorem contains_iff (h : HasItems s v xs) (hv : v.kind = .list) :
    (v.contains k s).1 = .ok true ↔ ∃ y, (v.lookup k s).1 = .ok (some y) := by
  simp only [h.lookup_eq_some_iff]
  cases h with
  | tuple t => cases hv
  | list h =>
    simp only [Value.contains, h.length_eq]
    cases hi : indexArg "contains" k xs.length with
    | error e =>
      refine iff_of_false (nofun : ¬ Except.ok false = Except.ok true) ?_
      rintro ⟨y, i, hk, -⟩
      cases hi.symm.trans (indexArg_eq_ok_iff.mpr hk)
    | ok i =>
      show Except.ok (decide (i < xs.length)) = Except.ok true ↔ _
      rw [Except.ok.injEq, decide_eq_true_iff]
      constructor
      · exact fun hlt => ⟨xs[i], i, indexArg_eq_ok_iff.mp hi, List.getElem?_eq_getElem hlt⟩
      · rintro ⟨y, j, hk, hy⟩
        cases hi.symm.trans (indexArg_eq_ok_iff.mpr hk)
        exact (List.getElem?_eq_some_iff.mp hy).1

end HasItems

/-! ## Maps -/

namespace Store.At

section Maps

variable {s : Store} {g : Stage} (hs : s.At g) {m : MapNode} (hm : MapNode.Made g m) {k x : Value}
include hs hm

theorem contains_map_iff (hk : k.Sound g) : ((Value.map m).contains k s).1 = .ok true ↔
    ∃ y, ((Value.map m).lookup k s).1 = .ok (some y) := by
  obtain ⟨ρ, hρ⟩ := hs.exists_admitted
  have hes := hs.holds_shown hm hρ
  show (m.contains k s).1 = _ ↔ ∃ y, (m.get? k s).1 = _
  rw [hs.contains_eq hm hk hρ hes, hs.get_eq hm hk hρ hes, Except.ok.injEq]
  simp only [Except.ok.injEq, Option.isSome_iff_exists]

/-- An update of a map succeeds. -/
theorem updates_map (hk : k.Sound g) (hx : x.Sound g) :
    ∃ w t, (Value.map m).assoc k x s = (.ok w, t) ∧ s.Updates t (Value.Sound g) (.map m) k x w := by
  obtain ⟨g', n, hext, ht, hn, hmade, hput⟩ := MapNode.yields_assoc hm hk hx s hs
  obtain ⟨ρ, hρ'⟩ := ht.exists_admitted
  have hρ := hext.numbering.admits hρ'
  have hes := hs.holds_shown hm hρ
  have hfs := hput ρ hρ' _ hes
  have hget {l : Value} (hl : l.Sound g) : (n.get? l (m.assoc k x s).2).1 =
      .ok (if s.same k l = true then some x else lookup (keysUnder ρ).test l (s.shown m)) := by
    rw [ht.get_eq hmade (hl.extends hext) hρ' hfs,
      lookup_put (lawful_keysUnder ρ).equiv hes.keys_distinct, hs.same_eq_test hρ k l hk hl]
  have hcontains : ((Value.map m).contains k s).1 = _ := hs.contains_eq hm hk hρ hes
  have hsize : (n.size (m.assoc k x s).2).1 = _ := ht.size_eq hmade hρ' hfs
  rw [length_put] at hsize
  refine ⟨.map n, _, bind_ok hn, trivial, fun hkk => ?_, fun l hl hkl => ?_, (s.shown m).length,
    hs.size_eq hm hρ hes, fun ha => hsize.trans ?_, fun ha => hsize.trans ?_⟩
  · exact (hget hk).trans (by rw [if_pos hkk])
  · have hother : ¬ s.same k l = true := hkl
    refine (hget hl).trans (.trans ?_ (hs.get_eq hm hl hρ hes).symm)
    rw [if_neg hother]
  · have hnew := Except.ok.inj (hcontains.symm.trans ha.2)
    rw [if_neg (by simp [hnew])]
  · have hold : ¬ _ = false := fun hnew => ha ⟨rfl, hcontains.trans (congrArg Except.ok hnew)⟩
    rw [if_pos (Bool.eq_true_of_not_eq_false hold)]

end Maps

end Store.At

/-! ## Records -/

namespace Record

section Assoc

variable {r q : Record Value} {t u : Tag} {v : Value}

theorem get?_assoc_self (hr : r.Ordered) (h : r.assoc t v = .ok q) : q.get? t = some v := by
  have hq : q.Ordered := hr.of_names (names_assoc h)
  have ht : t ∈ q.names := names_assoc h ▸ (assoc_ok_iff hr).mp ⟨q, h⟩
  obtain ⟨w, hw⟩ := Option.isSome_iff_exists.mp ((isSome_get?_iff hq).mpr ht)
  rcases mem_fields_assoc hr h ((get?_eq_some_iff hq).mp hw) with heq | ⟨-, hne⟩
  · rw [hw, (Prod.mk.inj heq).2]
  · exact absurd rfl hne

theorem get?_assoc_of_ne (hr : r.Ordered) (h : r.assoc t v = .ok q) (hne : u ≠ t) :
    q.get? u = r.get? u := by
  have hq : q.Ordered := hr.of_names (names_assoc h)
  cases hu : q.get? u with
  | none =>
    have hnot : u ∉ r.names := by
      rw [← names_assoc h, ← isSome_get?_iff hq, hu]
      exact Bool.false_ne_true
    rw [← isSome_get?_iff hr, Option.not_isSome_iff_eq_none] at hnot
    exact hnot.symm
  | some w =>
    rcases mem_fields_assoc hr h ((get?_eq_some_iff hq).mp hu) with heq | ⟨hmem, -⟩
    · exact absurd (Prod.mk.inj heq).1 hne
    · exact ((get?_eq_some_iff hr).mpr hmem).symm

theorem contains_iff (hr : r.Ordered) : r.contains t = true ↔ t ∈ r.names := by
  rw [contains, Option.isSome_iff_exists, List.mem_iff_getElem?]
  exact exists_congr fun i => position?_eq_some_iff hr

theorem impls_assoc (h : r.assoc t v = .ok q) : q.impls = r.impls := by
  unfold assoc at h
  split at h <;> cases h
  rfl

theorem size_assoc (h : r.assoc t v = .ok q) : q.size = r.size := by
  have hlength := congrArg List.length (names_assoc h)
  simpa [names, size] using hlength

end Assoc

end Record

namespace RecordNode

variable {s t : Store} {r : RecordNode} {k l x w : Value} {f : Tag}

theorem lookup_of_names (hk : NamesField k f) :
    (Value.record r).lookup k s = (.ok (r.body.get? f), s) := by
  simp only [Value.lookup, fieldTag_eq_ok_iff.mpr hk]
  rfl

theorem contains_of_names (hk : NamesField k f) :
    (Value.record r).contains k s = (.ok (r.body.contains f), s) := by
  simp only [Value.contains, fieldTag_eq_ok_iff.mpr hk]
  rfl

/-- A key that names no field of any record is refused. -/
theorem refused_of_not_names (hk : ∀ f, ¬ NamesField k f) :
    ((Value.record r).lookup k).Refused s (.typeMismatch "get" "tag" k.typeName) ∧
    ((Value.record r).assoc k x).Refused s (.typeMismatch "assoc" "tag" k.typeName) ∧
    ((Value.record r).contains k).Refused s (.typeMismatch "contains" "tag" k.typeName) := by
  cases k with
  | tag t => exact absurd (.tag t) (hk t)
  | str a => exact absurd (.str a) (hk ⟨a⟩)
  | symbol a => exact absurd (.symbol a) (hk ⟨a.name⟩)
  | _ => exact ⟨rfl, rfl, rfl⟩

theorem lookup_eq_some_iff {y : Value} : ((Value.record r).lookup k s).1 = .ok (some y) ↔
    ∃ f, NamesField k f ∧ r.body.get? f = some y := by
  by_cases hk : ∃ f, NamesField k f
  · obtain ⟨f, hf⟩ := hk
    rw [lookup_of_names hf, Except.ok.injEq]
    refine ⟨fun hy => ⟨f, hf, hy⟩, ?_⟩
    rintro ⟨f', hf', hy⟩
    rwa [hf.unique hf']
  · rw [(refused_of_not_names (x := k) fun f hf => hk ⟨f, hf⟩).1]
    exact iff_of_false nofun fun ⟨f, hf, _⟩ => hk ⟨f, hf⟩

theorem contains_iff (hr : r.body.Ordered) : ((Value.record r).contains k s).1 = .ok true ↔
    ∃ y, ((Value.record r).lookup k s).1 = .ok (some y) := by
  simp only [lookup_eq_some_iff]
  by_cases hk : ∃ f, NamesField k f
  · obtain ⟨f, hf⟩ := hk
    rw [contains_of_names hf, Except.ok.injEq, Record.contains_iff hr, ← Record.isSome_get?_iff hr,
      Option.isSome_iff_exists]
    refine exists_congr fun y => ⟨fun hy => ⟨f, hf, hy⟩, ?_⟩
    rintro ⟨f', hf', hy⟩
    rwa [hf.unique hf']
  · rw [(refused_of_not_names (x := k) fun f hf => hk ⟨f, hf⟩).2.2]
    exact iff_of_false nofun fun ⟨_, f, hf, _⟩ => hk ⟨f, hf⟩

theorem run_assoc {b : Record Value} (hk : NamesField k f) (hb : r.body.assoc f x = .ok b) :
    (Value.record r).assoc k x s = (.ok (.record ⟨s.nodes, b⟩), s.afterShare) := by
  simp only [Value.assoc, fieldTag_eq_ok_iff.mpr hk]
  exact run_bind (@run_share _ s _ _ hb) _

theorem of_assoc (hw : (Value.record r).assoc k x s = (.ok w, t)) :
    ∃ f b n, NamesField k f ∧ r.body.assoc f x = .ok b ∧ w = .record ⟨n, b⟩ := by
  by_cases hk : ∃ f, NamesField k f
  · obtain ⟨f, hf⟩ := hk
    cases hb : r.body.assoc f x with
    | ok b =>
      cases hw.symm.trans (run_assoc hf hb)
      exact ⟨f, b, _, hf, hb, rfl⟩
    | error e =>
      have hrun : (RecordNode.assoc r f x).Refused s e := refused_share hb
      simp only [Value.assoc, fieldTag_eq_ok_iff.mpr hf] at hw
      cases hw.symm.trans (hrun.bind _)
  · cases hw.symm.trans (refused_of_not_names fun f hf => hk ⟨f, hf⟩).2.1

theorem assoc_ok_iff (hr : r.body.Ordered) : (∃ w t, (Value.record r).assoc k x s = (.ok w, t)) ↔
    ∃ y, ((Value.record r).lookup k s).1 = .ok (some y) := by
  simp only [lookup_eq_some_iff]
  constructor
  · rintro ⟨w, t, hw⟩
    obtain ⟨f, b, -, hf, hb, -⟩ := of_assoc hw
    have hname := (Record.assoc_ok_iff hr).mp ⟨b, hb⟩
    obtain ⟨y, hy⟩ := Option.isSome_iff_exists.mp ((Record.isSome_get?_iff hr).mpr hname)
    exact ⟨y, f, hf, hy⟩
  · rintro ⟨y, f, hf, hy⟩
    have hname := (Record.isSome_get?_iff hr).mp (Option.isSome_iff_exists.mpr ⟨y, hy⟩)
    obtain ⟨b, hb⟩ := (Record.assoc_ok_iff hr).mpr hname
    exact ⟨_, _, run_assoc hf hb⟩

theorem updates (hr : r.body.Ordered) (hw : (Value.record r).assoc k x s = (.ok w, t))
    (keys : Value → Prop) : s.Updates t keys (.record r) k x w := by
  obtain ⟨f, b, n, hf, hb, rfl⟩ := of_assoc hw
  refine ⟨⟨Record.name_assoc hb, Record.names_assoc hb, Record.impls_assoc hb⟩, fun _ => ?_,
    fun l _ hl => ?_, r.body.size, rfl, fun ha => ?_, fun _ => ?_⟩
  · rw [lookup_of_names hf, Record.get?_assoc_self hr hb]
  · by_cases hk : ∃ u, NamesField l u
    · obtain ⟨u, hu⟩ := hk
      have hne : u ≠ f := by
        rintro rfl
        exact hl ⟨u, hf, hu⟩
      rw [lookup_of_names hu, lookup_of_names hu, Record.get?_assoc_of_ne hr hb hne]
    · have hno : ∀ u, ¬ NamesField l u := fun u hu => hk ⟨u, hu⟩
      rw [(refused_of_not_names (x := l) hno).1, (refused_of_not_names (x := l) hno).1]
  · cases ha.1
  · exact congrArg Except.ok (Record.size_assoc hb)

end RecordNode

/-! ## All of them -/

/-- Replacing the entry at a key succeeds on a map, and elsewhere just if there is one. What comes
out is of the same form and differs at that key only; a map that lacked the key has one entry
more. -/
theorem assoc_updates {host : Host} {s : Store} {log : Log} (h : History host s log) {v k x : Value}
    (hv : Held log v) (hk : Held log k) (hx : Held log x)
    (hkind : v.kind ∈ [Kind.list, .tuple, .map, .record]) :
    ((∃ w t, v.assoc k x s = (.ok w, t)) ↔
      v.kind = .map ∨ ∃ y, (v.lookup k s).1 = .ok (some y)) ∧
    (∀ w t, v.assoc k x s = (.ok w, t) → s.Updates t (Held log) v k x w) ∧
    (v.kind ≠ .tuple →
      ((v.contains k s).1 = .ok true ↔ ∃ y, (v.lookup k s).1 = .ok (some y))) := by
  obtain ⟨g, hs, hkept⟩ := h.exists_stage
  obtain ⟨ρ, hρ⟩ := hs.exists_admitted
  have hsv := hkept.held hv
  have hitems {xs : List Value} (hxs : HasItems s v xs) (hm : v.kind ≠ .map) :
      ((∃ w t, v.assoc k x s = (.ok w, t)) ↔
        v.kind = .map ∨ ∃ y, (v.lookup k s).1 = .ok (some y)) ∧
      ∀ w t, v.assoc k x s = (.ok w, t) → s.Updates t (Held log) v k x w :=
    ⟨hxs.assoc_ok_iff.trans (or_iff_right hm).symm, fun w t hw => hxs.updates hw _⟩
  cases v with
  | list l =>
    have hxs : HasItems s (.list l) (l.body.toList s.backings) := hs.hasItems hsv rfl
    exact ⟨(hitems hxs nofun).1, (hitems hxs nofun).2, fun _ => hxs.contains_iff rfl⟩
  | tuple u =>
    have hxs : HasItems s (.tuple u) u.body.items := hs.hasItems hsv rfl
    exact ⟨(hitems hxs nofun).1, (hitems hxs nofun).2, fun hne => absurd rfl hne⟩
  | map m =>
    obtain ⟨w, t, hw, hupdates⟩ := hs.updates_map hsv (hkept.held hk) (hkept.held hx)
    refine ⟨iff_of_true ⟨w, t, hw⟩ (.inl rfl), fun w' t' hw' => ?_,
      fun _ => hs.contains_map_iff hsv (hkept.held hk)⟩
    cases hw.symm.trans hw'
    exact hupdates.mono fun l hl => hkept.held hl
  | record r =>
    have hr := RecordNode.ordered_of_sound hsv hρ
    exact ⟨(RecordNode.assoc_ok_iff hr).trans (or_iff_right nofun).symm,
      fun w t hw => RecordNode.updates hr hw _, fun _ => RecordNode.contains_iff hr⟩
  | _ => exact absurd hkind (by simp [Value.kind])

/-- A key is added to a map beside one that stays. -/
theorem assoc_updates_added :
    let yes : Value := .bool true
    let m : Value := .map ⟨0, .flat (.slice [(yes, .nil)])⟩
    ∃ s w t, History default s [(.makeMap [(yes, .nil)], .ok (.value m))] ∧
      m.assoc .nil yes s = (.ok w, t) ∧ (w.lookup .nil t).1 = .ok (some yes) ∧
      (w.lookup yes t).1 = (m.lookup yes s).1 ∧ (w.count t).1 = .ok 2 := by
  intro yes m
  have hscalars : ∀ v ∈ [yes, .nil], v.level = 0 := by decide
  have hmap : History default _ [(.makeMap [(yes, .nil)], .ok (.value m))] :=
    History.start.ask (.makeMap [(yes, .nil)]) fun v hv => .scalar (hscalars v hv)
  have hm : Held [(.makeMap [(yes, .nil)], .ok (.value m))] m :=
    .replied (q := .makeMap [(yes, .nil)]) (r := .value m) List.mem_cons_self (by simp [Reply.held])
  have hlaws := assoc_updates hmap hm (k := .nil) (x := yes) (.scalar rfl) (.scalar rfl) (by decide)
  obtain ⟨w, t, hw⟩ := hlaws.1.mpr (.inl rfl)
  have hupdates := hlaws.2.1 w t hw
  obtain ⟨n, hn, hadded, -⟩ := hupdates.count
  obtain rfl : 1 = n := Except.ok.inj ((show _ = Except.ok 1 from rfl).symm.trans hn)
  exact ⟨_, w, t, hmap, hw, hupdates.self rfl, hupdates.others yes (.scalar rfl) Bool.false_ne_true,
    hadded ⟨rfl, rfl⟩⟩

end DynVal
