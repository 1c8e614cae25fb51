import DynVal.Proofs.Store.Filling
import DynVal.Proofs.Store.Lookups
import DynVal.Proofs.Store.Making
import DynVal.Proofs.Values.Pairs

/-!
# Records and their maps

A record that was turned into a map comes back when a record of its shape is filled from that map.
Entries that were added to the map in between do no harm as long as their keys name none of the
fields: they are read and passed over.

* `Record.Unfolded`: the entries of a record, and others beside them.
* `Record.Unfolded.fromEntries`: what such entries fill a record with, in whatever order they are
  read.
* `Unfolds.unfolded`: the maps in question hold such entries, by induction on how they came about.
-/

namespace DynVal

open Entries Memo Op

/-! ## Entries of a record -/

namespace Record

/-- The fields as entries, and beside them only entries for other fields. -/
structure Unfolded (r : Record Value) (es : List (Value × Value)) : Prop where
  keys : ∀ e ∈ es, ∃ t, NamesField e.1 t
  fields : ∀ t ∈ r.names, ∃ e ∈ es, NamesField e.1 t
  source : ∀ e ∈ es, ∀ t ∈ r.names, NamesField e.1 t → (t, e.2) ∈ r.fields

variable {p r s : Record Value} {es fs : List (Value × Value)} {k v : Value} {t : Tag}
  {eq : Value → Value → Bool}

theorem unfolded_entries (r : Record Value) : r.Unfolded r.entries where
  keys e he := by
    obtain ⟨f, -, rfl⟩ := List.mem_map.mp he
    exact ⟨f.1, .tag f.1⟩
  fields t ht := by
    obtain ⟨f, hf, rfl⟩ := List.mem_map.mp ht
    exact ⟨_, List.mem_map_of_mem hf, .tag f.1⟩
  source e he t _ hname := by
    obtain ⟨f, hf, rfl⟩ := List.mem_map.mp he
    obtain rfl := hname.unique (.tag f.1)
    exact hf

section Keys

/-- Keys that are not told apart name one field. -/
def NamesAlike (eq : Value → Value → Bool) : Prop :=
  ∀ k l t, eq k l = true → (NamesField k t ↔ NamesField l t)

variable (heq : NamesAlike eq)
include heq

theorem Unfolded.put (h : r.Unfolded es) (hk : NamesField k t) (ht : t ∉ r.names) :
    r.Unfolded (Entries.put eq k v es) where
  keys e he := by
    rcases mem_put he with he | ⟨-, hkey | ⟨f, -, hf, hkey⟩⟩
    · exact h.keys e he
    · exact ⟨t, hkey ▸ hk⟩
    · exact ⟨t, hkey ▸ (heq _ _ t hf).mpr hk⟩
  fields u hu := by
    obtain ⟨e, he, hname⟩ := h.fields u hu
    refine ⟨e, mem_put_of_ne he (Bool.eq_false_iff.mpr fun hek => ?_), hname⟩
    exact ht (hk.unique ((heq _ _ u hek).mp hname) ▸ hu)
  source e he u hu hname := by
    rcases mem_put he with he | ⟨-, hkey | ⟨f, -, hf, hkey⟩⟩
    · exact h.source e he u hu hname
    · exact absurd (hk.unique (hkey ▸ hname) ▸ hu) ht
    · exact absurd (hk.unique ((heq _ _ u hf).mp (hkey ▸ hname)) ▸ hu) ht

/-- In whatever order the entries are, and with which of the keys that are not told apart. -/
theorem Unfolded.alike (he : PartialEquiv eq) (h : r.Unfolded es) (ha : Alike eq fs es) :
    r.Unfolded fs := by
  have hnames {e f : Value × Value} (hef : AlikeEntry eq e f) (t : Tag) :
      NamesField e.1 t ↔ NamesField f.1 t := by
    rcases hef.1 with hkey | hkey
    · rw [hkey]
    · exact heq _ _ t hkey
  refine ⟨fun f hf => ?_, fun t ht => ?_, fun f hf t ht hname => ?_⟩
  · obtain ⟨e, hm, hfe⟩ := ha.exists_mem hf
    exact (h.keys e hm).imp fun t => (hnames hfe t).mpr
  · obtain ⟨e, hm, hname⟩ := h.fields t ht
    obtain ⟨f, hf, hef⟩ := (ha.symm he).exists_mem hm
    exact ⟨f, hf, (hnames hef t).mp hname⟩
  · obtain ⟨e, hm, hfe⟩ := ha.exists_mem hf
    rw [hfe.2]
    exact h.source e hm t ht ((hnames hfe t).mp hname)

end Keys

/-! ### Filling from them -/

/-- The fields and values of one record with the name and the tables of another. -/
def withFieldsOf (p r : Record Value) : Record Value := ⟨p.name, r.fields, p.impls⟩

/-- A record with the names of another and no field but those of the other has all of them. -/
theorem fields_eq_of_subset (hr : r.Ordered) (hnames : s.names = r.names)
    (h : s.fields ⊆ r.fields) : s.fields = r.fields := by
  have hlen : r.fields.length = s.fields.length := by
    simpa [names] using (congrArg List.length hnames).symm
  rw [← arranged_eq_of_subset (hr.of_names hnames) h hlen, arranged_eq_fields hr (.refl _)]

section Shape

variable (hr : r.Ordered) (hnames : p.names = r.names)
include hr hnames

theorem Unfolded.fromEntries (h : r.Unfolded es) :
    p.fromEntries es = .ok (p.withFieldsOf r) := by
  have hp := hr.of_names hnames
  obtain ⟨s, hs⟩ := (fromEntries_ok_iff hp).mpr ⟨h.keys, hnames ▸ h.fields⟩
  have hfilled := filledBy_fromEntries hp hs
  have hsub : s.fields ⊆ r.fields := by
    intro f hf
    have ht : f.1 ∈ r.names := hnames ▸ hfilled.names ▸ List.mem_map_of_mem hf
    rcases hfilled.source f hf with ⟨e, he, hname, hvalue⟩ | ⟨-, hno⟩
    · have hmem := h.source e he f.1 ht hname
      rwa [hvalue] at hmem
    · obtain ⟨e, he, hname⟩ := h.fields f.1 ht
      exact absurd hname (hno e he)
  rw [hs, eq_of_fromEntries hs, fields_eq_of_subset hr (hfilled.names.trans hnames) hsub]
  rfl

theorem withFields_fields : p.withFields r.fields = .ok (p.withFieldsOf r) := by
  have hp := hr.of_names hnames
  have hnamed : ∀ t ∈ p.names, ∃ f ∈ r.fields, f.1 = t := by
    rw [hnames]
    exact fun t ht => List.mem_map.mp ht
  obtain ⟨s, hs⟩ := (withFields_ok_iff hp).mpr hnamed
  have hsub : s.fields ⊆ r.fields := fun f hf => mem_of_withFields hp hs f hf
  rw [hs, eq_of_withSlots hs, fields_eq_of_subset hr ((names_withFields hs).trans hnames) hsub]
  rfl

end Shape

end Record

/-! ## Maps that a record was turned into -/

/-- A map that a record was turned into, or that came about from such a map with entries under keys
that name none of the fields. -/
inductive Unfolds (log : Log) (r : RecordNode) : MapNode → Prop where
  | toMap {m : MapNode} (h : (.toMap r, .ok (.value (.map m))) ∈ log) : Unfolds log r m
  | assoc {m n : MapNode} {k v : Value} {t : Tag} (hm : Unfolds log r m) (hk : NamesField k t)
    (ht : t ∉ r.body.names) (h : (.assoc m k v, .ok (.value (.map n))) ∈ log) : Unfolds log r n

section Unfolds

variable {s : Store} {log : Log} {g : Stage} {p r : RecordNode} {m : MapNode} {ρ : Ranking}

theorem namesAlike_test (ρ : Ranking) : Record.NamesAlike (keysUnder ρ).test := fun _ _ _ h =>
  have ⟨hk, hl, heq⟩ := Keyed.test_within.mp h
  Value.namesField_congr hk hl heq

theorem distinct_entries {r : Record Value} (hr : r.Ordered) :
    Distinct (keysUnder ρ).test r.entries := by
  refine List.pairwise_map.mpr ((List.pairwise_map.mp hr.nodup).imp fun {f f'} hne => ?_)
  refine Bool.eq_false_iff.mpr fun htest => hne ?_
  exact ((namesAlike_test ρ _ _ f.1 htest).mp (.tag f.1)).unique (.tag f'.1)

theorem Unfolds.unfolded (hm : Unfolds log r m) (hk : log.Kept g)
    (hmakes : ∀ q a, (q, .ok a) ∈ log → ∀ ρ : Ranking, g.numbering.Admits ρ → q.Makes ρ a)
    (hρ : g.numbering.Admits ρ) : ∃ es, MapNode.Holds ρ m es ∧ r.body.Unfolded es := by
  induction hm with
  | @toMap m h =>
    have hr : (Value.record r).Sound g := hk.operands _ _ h _ (by simp [Request.operands])
    have hordered := RecordNode.ordered_of_sound hr hρ
    have hbody := (hmakes _ _ h ρ hρ).body_eq rfl
    refine ⟨r.body.entries, ?_, r.body.unfolded_entries⟩
    have hmerge : merge (keysUnder ρ).test (fun _ => false) [] r.body.entries = r.body.entries :=
      merge_of_distinct (distinct_entries hordered)
    exact hmerge ▸ MapNode.holds_make hbody
  | @assoc m n k v t _ hname ht h ih =>
    obtain ⟨es, hes, hunfolded⟩ := ih
    obtain ⟨n', heq, hn⟩ := hk.means _ _ h ρ hρ
    cases heq
    exact ⟨_, hn es hes, hunfolded.put (namesAlike_test ρ) hname ht⟩

theorem Unfolds.held (hm : Unfolds log r m) : Held log (.map m) := by
  cases hm with
  | toMap h => exact .reply h
  | assoc _ _ _ h => exact .reply h

theorem RecordNode.yields_shareFilled (p : Record Value) (hr : (Value.record r).Sound g) :
    Yields g (share (p.withFieldsOf r.body)) fun _ q => q.body = p.withFieldsOf r.body := by
  refine yields_of_admitted fun ρ hρ => ?_
  have hordered : (p.withFieldsOf r.body).Ordered := (ordered_of_sound hr hρ).of_names rfl
  have hvalues : (p.withFieldsOf r.body).Values (Value.Sound g) := values_sound hr
  exact (yields_shareRecord hvalues hordered).mono fun _ _ _ h => h.2

section Filled

variable (hr : (Value.record r).Sound g) (hnames : p.body.names = r.body.names)
include hr hnames

theorem RecordNode.yields_fromData_map (hm : MapNode.Made g m)
    (hunfolded : ∀ ρ : Ranking, g.numbering.Admits ρ →
      ∃ es, MapNode.Holds ρ m es ∧ r.body.Unfolded es) :
    Yields g (p.fromData (.map m)) fun _ q => q.body = p.body.withFieldsOf r.body := by
  refine yields_bind (MapNode.yields_entries hm) fun g' fs hext hfs => ?_
  refine yields_of_admitted fun ρ hρ => ?_
  obtain ⟨es, hes, hunf⟩ := hunfolded ρ (hext.numbering.admits hρ)
  have hfs : r.body.Unfolded fs :=
    hunf.alike (namesAlike_test ρ) (lawful_keysUnder ρ).equiv (hfs.2 ρ hρ es hes)
  rw [hfs.fromEntries (ordered_of_sound (hr.extends hext) hρ) hnames]
  exact yields_shareFilled p.body (hr.extends hext)

theorem RecordNode.yields_fromData_record :
    Yields g (p.fromData (.record r)) fun _ q => q.body = p.body.withFieldsOf r.body := by
  refine yields_of_admitted fun ρ hρ => ?_
  rw [fromData, Record.withFields_fields (ordered_of_sound hr hρ) hnames]
  exact yields_shareFilled p.body hr

end Filled

end Unfolds

/-- A record that is filled from the map of a record of its shape has the fields of that one, and so
has a record that is filled from the other directly. The values are the same ones, NaN or not. -/
theorem fromData_undoes_toMap {host : Host} {s : Store} {log : Log} (h : History host s log)
    {p r : RecordNode} (hr : Held log (.record r)) (hshape : p.body.sameShape r.body = true) :
    -- a record has a map, which takes further entries
    (∃ m, (Request.perform (.toMap r) s).1 = .ok (.value (.map m))) ∧
    (∀ m k v, Unfolds log r m → Held log k → Held log v →
      ∃ n, (Request.perform (.assoc m k v) s).1 = .ok (.value (.map n))) ∧
    -- the map of a record fills another one like the record itself
    (∀ m, Unfolds log r m → ∃ q, (p.fromData (.map m) s).1 = .ok q ∧
      q.body = ⟨r.body.name, r.body.fields, p.body.impls⟩) ∧
    (∃ q, (p.fromData (.record r) s).1 = .ok q ∧
      q.body = ⟨r.body.name, r.body.fields, p.body.impls⟩) := by
  obtain ⟨g, hs, hk, hmakes⟩ := h.exists_stage_makes
  have hsr := hk.held hr
  obtain ⟨hname, hnames⟩ := Record.sameShape_iff.mp hshape
  have hanswer {op : Op RecordNode}
      (hop : Yields g op fun _ q => q.body = p.body.withFieldsOf r.body) :
      ∃ q, (op s).1 = .ok q ∧ q.body = ⟨r.body.name, r.body.fields, p.body.impls⟩ := by
    obtain ⟨_, q, -, -, hq, hbody⟩ := hop s hs
    exact ⟨q, hq, by rw [hbody, Record.withFieldsOf, hname]⟩
  refine ⟨?_, fun m k v hm hkey hv => ?_, fun m hm => ?_, ?_⟩
  · exact (RecordNode.yields_toMap hsr).answers hs fun n => .value (.map n)
  · exact (MapNode.yields_assoc (hk.held hm.held) (hk.held hkey) (hk.held hv)).answers hs
      fun n => .value (.map n)
  · exact hanswer (RecordNode.yields_fromData_map hsr hnames (hk.held hm.held)
      fun ρ hρ => hm.unfolded hk hmakes hρ)
  · exact hanswer (RecordNode.yields_fromData_record hsr hnames)

/-- A record with a NaN, whose map was given a symbol. -/
theorem fromData_undoes_toMap_nan :
    let r : RecordNode := ⟨0, ⟨⟨"r"⟩, [(⟨"a"⟩, .number .nan), (⟨"b"⟩, .bool true)], []⟩⟩
    let p : RecordNode := ⟨1, ⟨⟨"r"⟩, [(⟨"a"⟩, .nil), (⟨"b"⟩, .nil)], [⟨⟨"t"⟩, [], []⟩]⟩⟩
    let n : MapNode := ⟨2, .flat (.slice [(.tag ⟨"a"⟩, .number .nan), (.tag ⟨"b"⟩, .bool true),
      (.symbol ⟨"c"⟩, .nil)])⟩
    ∃ s log, History default s log ∧ Held log (.record r) ∧ p.body.sameShape r.body = true ∧
      Unfolds log r n ∧ ∃ q, (p.fromData (.map n) s).1 = .ok q ∧
        q.body = ⟨⟨"r"⟩, [(⟨"a"⟩, .number .nan), (⟨"b"⟩, .bool true)], [⟨⟨"t"⟩, [], []⟩]⟩ := by
  intro r p n
  let m : MapNode := ⟨1, .flat (.slice [(.tag ⟨"a"⟩, .number .nan), (.tag ⟨"b"⟩, .bool true)])⟩
  let qr : Request := .makeRecord ⟨"r"⟩ [(⟨"b"⟩, .bool true), (⟨"a"⟩, .number .nan)]
  let qn : Request := .assoc m (.symbol ⟨"c"⟩) .nil
  let log : Log := [(qn, .ok (.value (.map n))), (.toMap r, .ok (.value (.map m))),
    (qr, .ok (.value (.record r)))]
  have hscalars : ∀ v ∈ qr.operands, Held [] v := fun v hv =>
    .scalar ((by decide : ∀ v ∈ qr.operands, v.level = 0) v hv)
  have hrecord : History default _ [(qr, .ok (.value (.record r)))] := History.start.ask qr hscalars
  have htoMap : History default _
      [(.toMap r, .ok (.value (.map m))), (qr, .ok (.value (.record r)))] :=
    hrecord.ask (.toMap r) (by
      simp only [Request.operands, List.forall_mem_cons, List.not_mem_nil, false_imp_iff,
        implies_true, and_true]
      exact Held.reply (q := qr) (by simp))
  have hist : History default _ log := htoMap.ask qn (by
    simp only [qn, Request.operands, List.forall_mem_cons, List.not_mem_nil, false_imp_iff,
      implies_true, and_true]
    exact ⟨Held.reply (q := .toMap r) (by simp), .scalar rfl, .scalar rfl⟩)
  have hr : Held log (.record r) := Held.reply (q := qr) (by simp [log])
  have hshape : p.body.sameShape r.body = true := by decide
  have hm : Unfolds log r m := .toMap (by simp [log])
  have hn : Unfolds log r n := hm.assoc (.symbol ⟨"c"⟩) (by decide) (v := .nil) (by simp [log, qn])
  exact ⟨_, log, hist, hr, hshape, hn, (fromData_undoes_toMap hist hr hshape).2.2.1 n hn⟩

end DynVal
