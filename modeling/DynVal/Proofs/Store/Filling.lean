import DynVal.Proofs.Store.Equivalence
import DynVal.Proofs.Store.Records
import DynVal.Proofs.Values.Filling

/-!
# Filling a record depends on content

A map fills a record, or is merged into it, entry by entry as they are read. Maps that are equal do
the same, however they are stored: both fail, or both give a record, and its fields hold values that
are equal or one and the same (`filling_by_content`). This takes that no two entries for one field
differ, since of two such entries the one that is read last is kept.

* `Op.Fills`: what an operation that fills a record answers.
* `Value.covered_of_equal`: equal maps have entries for the same fields.
-/

namespace DynVal

open Op

/-! ## Equal maps -/

namespace Value

variable {ρ : Ranking} {m n : MapNode} {k l v w : Value} {t : Tag}

/-- One and the same value, or equal ones. -/
def Like (ρ : Ranking) (v w : Value) : Prop := v = w ∨ Agree ρ (WellFormed ρ) v w

theorem like_equivalence (ρ : Ranking) : Equivalence (Like ρ) where
  refl _ := .inl rfl
  symm := by
    rintro v w (rfl | h)
    · exact .inl rfl
    · exact .inr ((lawful_wellFormed ρ).equiv.symm h)
  trans := by
    rintro u v w (rfl | h) (rfl | h')
    · exact .inl rfl
    · exact .inr h'
    · exact .inr h
    · exact .inr ((lawful_wellFormed ρ).equiv.trans h h')

theorem like_iff (hv : WellFormed ρ v) (hw : WellFormed ρ w) :
    Like ρ v w ↔ v = w ∨ equal ρ.rank v w = true :=
  or_congr_right (agree_iff_equal hv hw)

theorem namesField_congr (hk : WellFormed ρ k) (hl : WellFormed ρ l)
    (h : equal ρ.rank k l = true) : NamesField k t ↔ NamesField l t := by
  rcases (equal_iff_matches hk hl).mp h with ⟨rfl, -⟩ | hmatches
  · exact Iff.rfl
  rcases (equal_iff_matches hl hk).mp (equal_symm hk hl h) with ⟨rfl, -⟩ | hmatches'
  · exact Iff.rfl
  · exact ⟨.of_matches hmatches, .of_matches hmatches'⟩

theorem covered_of_equal (hm : WellFormed ρ (.map m)) (hn : WellFormed ρ (.map n))
    (h : equal ρ.rank (.map m) (.map n) = true) :
    Covered (Like ρ) (entriesUnder ρ.rank m) (entriesUnder ρ.rank n) := by
  intro e he
  rcases (equal_iff_matches hm hn).mp h with ⟨heq, -⟩ | hmatches
  · cases heq
    exact ⟨e, he, fun _ => Iff.rfl, .inl rfl⟩
  · obtain ⟨f, hf, hkey, hvalue⟩ :=
      Multiset.exists_mem_of_rel_of_mem hmatches (Multiset.mem_coe.mpr he)
    have hf := Multiset.mem_coe.mp hf
    have he := mem_contents_map he
    have hf' := mem_contents_map hf
    exact ⟨f, hf, fun _ => namesField_congr (hm.contents _ he.1) (hn.contents _ hf'.1) hkey,
      (like_iff (hm.contents _ he.2) (hn.contents _ hf'.2)).mpr (.inr hvalue)⟩

end Value

/-! ## Operations that fill a record -/

/-- The two ways in which a map fills a record. -/
inductive Filling where
  | fromMap
  | merge

namespace Filling

/-- From entries. -/
def fill (way : Filling) (r : Record Value) (es : List (Value × Value)) :
    Except Error (Record Value) :=
  match way with
  | .fromMap => r.fromEntries es
  | .merge => r.assocAll "merge" es

/-- From a map. -/
def run (way : Filling) (r : RecordNode) (m : MapNode) : Op Value :=
  match way with
  | .fromMap => do return .record (← r.fromData (.map m))
  | .merge => Value.merge (.record r) (.map m)

variable {way : Filling} {r s : Record Value} {es fs : List (Value × Value)}
  {like : Value → Value → Prop}

theorem fill_ok_of_covered (hr : r.Ordered) (hef : Covered like es fs) (hfe : Covered like fs es)
    (h : ∃ s, way.fill r es = .ok s) : ∃ u, way.fill r fs = .ok u := by
  cases way with
  | fromMap => exact Record.fromEntries_ok_of_covered hr hef hfe h
  | merge => exact Record.assocAll_ok_of_covered hr hfe h

theorem filledBy (hr : r.Ordered) (h : way.fill r es = .ok s) : r.FilledBy es s := by
  cases way with
  | fromMap => exact Record.filledBy_fromEntries hr h
  | merge => exact Record.filledBy_assocAll hr h

end Filling

/-- What the operation answers is worked out from the entries of a map, whatever the ranking. -/
def Op.Fills (g : Stage) (op : Op Value) (m : MapNode)
    (fill : List (Value × Value) → Except Error (Record Value)) : Prop :=
  ∀ s : Store, s.At g → ∃ g', g.Extends g' ∧ Store.At (op s).2 g' ∧
    ∀ ρ : Ranking, g'.numbering.Admits ρ →
      (∃ x : RecordNode, (op s).1 = .ok (.record x) ∧ (Value.record x).Sound g' ∧
        fill (Value.entriesUnder ρ.rank m) = .ok x.body) ∨
      ∃ e, (op s).1 = .error (.error e) ∧ fill (Value.entriesUnder ρ.rank m) = .error e

section Fills

variable {g : Stage} {r : RecordNode} {m : MapNode}

theorem MapNode.yields_shown (hm : MapNode.Made g m) : Yields g m.entries fun g' es =>
    (∀ e ∈ es, e.2.Sound g') ∧
      ∀ ρ : Ranking, g'.numbering.Admits ρ → es = Value.entriesUnder ρ.rank m :=
  (yields_gives (Memo.gives_soundEntries hm)).mono
    fun _ _ hext h => ⟨fun e he => (h.1 e he).2.extends hext, h.2⟩

/-- A record at a node of its own, or an error. -/
def answer (b : Except Error (Record Value)) : Op Value := do
  return .record (← share (← ofExcept b))

theorem answer_fills {b : Except Error (Record Value)} (hr : (Value.record r).Sound g)
    (hvalues : ∀ body, b = .ok body → body.Values (Value.Sound g))
    (hnames : ∀ body, b = .ok body → body.names = r.body.names) {s : Store} (hs : s.At g) :
    ∃ g', g.Extends g' ∧ Store.At (answer b s).2 g' ∧
      ((∃ x : RecordNode, (answer b s).1 = .ok (.record x) ∧ (Value.record x).Sound g' ∧
        b = .ok x.body) ∨
      ∃ e, (answer b s).1 = .error (.error e) ∧ b = .error e) := by
  cases b with
  | error e => exact ⟨g, .refl g, hs, .inr ⟨e, rfl, rfl⟩⟩
  | ok body =>
    obtain ⟨ρ, hρ⟩ := hs.exists_admitted
    have hordered := (RecordNode.ordered_of_sound hr hρ).of_names (hnames body rfl)
    obtain ⟨g', x, hext, hs', hx, hmade, hbody⟩ :=
      RecordNode.yields_shareRecord (hvalues body rfl) hordered s hs
    cases hx
    exact ⟨g', hext, hs', .inl ⟨_, rfl, hmade, rfl⟩⟩

theorem run_fromMap : Filling.fromMap.run r m =
    m.entries >>= fun es => answer (r.body.fromEntries es) := by
  change (m.entries >>= fun es => ofExcept (r.body.fromEntries es) >>= share) >>= _ = _
  simp only [bind_assoc]
  rfl

/-- Where there is nothing to bind, the record itself serves. -/
theorem run_merge : Filling.merge.run r m = m.entries >>= fun es =>
    if es.isEmpty then pure (.record r) else answer (r.body.assocAll "merge" es) := by
  change (m.entries >>= _) >>= _ = _
  rw [bind_assoc]
  refine congrArg _ (funext fun es => ?_)
  cases es with
  | nil => rfl
  | cons e es => exact bind_assoc ..

theorem Filling.fills_run (way : Filling) (hr : (Value.record r).Sound g) (hm : MapNode.Made g m) :
    Op.Fills g (way.run r m) m (way.fill r.body) := by
  intro s hs
  obtain ⟨g₁, es, hext, hs₁, hes, hsound, hshown⟩ := MapNode.yields_shown hm s hs
  have hr := hr.extends hext
  have hrun {next : List (Value × Value) → Op Value} (h : way.run r m = m.entries >>= next) :
      way.run r m s = next es (m.entries s).2 := by rw [h, bind_ok hes]
  cases way with
  | fromMap =>
    obtain ⟨g₂, hext', hs₂, hanswer⟩ := answer_fills hr
      (fun _ => Record.values_fromEntries hsound) (fun _ => Record.names_fromEntries) hs₁
    rw [hrun run_fromMap]
    refine ⟨g₂, hext.trans hext', hs₂, fun ρ hρ => ?_⟩
    rw [← hshown ρ (hext'.numbering.admits hρ)]
    exact hanswer
  | merge =>
    rw [hrun run_merge]
    split
    case isTrue hempty =>
      refine ⟨g₁, hext, hs₁, fun ρ hρ => .inl ⟨r, rfl, hr, ?_⟩⟩
      rw [← hshown ρ hρ, List.isEmpty_iff.mp hempty]
      rfl
    case isFalse =>
      obtain ⟨g₂, hext', hs₂, hanswer⟩ := answer_fills hr
        (fun _ => Record.values_assocAll (RecordNode.values_sound hr) hsound)
        (fun _ => Record.names_assocAll) hs₁
      refine ⟨g₂, hext.trans hext', hs₂, fun ρ hρ => ?_⟩
      rw [← hshown ρ (hext'.numbering.admits hρ)]
      exact hanswer

end Fills

/-! ## One map after the other -/

/-- One and the same value, or values that the store takes for equal. -/
def Store.Like (s : Store) (v w : Value) : Prop := v = w ∨ s.same v w = true

section Like

variable {s : Store} {g : Stage} {ρ : Ranking} {v w : Value}

theorem Store.At.like_iff (hs : s.At g) (hv : v.Sound g) (hw : w.Sound g)
    (hρ : g.numbering.Admits ρ) : s.Like v w ↔ Value.Like ρ v w := by
  rw [Value.like_iff (hv.wellFormed hρ) (hw.wellFormed hρ), Store.Like, hs.same_eq hv hw hρ]

theorem Store.At.same_iff_of_like (hs : s.At g) (hv : v.Sound g) (hw : w.Sound g)
    (h : s.Like v w) : s.same v w = true ↔ v.isDefinite = true := by
  rcases h with rfl | h
  · exact hs.same_self_iff hv
  · obtain ⟨ρ, hρ⟩ := hs.exists_admitted
    refine iff_of_true h ?_
    rw [hs.same_eq hv hw hρ] at h
    exact Value.isDefinite_of_equal (hv.wellFormed hρ) (hw.wellFormed hρ) h

/-- Records with like values are equal unless a field holds a NaN or a recur marker. -/
theorem Store.At.same_records_iff {x y : RecordNode} (hs : s.At g) (hx : (Value.record x).Sound g)
    (hy : (Value.record y).Sound g) (hname : x.body.name = y.body.name)
    (hnames : x.body.names = y.body.names)
    (hvalues : List.Forall₂ s.Like x.body.values y.body.values) :
    s.same (.record x) (.record y) = true ↔ x = y ∨ ∀ v ∈ x.body.values, v.isDefinite = true := by
  obtain ⟨ρ, hρ⟩ := hs.exists_admitted
  have hiff {v w : Value} (hv : v ∈ x.body.values) (hw : w ∈ y.body.values) (h : s.Like v w) :=
    hs.same_iff_of_like (hx.parts v hv) (hy.parts w hw) h
  have hsame : List.Forall₂ (fun v w => s.same v w = true) x.body.values y.body.values ↔
      ∀ v ∈ x.body.values, v.isDefinite = true := by
    calc List.Forall₂ (fun v w => s.same v w = true) x.body.values y.body.values
      _ ↔ List.Forall₂ (fun v w => v.isDefinite = true ∧ s.Like v w) x.body.values
            y.body.values :=
        ⟨Value.forall₂_mono fun v hv w hw h => ⟨(hiff hv hw (.inr h)).mp h, .inr h⟩,
          Value.forall₂_mono fun v hv w hw h => (hiff hv hw h.2).mpr h.1⟩
      _ ↔ (∀ v ∈ x.body.values, v.isDefinite = true) ∧
            List.Forall₂ s.Like x.body.values y.body.values := List.forall₂_and_left ..
      _ ↔ ∀ v ∈ x.body.values, v.isDefinite = true := and_iff_left hvalues
  rw [hs.same_iff hx hy hρ, ← hsame]
  constructor
  · rintro (⟨heq, -⟩ | ⟨-, -, h⟩)
    · exact .inl (Value.record.inj heq)
    · exact .inr h
  · rintro (rfl | h)
    · exact .inl ⟨rfl, rfl⟩
    · exact .inr ⟨hname, hnames, h⟩

end Like

/-- Equal maps are filled into a record one after the other. -/
theorem filling_by_content {host : Host} {s : Store} {log : Log} (h : History host s log)
    {r : RecordNode} {m n : MapNode} (hr : Held log (.record r)) (hm : Held log (.map m))
    (hn : Held log (.map n)) (hmn : s.same (.map m) (.map n) = true) (way : Filling) :
    let a := way.run r m s
    let b := way.run r n a.2
    -- both fail
    ((∃ e, a.1 = .error (.error e)) ∧ ∃ e, b.1 = .error (.error e)) ∨
    -- or both give a record of the same shape
    ∃ x y : RecordNode, a.1 = .ok (.record x) ∧ b.1 = .ok (.record y) ∧
      x.body.name = y.body.name ∧ x.body.names = y.body.names ∧
      -- and where entries for one field do not differ
      ((∀ e ∈ s.shown m, ∀ e' ∈ s.shown m, ∀ t ∈ r.body.names,
          NamesField e.1 t → NamesField e'.1 t → s.Like e.2 e'.2) →
        -- the fields hold the same, and the records are equal if no field holds a NaN or a recur
        -- marker
        List.Forall₂ b.2.Like x.body.values y.body.values ∧
        (b.2.same (.record x) (.record y) = true ↔
          x = y ∨ ∀ v ∈ x.body.values, v.isDefinite = true)) := by
  intro a b
  obtain ⟨g, hs, hk⟩ := h.exists_stage
  have hsr := hk.held hr
  have hsm := hk.held hm
  have hsn := hk.held hn
  obtain ⟨g₁, hext₁, hs₁, hfirst⟩ := way.fills_run hsr hsm s hs
  obtain ⟨g₂, hext₂, hs₂, hsecond⟩ := way.fills_run (hsr.extends hext₁) (hsn.extends hext₁) a.2 hs₁
  -- one ranking for all that is read
  obtain ⟨ρ, hρ₂⟩ := hs₂.exists_admitted
  have hρ₁ := hext₂.numbering.admits hρ₂
  have hρ := hext₁.numbering.admits hρ₁
  have hordered := RecordNode.ordered_of_sound hsr hρ
  have hmn' : Value.equal ρ.rank (.map m) (.map n) = true := hs.same_eq hsm hsn hρ ▸ hmn
  have hcov := Value.covered_of_equal (hsm.wellFormed hρ) (hsn.wellFormed hρ) hmn'
  have hcov' := Value.covered_of_equal (hsn.wellFormed hρ) (hsm.wellFormed hρ)
    (Value.equal_symm (hsm.wellFormed hρ) (hsn.wellFormed hρ) hmn')
  have hsound {e : Value × Value} (he : e ∈ Value.entriesUnder ρ.rank m) : e.2.Sound g :=
    hsm.parts _ (Value.contents_subset_parts (Value.mem_contents_map he).2)
  have hshown {e : Value × Value} (he : e ∈ Value.entriesUnder ρ.rank m) : e ∈ s.shown m :=
    (hs.shown_perm hsm hρ).mem_iff.mpr he
  rcases hfirst ρ hρ₁ with ⟨x, hx, hsx, hfill⟩ | ⟨e, he, hfill⟩ <;>
    rcases hsecond ρ hρ₂ with ⟨y, hy, hsy, hfill'⟩ | ⟨e', he', hfill'⟩
  · have hfx := Filling.filledBy hordered hfill
    have hfy := Filling.filledBy hordered hfill'
    have hname := hfx.name.trans hfy.name.symm
    have hnames := hfx.names.trans hfy.names.symm
    refine .inr ⟨x, y, hx, hy, hname, hnames, fun hentries => ?_⟩
    have hlike := hfx.forall₂ hordered (Value.like_equivalence ρ) hfy hcov hcov'
      fun e he e' he' t ht hkey hkey' => (hs.like_iff (hsound he) (hsound he') hρ).mp
        (hentries e (hshown he) e' (hshown he') t ht hkey hkey')
    have hvalues : List.Forall₂ b.2.Like x.body.values y.body.values :=
      Value.forall₂_mono (fun v hv w hw =>
        (hs₂.like_iff ((hsx.extends hext₂).parts v hv) (hsy.parts w hw) hρ₂).mpr) hlike
    exact ⟨hvalues, hs₂.same_records_iff (hsx.extends hext₂) hsy hname hnames hvalues⟩
  · obtain ⟨u, hu⟩ := Filling.fill_ok_of_covered hordered hcov hcov' ⟨x.body, hfill⟩
    cases hu.symm.trans hfill'
  · obtain ⟨u, hu⟩ := Filling.fill_ok_of_covered hordered hcov' hcov ⟨y.body, hfill'⟩
    cases hu.symm.trans hfill
  · exact .inl ⟨⟨e, he⟩, e', he'⟩

/-- Two maps that differ in the order of their entries and in the sign of a zero. -/
theorem filling_by_content_zeros :
    let r : RecordNode := ⟨0, ⟨⟨"r"⟩, [(⟨"a"⟩, .nil), (⟨"b"⟩, .nil)], []⟩⟩
    let m : MapNode := ⟨1, .flat (.slice
      [(.str "a", .number (.ofBits 0)), (.tag ⟨"b"⟩, .bool true)])⟩
    let n : MapNode := ⟨2, .flat (.slice
      [(.tag ⟨"b"⟩, .bool true), (.str "a", .number (.ofBits 0x8000000000000000))])⟩
    ∃ s log, History default s log ∧ Held log (.record r) ∧ Held log (.map m) ∧ Held log (.map n) ∧
      s.same (.map m) (.map n) = true ∧
      let a := Filling.fromMap.run r m s
      let b := Filling.fromMap.run r n a.2
      ∃ x y : RecordNode, a.1 = .ok (.record x) ∧ b.1 = .ok (.record y) ∧
        b.2.same (.record x) (.record y) = true := by
  intro r m n
  let qr : Request := .makeRecord ⟨"r"⟩ [(⟨"a"⟩, .nil), (⟨"b"⟩, .nil)]
  let qm : Request := .makeMap [(.str "a", .number (.ofBits 0)), (.tag ⟨"b"⟩, .bool true)]
  let qn : Request :=
    .makeMap [(.tag ⟨"b"⟩, .bool true), (.str "a", .number (.ofBits 0x8000000000000000))]
  let log : Log := [(qn, .ok (.value (.map n))), (qm, .ok (.value (.map m))),
    (qr, .ok (.value (.record r)))]
  let s : Store := (qn.perform (qm.perform (qr.perform (.initial default)).2).2).2
  let x : RecordNode := ⟨3, ⟨⟨"r"⟩, [(⟨"a"⟩, .number (.ofBits 0)), (⟨"b"⟩, .bool true)], []⟩⟩
  have hscalars (q : Request) (hq : ∀ v ∈ q.operands, v.level = 0) (log : Log) :
      ∀ v ∈ q.operands, Held log v := fun v hv => .scalar (hq v hv)
  have hist : History default s log :=
    ((History.start.ask qr (hscalars qr (by decide) _)).ask qm (hscalars qm (by decide) _)).ask qn
      (hscalars qn (by decide) _)
  have hr : Held log (.record r) := .replied (q := qr) (r := .value (.record r)) (by simp [log])
    (by simp [Reply.held])
  have hm : Held log (.map m) := .replied (q := qm) (r := .value (.map m)) (by simp [log])
    (by simp [Reply.held])
  have hn : Held log (.map n) := .replied (q := qn) (r := .value (.map n)) (by simp [log])
    (by simp [Reply.held])
  have hx : (Filling.fromMap.run r m s).1 = .ok (.record x) := by decide +kernel +zetaReduce
  have hshown : s.shown m = [(.str "a", .number (.ofBits 0)), (.tag ⟨"b"⟩, .bool true)] := rfl
  have hdiffer {t : Tag} (ha : NamesField (.str "a") t) (hb : NamesField (.tag ⟨"b"⟩) t) : False :=
    absurd ((ha.unique (.str "a")).symm.trans (hb.unique (.tag ⟨"b"⟩))) (by decide)
  refine ⟨s, log, hist, hr, hm, hn, rfl, ?_⟩
  rcases filling_by_content hist hr hm hn rfl .fromMap with
    ⟨⟨e, he⟩, -⟩ | ⟨x', y, hx', hy, -, -, hfields⟩
  · cases hx.symm.trans he
  · obtain rfl := Value.record.inj (Except.ok.inj (hx.symm.trans hx'))
    refine ⟨x, y, hx, hy, (hfields ?_).2.mpr (.inr (by decide))⟩
    rw [hshown]
    simp only [List.forall_mem_cons, List.not_mem_nil, false_imp_iff, implies_true, and_true]
    exact ⟨⟨fun _ _ _ _ => .inl rfl, fun _ _ ha hb => (hdiffer ha hb).elim⟩,
      fun _ _ hb ha => (hdiffer ha hb).elim, fun _ _ _ _ => .inl rfl⟩

/-- One map after the other gives records that differ, with these values in their fields. -/
def Filling.Differs (way : Filling) (s : Store) (r : RecordNode) (m n : MapNode)
    (vs ws : List Value) : Prop :=
  let a := way.run r m s
  let b := way.run r n a.2
  ∃ x y : RecordNode, a.1 = .ok (.record x) ∧ b.1 = .ok (.record y) ∧ x.body.values = vs ∧
    y.body.values = ws ∧ b.2.same (.record x) (.record y) = false

/-- Equal maps do not always fill a record with the same. A map is equal to itself though there is a
NaN in it, and two records that hold this NaN are not equal; and of two entries for one field the
one that is read last is kept. -/
theorem filling_shows_nan_and_order :
    let r : RecordNode := ⟨0, ⟨⟨"r"⟩, [(⟨"a"⟩, .nil)], []⟩⟩
    (∃ s log m, History default s log ∧ Held log (.record r) ∧ Held log (.map m) ∧
      s.same (.map m) (.map m) = true ∧
      ∀ way : Filling, way.Differs s r m m [.number .nan] [.number .nan]) ∧
    ∃ s log m n, History default s log ∧ Held log (.record r) ∧ Held log (.map m) ∧
      Held log (.map n) ∧ s.same (.map m) (.map n) = true ∧
      ∀ way : Filling, way.Differs s r m n [.bool false] [.bool true] := by
  intro r
  let qr : Request := .makeRecord ⟨"r"⟩ [(⟨"a"⟩, .nil)]
  have hscalars (q : Request) (hq : ∀ v ∈ q.operands, v.level = 0) (log : Log) :
      ∀ v ∈ q.operands, Held log v := fun v hv => .scalar (hq v hv)
  have hstart : History default _ [(qr, .ok (.value (.record r)))] :=
    History.start.ask qr (hscalars qr (by decide) _)
  have hreply {q : Request} {v : Value} {log : Log} (h : (q, .ok (.value v)) ∈ log) : Held log v :=
    .replied (q := q) (r := .value v) h (by simp [Reply.held])
  constructor
  · let m : MapNode := ⟨1, .flat (.slice [(.tag ⟨"a"⟩, .number .nan)])⟩
    let qm : Request := .makeMap [(.tag ⟨"a"⟩, .number .nan)]
    let log : Log := [(qm, .ok (.value (.map m))), (qr, .ok (.value (.record r)))]
    have hist : History default _ log := hstart.ask qm (hscalars qm (by decide) _)
    refine ⟨_, log, m, hist, hreply (q := qr) (by simp [log]),
      hreply (q := qm) (by simp [log]), rfl,
      fun way => ?_⟩
    let x : RecordNode := ⟨2, ⟨⟨"r"⟩, [(⟨"a"⟩, .number .nan)], []⟩⟩
    let y : RecordNode := ⟨3, ⟨⟨"r"⟩, [(⟨"a"⟩, .number .nan)], []⟩⟩
    cases way <;> refine ⟨x, y, ?_, ?_, rfl, rfl, ?_⟩ <;> decide +kernel +zetaReduce
  · let m : MapNode := ⟨1, .flat (.slice [(.str "a", .bool true), (.tag ⟨"a"⟩, .bool false)])⟩
    let n : MapNode := ⟨2, .flat (.slice [(.tag ⟨"a"⟩, .bool false), (.str "a", .bool true)])⟩
    let qm : Request := .makeMap [(.str "a", .bool true), (.tag ⟨"a"⟩, .bool false)]
    let qn : Request := .makeMap [(.tag ⟨"a"⟩, .bool false), (.str "a", .bool true)]
    let log : Log := [(qn, .ok (.value (.map n))), (qm, .ok (.value (.map m))),
      (qr, .ok (.value (.record r)))]
    have hist : History default _ log :=
      (hstart.ask qm (hscalars qm (by decide) _)).ask qn (hscalars qn (by decide) _)
    refine ⟨_, log, m, n, hist, hreply (q := qr) (by simp [log]), hreply (q := qm) (by simp [log]),
      hreply (q := qn) (by simp [log]), rfl, fun way => ?_⟩
    let x : RecordNode := ⟨3, ⟨⟨"r"⟩, [(⟨"a"⟩, .bool false)], []⟩⟩
    let y : RecordNode := ⟨4, ⟨⟨"r"⟩, [(⟨"a"⟩, .bool true)], []⟩⟩
    cases way <;> refine ⟨x, y, ?_, ?_, rfl, rfl, ?_⟩ <;> decide +kernel +zetaReduce

end DynVal
