import DynVal.Proofs.Relations.Carried
import DynVal.Proofs.Wire.Copies

/-!
# How copies are compared

References are ordered by their paths, and copies have references of their own. Where all references
in one copy stand before all those in another, the first copy is not above the second if this was so
of the values that were copied, and unlike values have unlike copies (`Wire.carried_copies`). In the
same way distinct copies are compared as their values are where these hold no references at all.
-/

namespace DynVal.Wire

open Std Value

section Carrying

variable {ρ : Ranking} {content : Ref → Value} {R R' : Value → Value → List (Ref × Value) → Prop}
  {a a' b b' : Value} {tr tr' : List (Ref × Value)}

/-- Every reference of the first stands before every reference of the second. -/
def Before (tr tr' : List (Ref × Value)) : Prop :=
  ∀ p ∈ tr, ∀ q ∈ tr', compare p.1.path q.1.path = .lt

theorem Before.mono {t t' : List (Ref × Value)} (h : Before tr tr') (ht : t.Sublist tr)
    (ht' : t'.Sublist tr') : Before t t' :=
  fun p hp q hq => h p (ht.subset hp) q (ht'.subset hq)

/-- Stored as it should be, and without NaN and recur markers. -/
structure Regular (ρ : Ranking) (v : Value) : Prop where
  wellFormed : WellFormed ρ v
  definite : v.Throughout (entriesUnder ρ.rank) fun p => p.isDefinite = true

theorem Regular.contents {v : Value} (h : Regular ρ v) :
    ∀ p ∈ v.contents (entriesUnder ρ.rank), Regular ρ p :=
  fun p hp => ⟨h.wellFormed.contents p hp, h.definite.contents p hp⟩

theorem CopyBy.kind_eq {entries entries' : MapNode → List (Value × Value)}
    (h : CopyBy entries entries' content R a b tr) : a.kind = b.kind := by
  cases h <;> rfl

theorem pairwise_entries {x : MapNode} (hx : Regular ρ (.map x)) :
    (entriesUnder ρ.rank x).Pairwise fun e f => Value.entryOrder (order ρ.rank) e f ≠ .eq :=
  (pairwise_keys hx.wellFormed hx.definite).imp fun h heq => h (Ordering.then_eq_eq.mp heq).1

/-- The copy of a record has its shape, and copies of its values in their places. -/
theorem CopyBy.of_ordered_record {entries entries' : MapNode → List (Value × Value)}
    {q : RecordNode} (h : CopyBy entries entries' content R a (.record q) tr) (ha : WellFormed ρ a)
    (hq : WellFormed ρ (.record q)) :
    ∃ r, a = .record r ∧ r.body.name = q.body.name ∧ r.body.names = q.body.names ∧
      List.Forall₂ (fun p q => ∃ t, t.Sublist tr ∧ R p q t) r.body.values q.body.values := by
  obtain ⟨r, rfl, hname, hrel⟩ := h.of_record
  have hnames (f g : Tag × Value) : (∃ t, t.Sublist tr ∧ CopyField R f g t) → f.1 = g.1 :=
    fun ⟨_, _, h, _⟩ => h
  have hfields := forall₂_of_fields ha.here hq.here hnames hrel
  refine ⟨r, rfl, hname, names_of_forall₂ hnames hfields, ?_⟩
  exact List.forall₂_map_left_iff.mpr (List.forall₂_map_right_iff.mpr
    (hfields.imp fun _ _ ⟨t, ht, h⟩ => ⟨t, ht, h.2⟩))

/-- Copies are compared as what they are copies of, if their contents are and the references of one
stand before those of the other. -/
theorem CopyBy.carried
    (h : CopyBy (entriesUnder ρ.rank) (entriesUnder ρ.rank) content R a b tr)
    (h' : CopyBy (entriesUnder ρ.rank) (entriesUnder ρ.rank) content R' a' b' tr')
    (ha : Regular ρ a) (ha' : Regular ρ a') (hb : Regular ρ b) (hb' : Regular ρ b')
    (hs : Before tr tr')
    (hR : ∀ p ∈ a.contents (entriesUnder ρ.rank), ∀ p' ∈ a'.contents (entriesUnder ρ.rank),
      ∀ q ∈ b.contents (entriesUnder ρ.rank), ∀ q' ∈ b'.contents (entriesUnder ρ.rank),
      ∀ t t', t.Sublist tr → t'.Sublist tr' → R p q t → R' p' q' t' →
        Carried (order ρ.rank p p') (order ρ.rank q q')) :
    Carried (order ρ.rank a a') (order ρ.rank b b') := by
  have hparts (p : Value) (hp : p ∈ a.contents (entriesUnder ρ.rank)) (p' : Value)
      (hp' : p' ∈ a'.contents (entriesUnder ρ.rank)) (q : Value)
      (hq : q ∈ b.contents (entriesUnder ρ.rank)) (q' : Value)
      (hq' : q' ∈ b'.contents (entriesUnder ρ.rank)) (h : ∃ t, t.Sublist tr ∧ R p q t)
      (h' : ∃ t, t.Sublist tr' ∧ R' p' q' t) : Carried (order ρ.rank p p') (order ρ.rank q q') := by
    obtain ⟨t, ht, hr⟩ := h
    obtain ⟨t', ht', hr'⟩ := h'
    exact hR p hp p' hp' q hq q' hq' t t' ht ht' hr hr'
  rw [order_def, order_def]
  by_cases hk : b.kind = b'.kind
  swap
  · rw [compareBy_of_kind_ne _ _ hk, compareBy_of_kind_ne _ _ (by rwa [h.kind_eq, h'.kind_eq]),
      h.kind_eq, h'.kind_eq]
    exact .refl _
  cases b <;> cases b' <;> first | (cases hk; done) | skip
  case ref.ref r r' =>
    obtain ⟨w, hw⟩ := h.of_ref
    obtain ⟨w', hw'⟩ := h'.of_ref
    have hlt : compareBy (.ofRank ρ.rank) (relations ρ.rank) (.ref r) (.ref r') = .lt :=
      hs _ hw _ hw'
    rw [hlt]
    exact .to_lt _
  case list.list k k' =>
    obtain ⟨l, rfl, hl⟩ := h.of_list
    obtain ⟨l', rfl, hl'⟩ := h'.of_list
    rw [compareBy_list, compareBy_list]
    exact carried_compareLex hl.forall₂_sublist hl'.forall₂_sublist hparts
  case tuple.tuple u u' =>
    obtain ⟨t, rfl, hl⟩ := h.of_tuple
    obtain ⟨t', rfl, hl'⟩ := h'.of_tuple
    rw [compareBy_tuple, compareBy_tuple]
    exact carried_compareLex hl.forall₂_sublist hl'.forall₂_sublist hparts
  case set.set t t' =>
    obtain ⟨s, rfl, hl⟩ := h.of_set
    obtain ⟨s', rfl, hl'⟩ := h'.of_set
    have hapart {s : SetNode} (hs : Regular ρ (.set s)) :=
      pairwise_elements hs.wellFormed hs.definite
    rw [compareBy_set, compareBy_set]
    exact carried_contentOrder hl hl' (hapart ha) (hapart ha') (hapart hb) (hapart hb') hparts
  case map.map y y' =>
    obtain ⟨x, rfl, hl⟩ := h.of_map
    obtain ⟨x', rfl, hl'⟩ := h'.of_map
    rw [compareBy_map, compareBy_map]
    refine carried_contentOrder hl hl' (pairwise_entries ha) (pairwise_entries ha')
      (pairwise_entries hb) (pairwise_entries hb') ?_
    rintro e he e' he' f hf f' hf' ⟨_, ht, hef⟩ ⟨_, ht', hef'⟩
    have hmem {x : MapNode} {e : Value × Value} (he : e ∈ entriesUnder ρ.rank x) :=
      mem_contents_map he
    obtain ⟨hk, hv⟩ := hef.parts ht
    obtain ⟨hk', hv'⟩ := hef'.parts ht'
    exact (hparts _ (hmem he).1 _ (hmem he').1 _ (hmem hf).1 _ (hmem hf').1 hk hk').thenBy fun _ =>
      hparts _ (hmem he).2 _ (hmem he').2 _ (hmem hf).2 _ (hmem hf').2 hv hv'
  case record.record q q' =>
    obtain ⟨r, rfl, hname, hnames, hl⟩ := h.of_ordered_record ha.wellFormed hb.wellFormed
    obtain ⟨r', rfl, hname', hnames', hl'⟩ := h'.of_ordered_record ha'.wellFormed hb'.wellFormed
    rw [compareBy_record, compareBy_record, recordOrder, recordOrder, hname, hname',
      hnames, hnames']
    exact (Carried.refl _).thenBy fun _ => (Carried.refl _).thenBy fun _ =>
      carried_compareLex hl hl' hparts
  case recur.recur => cases h.isDefinite
  all_goals
    obtain rfl := h.of_scalar rfl fun _ => Value.noConfusion
    obtain rfl := h'.of_scalar rfl fun _ => Value.noConfusion
    exact .refl _

theorem kind_of_copies {d : Nat} (h : CopyUnder ρ content d a b tr) : a.kind = b.kind := by
  cases d with
  | zero => cases h
  | succ d => exact CopyBy.kind_eq h

theorem carried_copies {d : Nat} (h : CopyUnder ρ content d a b tr)
    (h' : CopyUnder ρ content d a' b' tr') (ha : Regular ρ a) (ha' : Regular ρ a')
    (hb : Regular ρ b) (hb' : Regular ρ b') (hs : Before tr tr') :
    Carried (order ρ.rank a a') (order ρ.rank b b') := by
  induction d generalizing a a' b b' tr tr' with
  | zero => cases h
  | succ d ih =>
    refine CopyBy.carried h h' ha ha' hb hb' hs fun p hp p' hp' q hq q' hq' t t' ht ht' hr hr' => ?_
    exact ih hr hr' (ha.contents p hp) (ha'.contents p' hp')
      (hb.contents q hq) (hb'.contents q' hq')
      (hs.mono ht ht')

end Carrying

end DynVal.Wire
