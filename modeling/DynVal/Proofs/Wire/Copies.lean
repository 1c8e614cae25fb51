import DynVal.Proofs.Wire.RoundTrip

/-!
# Copies

What decoding makes of an encoded value is a copy of it: scalars are the same, collections hold
copies, and in the place of a reference there is another, whose cell holds a copy of the content of
the first (`Wire.CopyBy`). Implementations are not copied. A copy comes with its trace, the
references in it with the contents of their cells.

No two references of a trace have one path, so keys and elements that are distinct have distinct
copies (`Wire.order_eq_of_copies`), and no entry and no element is lost (`Wire.copyAt_of_formAt`).
-/

namespace DynVal.Wire

open Std Value Memo

/-! ## Pairs in any order -/

section Pairs

variable {α β γ δ : Type} {R : α → β → Prop} {Q : β → γ → Prop} {S : δ → γ → Prop}

theorem rel_comp {s : Multiset α} {t : Multiset β} {u : Multiset γ} (h : Multiset.Rel R s t)
    (h' : Multiset.Rel Q t u) : Multiset.Rel (Relation.Comp R Q) s u := by
  induction h generalizing u with
  | zero =>
    rw [Multiset.rel_zero_left] at h'
    subst h'
    exact .zero
  | cons hr _ ih =>
    obtain ⟨c, u, hc, hu, rfl⟩ := Multiset.rel_cons_left.mp h'
    exact .cons ⟨_, hr, hc⟩ (ih hu)

/-- What is paired with elements that pair off pairs off. -/
theorem rel_back {P : α → δ → Prop} {s : Multiset α} {t : Multiset β} {u : Multiset γ}
    {v : Multiset δ} (h : Multiset.Rel R s t) (h' : Multiset.Rel S v u) (hq : Multiset.Rel Q t u)
    (hp : ∀ a ∈ s, ∀ d ∈ v, ∀ b c, R a b → S d c → Q b c → P a d) : Multiset.Rel P s v := by
  refine (rel_comp (rel_comp h hq) (Multiset.rel_flip.mpr h')).mono fun a ha d hd => ?_
  rintro ⟨c, ⟨b, hab, hbc⟩, hdc⟩
  exact hp a ha d hd b c hab hdc hbc

theorem forall₂_back {P : α → δ → Prop} {as : List α} {bs : List β} {cs : List γ} {ds : List δ}
    (h : List.Forall₂ R as bs) (h' : List.Forall₂ S ds cs) (hq : List.Forall₂ Q bs cs)
    (hp : ∀ a ∈ as, ∀ d ∈ ds, ∀ b c, R a b → S d c → Q b c → P a d) : List.Forall₂ P as ds := by
  induction hq generalizing as ds with
  | nil =>
    cases h
    cases h'
    exact .nil
  | cons hbc _ ih =>
    cases h with
    | cons hab has =>
      cases h' with
      | cons hdc hds =>
        refine .cons (hp _ List.mem_cons_self _ List.mem_cons_self _ _ hab hdc hbc) ?_
        exact ih has hds fun a ha d hd =>
          hp a (List.mem_cons_of_mem _ ha) d (List.mem_cons_of_mem _ hd)

end Pairs

/-! ## Copies by the copies of contents -/

/-- No two references have one path. -/
def Distinct (tr : List (Ref × Value)) : Prop := tr.Pairwise fun p q => p.1.path ≠ q.1.path

/-- No path is that of a reference in both. -/
def Separate (tr tr' : List (Ref × Value)) : Prop := ∀ p ∈ tr, ∀ q ∈ tr', p.1.path ≠ q.1.path

theorem Separate.mono {tr tr' t t' : List (Ref × Value)} (h : Separate tr tr') (ht : t.Sublist tr)
    (ht' : t'.Sublist tr') : Separate t t' :=
  fun p hp q hq => h p (ht.subset hp) q (ht'.subset hq)

section Copies

variable {R R' : Value → Value → List (Ref × Value) → Prop} {tr tr' : List (Ref × Value)}

/-- The copy of an entry of a map. -/
def CopyEntry (R : Value → Value → List (Ref × Value) → Prop) (e f : Value × Value)
    (tr : List (Ref × Value)) : Prop :=
  ∃ trk trv, tr = trk ++ trv ∧ R e.1 f.1 trk ∧ R e.2 f.2 trv

/-- Key and value of an entry are copied with some of the references. -/
theorem CopyEntry.parts {e f : Value × Value} {t : List (Ref × Value)} (h : CopyEntry R e f t)
    (ht : t.Sublist tr) :
    (∃ t, t.Sublist tr ∧ R e.1 f.1 t) ∧ ∃ t, t.Sublist tr ∧ R e.2 f.2 t := by
  obtain ⟨tk, tv, rfl, hk, hv⟩ := h
  exact ⟨⟨tk, (List.sublist_append_left tk tv).trans ht, hk⟩,
    ⟨tv, (List.sublist_append_right tk tv).trans ht, hv⟩⟩

/-- The copy of a field of a record. -/
def CopyField (R : Value → Value → List (Ref × Value) → Prop) (f g : Tag × Value)
    (tr : List (Ref × Value)) : Prop := f.1 = g.1 ∧ R f.2 g.2 tr

/-- A value, a copy of it and the references in the copy with their contents, where `R` says what
the copies of contents are. -/
inductive CopyBy (entries entries' : MapNode → List (Value × Value)) (content : Ref → Value)
    (R : Value → Value → List (Ref × Value) → Prop) :
    Value → Value → List (Ref × Value) → Prop where
  | scalar {v : Value} (hl : v.level = 0) (he : isEncodable v = true) :
    CopyBy entries entries' content R v v []
  | ref {q r : Ref} {w : Value} {tr : List (Ref × Value)} (h : R (content q) w tr) :
    CopyBy entries entries' content R (.ref q) (.ref r) (tr ++ [(r, w)])
  | list {l k : ListNode} {tr : List (Ref × Value)}
    (h : Along R l.body.shown.toList k.body.shown.toList tr) :
    CopyBy entries entries' content R (.list l) (.list k) tr
  | tuple {t u : TupleNode} {tr : List (Ref × Value)} (h : Along R t.body.items u.body.items tr) :
    CopyBy entries entries' content R (.tuple t) (.tuple u) tr
  | set {s t : SetNode} {xs ys : List Value} {tr : List (Ref × Value)}
    (hs : xs.Perm s.body.elements) (ht : ys.Perm t.body.elements) (h : Along R xs ys tr) :
    CopyBy entries entries' content R (.set s) (.set t) tr
  | map {x y : MapNode} {es fs : List (Value × Value)} {tr : List (Ref × Value)}
    (hx : es.Perm (entries x)) (hy : fs.Perm (entries' y)) (h : Along (CopyEntry R) es fs tr) :
    CopyBy entries entries' content R (.map x) (.map y) tr
  | record {r q : RecordNode} {fs gs : List (Tag × Value)} {tr : List (Ref × Value)}
    (hn : r.body.name = q.body.name) (hr : fs.Perm r.body.fields) (hq : gs.Perm q.body.fields)
    (h : Along (CopyField R) fs gs tr) :
    CopyBy entries entries' content R (.record r) (.record q) tr

/-- A copy down to a depth. -/
def CopyAt (entries entries' : MapNode → List (Value × Value)) (content : Ref → Value) :
    Nat → Value → Value → List (Ref × Value) → Prop
  | 0, _, _, _ => False
  | d + 1, v, w, tr => CopyBy entries entries' content (CopyAt entries entries' content d) v w tr

/-! ## What a copy is a copy of -/

section Inversion

variable {entries entries' : MapNode → List (Value × Value)} {content : Ref → Value} {v w : Value}

theorem CopyBy.of_scalar (h : CopyBy entries entries' content R v w tr) (hl : w.level = 0)
    (hr : ∀ r, w ≠ .ref r) : v = w := by
  cases h with
  | scalar => rfl
  | ref => exact absurd rfl (hr _)
  | _ => exact absurd hl (Nat.succ_ne_zero _)

theorem CopyBy.of_ref {r : Ref} (h : CopyBy entries entries' content R v (.ref r) tr) :
    ∃ w, (r, w) ∈ tr := by
  cases h with
  | scalar _ he => cases he
  | ref h => exact ⟨_, List.mem_append_right _ List.mem_cons_self⟩

theorem CopyBy.of_list {k : ListNode} (h : CopyBy entries entries' content R v (.list k) tr) :
    ∃ l, v = .list l ∧ Along R l.body.shown.toList k.body.shown.toList tr := by
  cases h with
  | scalar hl => exact absurd hl (Nat.succ_ne_zero _)
  | list h => exact ⟨_, rfl, h⟩

theorem CopyBy.of_tuple {u : TupleNode} (h : CopyBy entries entries' content R v (.tuple u) tr) :
    ∃ t, v = .tuple t ∧ Along R t.body.items u.body.items tr := by
  cases h with
  | scalar hl => exact absurd hl (Nat.succ_ne_zero _)
  | tuple h => exact ⟨_, rfl, h⟩

/-- What is paired off in some order is so in any. -/
theorem rel_of_along {α β : Type} {S : α → β → List (Ref × Value) → Prop} {xs xs' : List α}
    {ys ys' : List β} (hx : xs.Perm xs') (hy : ys.Perm ys') (h : Along S xs ys tr) :
    Multiset.Rel (fun a b => ∃ t, t.Sublist tr ∧ S a b t)
      (xs' : Multiset α) (ys' : Multiset β) := by
  rw [← Multiset.coe_eq_coe.mpr hx, ← Multiset.coe_eq_coe.mpr hy]
  exact rel_of_forall₂ h.forall₂_sublist

theorem CopyBy.of_set {t : SetNode} (h : CopyBy entries entries' content R v (.set t) tr) :
    ∃ s, v = .set s ∧ Multiset.Rel (fun p q => ∃ u, u.Sublist tr ∧ R p q u)
      (s.body.elements : Multiset Value) (t.body.elements : Multiset Value) := by
  cases h with
  | scalar hl => exact absurd hl (Nat.succ_ne_zero _)
  | set hs ht h => exact ⟨_, rfl, rel_of_along hs ht h⟩

theorem CopyBy.of_map {y : MapNode} (h : CopyBy entries entries' content R v (.map y) tr) :
    ∃ x, v = .map x ∧ Multiset.Rel (fun e f => ∃ u, u.Sublist tr ∧ CopyEntry R e f u)
      (entries x : Multiset (Value × Value)) (entries' y : Multiset (Value × Value)) := by
  cases h with
  | scalar hl => exact absurd hl (Nat.succ_ne_zero _)
  | map hx hy h => exact ⟨_, rfl, rel_of_along hx hy h⟩

theorem CopyBy.of_record {q : RecordNode} (h : CopyBy entries entries' content R v (.record q) tr) :
    ∃ r, v = .record r ∧ r.body.name = q.body.name ∧
      Multiset.Rel (fun f g => ∃ u, u.Sublist tr ∧ CopyField R f g u)
        (r.body.fields : Multiset (Tag × Value)) (q.body.fields : Multiset (Tag × Value)) := by
  cases h with
  | scalar hl => exact absurd hl (Nat.succ_ne_zero _)
  | record hn hr hq h => exact ⟨_, rfl, hn, rel_of_along hr hq h⟩

theorem CopyBy.isDefinite (h : CopyBy entries entries' content R v w tr) : w.isDefinite = true := by
  cases h with
  | scalar _ he => exact isDefinite_of_isEncodable he
  | _ => rfl

end Inversion

/-! ## Copies of what is distinct -/

section Apart

variable {ρ : Ranking} {content : Ref → Value} {a a' b b' : Value}

/-- Copies that the order does not tell apart are of values that it does not tell apart, if it is so
of their contents and no reference is in both. -/
theorem CopyBy.order_eq
    (h : CopyBy (entriesUnder ρ.rank) (entriesUnder ρ.rank) content R a b tr)
    (h' : CopyBy (entriesUnder ρ.rank) (entriesUnder ρ.rank) content R' a' b' tr')
    (ha : WellFormed ρ a) (ha' : WellFormed ρ a') (hs : Separate tr tr')
    (hb : order ρ.rank b b' = .eq)
    (hR : ∀ p ∈ a.contents (entriesUnder ρ.rank), ∀ p' ∈ a'.contents (entriesUnder ρ.rank),
      ∀ q q' t t', t.Sublist tr → t'.Sublist tr' → R p q t → R' p' q' t' →
        order ρ.rank q q' = .eq → order ρ.rank p p' = .eq) : order ρ.rank a a' = .eq := by
  have hparts (p : Value) (hp : p ∈ a.contents (entriesUnder ρ.rank)) (p' : Value)
      (hp' : p' ∈ a'.contents (entriesUnder ρ.rank)) (q q' : Value)
      (h : ∃ t, t.Sublist tr ∧ R p q t) (h' : ∃ t, t.Sublist tr' ∧ R' p' q' t)
      (hq : order ρ.rank q q' = .eq) : order ρ.rank p p' = .eq := by
    obtain ⟨t, ht, hr⟩ := h
    obtain ⟨t', ht', hr'⟩ := h'
    exact hR p hp p' hp' q q' t t' ht ht' hr hr' hq
  have hm := matches_of_order_eq h.isDefinite h'.isDefinite hb
  have hk := hm.kind_eq
  cases b <;> cases b' <;> first | (cases hk; done) | skip
  case ref.ref r r' =>
    obtain ⟨w, hw⟩ := h.of_ref
    obtain ⟨w', hw'⟩ := h'.of_ref
    exact absurd hm (hs _ hw _ hw')
  case list.list k k' =>
    obtain ⟨l, rfl, hl⟩ := h.of_list
    obtain ⟨l', rfl, hl'⟩ := h'.of_list
    exact order_eq_of_matches (forall₂_back hl.forall₂_sublist hl'.forall₂_sublist hm hparts)
  case tuple.tuple u u' =>
    obtain ⟨t, rfl, hl⟩ := h.of_tuple
    obtain ⟨t', rfl, hl'⟩ := h'.of_tuple
    exact order_eq_of_matches (forall₂_back hl.forall₂_sublist hl'.forall₂_sublist hm hparts)
  case set.set t t' =>
    obtain ⟨s, rfl, hl⟩ := h.of_set
    obtain ⟨s', rfl, hl'⟩ := h'.of_set
    exact order_eq_of_matches (rel_back hl hl' hm hparts)
  case map.map y y' =>
    obtain ⟨x, rfl, hl⟩ := h.of_map
    obtain ⟨x', rfl, hl'⟩ := h'.of_map
    refine order_eq_of_matches (rel_back hl hl' hm ?_)
    rintro e he e' he' f f' ⟨_, ht, hef⟩ ⟨_, ht', hef'⟩ hf
    have hx := mem_contents_map he
    have hx' := mem_contents_map he'
    obtain ⟨hk, hv⟩ := hef.parts ht
    obtain ⟨hk', hv'⟩ := hef'.parts ht'
    exact ⟨hparts _ hx.1 _ hx'.1 _ _ hk hk' hf.1, hparts _ hx.2 _ hx'.2 _ _ hv hv' hf.2⟩
  case record.record q q' =>
    obtain ⟨r, rfl, hname, hl⟩ := h.of_record
    obtain ⟨r', rfl, hname', hl'⟩ := h'.of_record
    obtain ⟨hnames, hfields, hvalues⟩ := hm
    refine order_eq_of_fields ha.here ha'.here (hname.trans (hnames.trans hname'.symm)) ?_
    refine rel_back hl hl' (rel_of_forall₂ (forall₂_fields hfields hvalues)) ?_
    rintro f hf f' hf' g g' ⟨t, ht, hfg, hr⟩ ⟨t', ht', hfg', hr'⟩ hg
    refine ⟨hfg.trans (hg.1.trans hfg'.symm), ?_⟩
    exact hparts _ (List.mem_map_of_mem hf) _ (List.mem_map_of_mem hf') _ _ ⟨t, ht, hr⟩
      ⟨t', ht', hr'⟩ hg.2
  case recur.recur => exact hm.elim
  all_goals
    obtain rfl := h.of_scalar rfl fun _ => Value.noConfusion
    obtain rfl := h'.of_scalar rfl fun _ => Value.noConfusion
    exact hb

/-- A copy down to a depth, with maps read under a ranking. -/
abbrev CopyUnder (ρ : Ranking) (content : Ref → Value) :
    Nat → Value → Value → List (Ref × Value) → Prop :=
  CopyAt (entriesUnder ρ.rank) (entriesUnder ρ.rank) content

theorem order_eq_of_copies {d : Nat} (h : CopyUnder ρ content d a b tr)
    (h' : CopyUnder ρ content d a' b' tr') (ha : WellFormed ρ a) (ha' : WellFormed ρ a')
    (hs : Separate tr tr') (hb : order ρ.rank b b' = .eq) : order ρ.rank a a' = .eq := by
  induction d generalizing a a' b b' tr tr' with
  | zero => cases h
  | succ d ih =>
    refine CopyBy.order_eq h h' ha ha' hs hb fun p hp p' hp' q q' t t' ht ht' hr hr' => ?_
    exact ih hr hr' (ha.contents p hp) (ha'.contents p' hp') (hs.mono ht ht')

end Apart

/-! ## What is decoded is a copy -/

section Decoded

variable {ρ : Ranking} {content : Ref → Value} {E : Value → Cirru → Prop} {v w : Value} {c : Cirru}

/-- Whatever a tree of the value describes, with distinct references, is a copy of it. -/
def Copied (ρ : Ranking) (E : Value → Cirru → Prop)
    (R : Value → Value → List (Ref × Value) → Prop) (v : Value) : Prop :=
  ∀ c w tr, E v c → Decodes ρ .strict c w tr → Distinct tr → R v w tr

/-- Distinct values have distinct copies, unless these share a reference. -/
def KeptApart (ρ : Ranking) (R : Value → Value → List (Ref × Value) → Prop) (v : Value) : Prop :=
  ∀ p ∈ v.contents (entriesUnder ρ.rank), ∀ p' ∈ v.contents (entriesUnder ρ.rank), ∀ q q' t t',
    R p q t → R p' q' t' → Separate t t' → order ρ.rank q q' = .eq → order ρ.rank p p' = .eq

theorem Distinct.separate {t t' : List (Ref × Value)} (h : Distinct tr)
    (ht : (t ++ t').Sublist tr) : Separate t t' := (List.pairwise_append.mp (h.sublist ht)).2.2

theorem along_copies {ps qs : List Value} {cs : List Cirru} (hE : ∀ p ∈ ps, Copied ρ E R p)
    (h : List.Forall₂ E ps cs) (hd : Along (Decodes ρ .strict) cs qs tr) (hn : Distinct tr) :
    Along R ps qs tr :=
  hd.of_forall₂ h fun p hp c q t ht hpc hcq => hE p hp c q t hpc hcq (hn.sublist ht)

theorem copied_list {l : ListNode}
    (hE : ∀ p ∈ contents (entriesUnder ρ.rank) (.list l), Copied ρ E R p) :
    Copied ρ (FormBy ρ.rank content E)
      (CopyBy (entriesUnder ρ.rank) (entriesUnder ρ.rank) content R) (.list l) := by
  intro c w tr hc hw hn
  cases hc with
  | list hc =>
    obtain ⟨k, rfl, hparts⟩ := decodes_list hw
    exact .list (along_copies hE hc hparts hn)

theorem copied_tuple {t : TupleNode}
    (hE : ∀ p ∈ contents (entriesUnder ρ.rank) (.tuple t), Copied ρ E R p) :
    Copied ρ (FormBy ρ.rank content E)
      (CopyBy (entriesUnder ρ.rank) (entriesUnder ρ.rank) content R) (.tuple t) := by
  intro c w tr hc hw hn
  cases hc with
  | tuple hc =>
    obtain ⟨u, rfl, hparts⟩ := decodes_tuple hw
    exact .tuple (along_copies hE hc hparts hn)

theorem copied_ref {r : Ref} (hE : Copied ρ E R (content r)) :
    Copied ρ (FormBy ρ.rank content E)
      (CopyBy (entriesUnder ρ.rank) (entriesUnder ρ.rank) content R) (.ref r) := by
  intro c w tr hc hw hn
  cases hc with
  | ref hc =>
    obtain ⟨q, u, t, rfl, rfl, hu⟩ := decodes_atom hw
    exact .ref (hE _ u t hc hu (hn.sublist (List.sublist_append_left _ _)))

/-- The elements of a set have distinct copies. -/
theorem distinct_elements {s : SetNode} {xs : List Value} (hs : WellFormed ρ (.set s))
    (hd : (Value.set s).Throughout (entriesUnder ρ.rank) fun p => p.isDefinite = true)
    (hR : KeptApart ρ R (.set s)) (h : Along R (sortedElements ρ.rank s) xs tr) (hn : Distinct tr) :
    xs.Pairwise fun q q' => order ρ.rank q q' ≠ .eq := by
  refine h.pairwise (pairwise_lt_sortedElements hs hd) ?_
  intro p hp p' hp' q q' t t' hq hq' ht hlt heq
  have := hR p (mem_sortedElements hp) p' (mem_sortedElements hp') q q' t t' hq hq'
    (hn.separate ht) heq
  simp [this] at hlt

theorem copied_set {s : SetNode} (hs : WellFormed ρ (.set s))
    (hd : (Value.set s).Throughout (entriesUnder ρ.rank) fun p => p.isDefinite = true)
    (hE : ∀ p ∈ contents (entriesUnder ρ.rank) (.set s), Copied ρ E R p)
    (hR : KeptApart ρ R (.set s)) :
    Copied ρ (FormBy ρ.rank content E)
      (CopyBy (entriesUnder ρ.rank) (entriesUnder ρ.rank) content R) (.set s) := by
  intro c w tr hc hw hn
  cases hc with
  | set hc =>
    obtain ⟨t, xs, rfl, hparts, hbody⟩ := decodes_set hw
    have hcopies := along_copies (fun p hp => hE p (mem_sortedElements hp)) hc hparts hn
    have hdistinct := distinct_elements hs hd hR hcopies hn
    exact .set (sortedElements_perm s) (hbody ▸ (elements_ofList hdistinct).symm) hcopies

theorem copied_entry {e f : Value × Value} {t : List (Ref × Value)} (hk : Copied ρ E R e.1)
    (hv : Copied ρ E R e.2) (h : EntryForm E e c) (hd : DecodesPair ρ .strict c f t)
    (hn : Distinct t) : CopyEntry R e f t := by
  obtain ⟨i, j, hi, hj, rfl⟩ := h
  obtain ⟨i', j', tk, tv, heq, rfl, hdi, hdj⟩ := hd
  simp only [Cirru.list.injEq, List.cons.injEq, and_true] at heq
  obtain ⟨rfl, rfl⟩ := heq
  exact ⟨tk, tv, rfl, hk i f.1 tk hi hdi (hn.sublist (List.sublist_append_left _ _)),
    hv j f.2 tv hj hdj (hn.sublist (List.sublist_append_right _ _))⟩

theorem copied_field {f g : Tag × Value} {t : List (Ref × Value)} (hv : Copied ρ E R f.2)
    (h : FieldForm E f c) (hd : DecodesField ρ .strict c g t) (hn : Distinct t) :
    CopyField R f g t := by
  obtain ⟨j, hj, rfl⟩ := h
  obtain ⟨k, j', heq, hdk, hdj⟩ := hd
  simp only [Cirru.list.injEq, List.cons.injEq, and_true] at heq
  obtain ⟨rfl, rfl⟩ := heq
  have hname : f.1 = g.1 := Option.some.inj ((tagOf?_eq_some_iff.mpr rfl).symm.trans hdk)
  exact ⟨hname, hv j g.2 t hj hdj hn⟩

theorem along_entries {es fs : List (Value × Value)} {cs : List Cirru}
    (hE : ∀ e ∈ es, Copied ρ E R e.1 ∧ Copied ρ E R e.2) (h : List.Forall₂ (EntryForm E) es cs)
    (hd : Along (DecodesPair ρ .strict) cs fs tr) (hn : Distinct tr) :
    Along (CopyEntry R) es fs tr :=
  hd.of_forall₂ h fun e he _ _ _ ht hec hcf =>
    copied_entry (hE e he).1 (hE e he).2 hec hcf (hn.sublist ht)

theorem along_fields {fs gs : List (Tag × Value)} {cs : List Cirru}
    (hE : ∀ f ∈ fs, Copied ρ E R f.2) (h : List.Forall₂ (FieldForm E) fs cs)
    (hd : Along (DecodesField ρ .strict) cs gs tr) (hn : Distinct tr) :
    Along (CopyField R) fs gs tr :=
  hd.of_forall₂ h fun f hf _ _ _ ht hfc hcg => copied_field (hE f hf) hfc hcg (hn.sublist ht)

/-- The keys of a map have distinct copies. -/
theorem distinct_keys {x : MapNode} {ps : List (Value × Value)} (hx : WellFormed ρ (.map x))
    (hd : (Value.map x).Throughout (entriesUnder ρ.rank) fun p => p.isDefinite = true)
    (hR : KeptApart ρ R (.map x)) (h : Along (CopyEntry R) (sortedEntries ρ.rank x) ps tr)
    (hn : Distinct tr) : ps.Pairwise fun e f => order ρ.rank e.1 f.1 ≠ .eq := by
  have hkeys : (sortedEntries ρ.rank x).Pairwise fun e f => order ρ.rank e.1 f.1 ≠ .eq :=
    ((sortedEntries_perm x).pairwise_iff fun h heq => h (OrientedCmp.eq_symm heq)).mpr
      (pairwise_keys hx hd)
  refine h.pairwise hkeys ?_
  rintro e he e' he' f f' _ _ ⟨tk, tv, rfl, hk, -⟩ ⟨tk', tv', rfl, hk', -⟩ ht hne heq
  refine hne (hR _ (mem_sortedEntries he).1 _ (mem_sortedEntries he').1 _ _ tk tk' hk hk' ?_ heq)
  exact (hn.separate ht).mono (List.sublist_append_left _ _) (List.sublist_append_left _ _)

theorem copied_map {x : MapNode} (hx : WellFormed ρ (.map x))
    (hd : (Value.map x).Throughout (entriesUnder ρ.rank) fun p => p.isDefinite = true)
    (hE : ∀ p ∈ contents (entriesUnder ρ.rank) (.map x), Copied ρ E R p)
    (hR : KeptApart ρ R (.map x)) :
    Copied ρ (FormBy ρ.rank content E)
      (CopyBy (entriesUnder ρ.rank) (entriesUnder ρ.rank) content R) (.map x) := by
  intro c w tr hc hw hn
  cases hc with
  | map hc =>
    obtain ⟨m, ps, rfl, hparts, hbody⟩ := decodes_map hw
    have hcopies := along_entries (fun e he =>
      ⟨hE _ (mem_sortedEntries he).1, hE _ (mem_sortedEntries he).2⟩) hc hparts hn
    have hdistinct := distinct_keys hx hd hR hcopies hn
    exact .map (sortedEntries_perm x) (entriesUnder_ofPairs hbody hdistinct).symm hcopies

theorem copied_record {r : RecordNode}
    (hE : ∀ p ∈ contents (entriesUnder ρ.rank) (.record r), Copied ρ E R p) :
    Copied ρ (FormBy ρ.rank content E)
      (CopyBy (entriesUnder ρ.rank) (entriesUnder ρ.rank) content R) (.record r) := by
  intro c w tr hc hw hn
  cases hc with
  | record hc =>
    obtain ⟨q, t, gs, rfl, ht, hparts, hbody⟩ := decodes_record hw
    obtain rfl : r.body.name = t := Option.some.inj ((tagOf?_eq_some_iff.mpr rfl).symm.trans ht)
    have hfields := Record.fields_ofPairs hbody
    have hname : q.body.name = r.body.name := by rw [hfields]
    have hperm : q.body.fields.Perm gs := by
      rw [hfields]
      exact Record.sortBy_perm gs
    exact .record hname.symm (sortedFields_perm r) hperm.symm
      (along_fields (fun f hf => hE _ (mem_sortedFields hf)) hc hparts hn)

/-- What is decoded is a copy if it is so of the contents. -/
theorem copied_formBy (hv : WellFormed ρ v)
    (hd : v.Throughout (entriesUnder ρ.rank) fun p => p.isDefinite = true)
    (hE : ∀ p ∈ v.contents (entriesUnder ρ.rank), Copied ρ E R p)
    (hr : ∀ r, Copied ρ E R (content r)) (hR : KeptApart ρ R v) :
    Copied ρ (FormBy ρ.rank content E)
      (CopyBy (entriesUnder ρ.rank) (entriesUnder ρ.rank) content R) v := by
  cases v with
  | list l => exact copied_list hE
  | map x => exact copied_map hv hd hE hR
  | set s => exact copied_set hv hd hE hR
  | record r => exact copied_record hE
  | tuple t => exact copied_tuple hE
  | ref r => exact copied_ref (hr r)
  | recur r =>
    intro c w tr hc
    cases hc
  | _ =>
    intro c w tr hc hw hn
    have he := hc.encodable fun _ => Value.noConfusion
    have hscalar : w = _ ∧ tr = [] ∧ FormBy ρ.rank content E _ c := hc.scalar rfl he hw
    obtain ⟨rfl, rfl, -⟩ := hscalar
    exact .scalar rfl he

theorem keptApart_copies {d : Nat} (hv : WellFormed ρ v) : KeptApart ρ (CopyUnder ρ content d) v :=
  fun p hp p' hp' _ _ _ _ hq hq' hs =>
    order_eq_of_copies hq hq' (hv.contents p hp) (hv.contents p' hp') hs

theorem copyAt_of_formAt {text : Value → OptionT Id String} {d : Nat}
    (hc : ∀ r, WellFormed ρ (content r)) (hv : WellFormed ρ v) :
    Copied ρ (fun p i => formAt ρ.rank content text d p = .ok i) (CopyUnder ρ content d) v := by
  induction d generalizing v with
  | zero =>
    intro c w tr h
    cases h
  | succ d ih =>
    intro c w tr h hw hn
    exact copied_formBy hv (definite_of_formAt h) (fun p hp => ih (hv.contents p hp))
      (fun r => ih (hc r)) (keptApart_copies hv) c w tr (formAt_succ_iff.mp h) hw hn

end Decoded

end Copies

end DynVal.Wire
