import DynVal.Proofs.Relations.Ranks
import DynVal.Proofs.Wire.Forms

/-!
# Values with one encoded form

The order tells neither the two zeros apart nor references to different cells at one path, and the
encoded form shows both. Where these do not occur (`Wire.Plain`), values that the order does not
tell apart have one encoded form (`Wire.formAt_congr`): the entries of maps, the elements of sets
and the fields of records stand in strictly increasing order, so they correspond one by one.
-/

namespace DynVal.Wire

open Std Value

section Strict

variable {ρ : Ranking}

/-- No two keys of a map are equal under the order. -/
theorem pairwise_keys {x : MapNode} (hx : WellFormed ρ (.map x))
    (hd : (Value.map x).Throughout (entriesUnder ρ.rank) fun p => p.isDefinite = true) :
    (entriesUnder ρ.rank x).Pairwise fun e f => order ρ.rank e.1 f.1 ≠ .eq := by
  have hP := lawful_wellFormed ρ
  obtain ⟨hholds, hwf⟩ := holds_entriesUnder hP hx.here (Map.all_iff.mpr hx.parts)
  refine List.Pairwise.imp_of_mem (fun {e f} he hf hne heq => ?_) (hholds.distinct hP)
  have hkey {e : Value × Value} (he : e ∈ entriesUnder ρ.rank x) :
      e.1.Throughout (entriesUnder ρ.rank) fun p => p.isDefinite = true :=
    hd.contents e.1 (List.mem_flatMap.mpr ⟨e, he, by simp⟩)
  have hequal := equal_of_order_eq (hwf e he).1 (hwf f hf).1 (hkey he) (hkey hf) heq
  have hagree : Agree ρ (WellFormed ρ) e.1 f.1 :=
    (agree_iff_equal (hwf e he).1 (hwf f hf).1).mpr hequal
  exact Bool.false_ne_true (hne.symm.trans hagree)

/-- No two elements of a set are equal under the order. -/
theorem pairwise_elements {s : SetNode} (hs : WellFormed ρ (.set s))
    (hd : (Value.set s).Throughout (entriesUnder ρ.rank) fun p => p.isDefinite = true) :
    s.body.elements.Pairwise fun p q => order ρ.rank p q ≠ .eq := by
  have hdistinct : s.body.elements.Pairwise fun p q => equal ρ.rank p q = false :=
    List.pairwise_map.mpr (Storage.Lawful.distinct hs.here)
  refine List.Pairwise.imp_of_mem (fun {p q} hp hq hne heq => ?_) hdistinct
  rw [equal_of_order_eq (hs.parts p hp) (hs.parts q hq) (hd.contents p hp) (hd.contents q hq) heq]
    at hne
  cases hne

theorem pairwise_lt_sortedEntries {x : MapNode} (hx : WellFormed ρ (.map x))
    (hd : (Value.map x).Throughout (entriesUnder ρ.rank) fun p => p.isDefinite = true) :
    (sortedEntries ρ.rank x).Pairwise fun e f => entryOrder (order ρ.rank) e f = .lt :=
  pairwise_lt_sorted .eight ((pairwise_keys hx hd).imp fun h heq =>
    h (Ordering.then_eq_eq.mp heq).2)

theorem pairwise_lt_sortedElements {s : SetNode} (hs : WellFormed ρ (.set s))
    (hd : (Value.set s).Throughout (entriesUnder ρ.rank) fun p => p.isDefinite = true) :
    (sortedElements ρ.rank s).Pairwise fun p q => order ρ.rank p q = .lt :=
  pairwise_lt_sorted .eight (pairwise_elements hs hd)

theorem pairwise_lt_sortedFields {r : RecordNode} (hr : r.body.Ordered) :
    (sortedFields r).Pairwise fun f g => compareFields f g = .lt := by
  rw [sortedFields, sortBy_eq_sorted]
  refine pairwise_lt_sorted .four ((List.pairwise_map.mp hr).imp fun h heq => ?_)
  rw [(Ordering.then_eq_eq.mp heq).2] at h
  cases h

end Strict

/-! ## What the order does not tell apart -/

/-- A number is told from others by its place, and a reference by its path: all zeros are `zero`,
and all references at a path lead to one cell. -/
def Plain (zero : Number) (cellOf : String → Nat) : Value → Prop
  | .number n => n.isZero = true → n = zero
  | .ref r => r.cell = cellOf r.path
  | _ => True

theorem forall₂_transfer {α β γ : Type} {S : α → β → Prop} {E : α → γ → Prop} {E' : β → γ → Prop}
    {xs : List α} {ys : List β} {cs : List γ} (h : List.Forall₂ S xs ys)
    (hE : List.Forall₂ E xs cs) (ht : ∀ x ∈ xs, ∀ y ∈ ys, S x y → ∀ c, E x c → E' y c) :
    List.Forall₂ E' ys cs := by
  induction h generalizing cs with
  | nil =>
    cases hE
    exact .nil
  | cons hxy _ ih =>
    cases hE with
    | cons hx hxs =>
      refine .cons (ht _ (by simp) _ (by simp) hxy _ hx) (ih hxs fun x hx y hy => ?_)
      exact ht x (List.mem_cons_of_mem _ hx) y (List.mem_cons_of_mem _ hy)

/-- Of one name, with values that are related. -/
def MatchField (R : Value → Value → Prop) (f g : Tag × Value) : Prop := f.1 = g.1 ∧ R f.2 g.2

theorem forall₂_fields {R : Value → Value → Prop} {fs gs : List (Tag × Value)}
    (hn : fs.map Prod.fst = gs.map Prod.fst)
    (hv : List.Forall₂ R (fs.map Prod.snd) (gs.map Prod.snd)) :
    List.Forall₂ (MatchField R) fs gs := by
  induction fs generalizing gs with
  | nil =>
    cases gs with
    | nil => exact .nil
    | cons g gs => cases hn
  | cons f fs ih =>
    cases gs with
    | nil => cases hn
    | cons g gs =>
      obtain ⟨hf, hfs⟩ := List.cons.inj hn
      cases hv with
      | cons hfg hrest => exact .cons ⟨hf, hfg⟩ (ih hfs hrest)

section Congr

variable {ρ : Ranking} {content : Ref → Value} {text : Value → OptionT Id String} {zero : Number}
  {cellOf : String → Nat} {a b : Value} {c : Cirru} {d : Nat}

theorem literalFirst_of_kind {p q p' q' : Value} (hp : p.kind = p'.kind) (hq : q.kind = q'.kind) :
    literalFirst p q = literalFirst p' q' := by
  have hliteral {p q : Value} (hk : p.kind = q.kind) : p.isLiteral = q.isLiteral := by
    cases p <;> cases q <;> first | (cases hk; done) | rfl
  rw [literalFirst, literalFirst, hliteral hp, hliteral hq]

theorem literalFirst_eq {p q p' q' : Value} (hp : order ρ.rank p p' = .eq)
    (hq : order ρ.rank q q' = .eq) : literalFirst p q = literalFirst p' q' := by
  rw [order_def] at hp hq
  exact literalFirst_of_kind (kind_eq_of_compareBy_eq hp) (kind_eq_of_compareBy_eq hq)

/-- Entries that match are equal under the order in which entries are encoded. -/
theorem entryOrder_eq {e f : Value × Value}
    (h : MatchEntry (fun p q => order ρ.rank p q = .eq) e f) :
    entryOrder (order ρ.rank) e f = .eq := by
  rw [entryOrder, Ordering.then_eq_eq, literalFirst_eq h.2 (q := f.2) ReflCmp.compare_self]
  exact ⟨ReflCmp.compare_self, h.1⟩

theorem compareFields_eq {f g : Tag × Value}
    (h : MatchField (fun p q => order ρ.rank p q = .eq) f g) : compareFields f g = .eq := by
  rw [compareFields, Ordering.then_eq_eq, literalFirst_eq h.2 (q := g.2) ReflCmp.compare_self, h.1]
  exact ⟨ReflCmp.compare_self, ReflCmp.compare_self⟩

/-- Maps that match have matching entries in the order in which they are encoded. -/
theorem forall₂_sortedEntries {x y : MapNode}
    (hm : Matches ρ (fun p q => order ρ.rank p q = .eq) (.map x) (.map y))
    (hx : WellFormed ρ (.map x)) (hy : WellFormed ρ (.map y))
    (hdx : Value.Throughout (entriesUnder ρ.rank) (fun p => p.isDefinite = true) (.map x))
    (hdy : Value.Throughout (entriesUnder ρ.rank) (fun p => p.isDefinite = true) (.map y)) :
    List.Forall₂ (MatchEntry fun p q => order ρ.rank p q = .eq) (sortedEntries ρ.rank x)
      (sortedEntries ρ.rank y) := by
  refine forall₂_of_rel (fun _ _ _ _ => entryOrder_eq) (pairwise_lt_sortedEntries hx hdx)
    (pairwise_lt_sortedEntries hy hdy) ?_
  rw [Multiset.coe_eq_coe.mpr (sortedEntries_perm x),
    Multiset.coe_eq_coe.mpr (sortedEntries_perm y)]
  exact hm

theorem forall₂_sortedFields {x y : RecordNode}
    (hm : Matches ρ (fun p q => order ρ.rank p q = .eq) (.record x) (.record y))
    (hx : WellFormed ρ (.record x)) (hy : WellFormed ρ (.record y)) :
    List.Forall₂ (MatchField fun p q => order ρ.rank p q = .eq) (sortedFields x)
      (sortedFields y) := by
  refine forall₂_of_rel (fun _ _ _ _ => compareFields_eq) (pairwise_lt_sortedFields hx.here)
    (pairwise_lt_sortedFields hy.here) ?_
  rw [Multiset.coe_eq_coe.mpr (sortedFields_perm x), Multiset.coe_eq_coe.mpr (sortedFields_perm y)]
  exact rel_of_forall₂ (forall₂_fields hm.2.1 hm.2.2)

/-- Of two values that match, one has the tree that the other has if their contents do. -/
theorem FormBy.congr {E : Value → Cirru → Prop} (h : FormBy ρ.rank content E a c)
    (hm : Matches ρ (fun p q => order ρ.rank p q = .eq) a b)
    (ha : WellFormed ρ a) (hb : WellFormed ρ b)
    (hda : a.Throughout (entriesUnder ρ.rank) fun p => p.isDefinite = true)
    (hdb : b.Throughout (entriesUnder ρ.rank) fun p => p.isDefinite = true)
    (hpa : Plain zero cellOf a) (hpb : Plain zero cellOf b)
    (hE : ∀ p ∈ a.contents (entriesUnder ρ.rank), ∀ q ∈ b.contents (entriesUnder ρ.rank),
      order ρ.rank p q = .eq → ∀ i, E p i → E q i) :
    FormBy ρ.rank content E b c := by
  have hk := hm.kind_eq
  cases h <;> cases b <;> first | (cases hk; done) | skip
  case nil.nil => exact .nil
  case bool.bool x y =>
    obtain rfl : x = y := hm
    exact .bool x
  case number.number x h y =>
    obtain rfl : x = y := by
      rcases Number.place_eq_iff.mp (Number.same_iff.mp hm).2 with rfl | ⟨hx, hy⟩
      · rfl
      · exact (hpa hx).trans (hpb hy).symm
    exact .number h
  case str.str x y =>
    obtain rfl : x = y := hm
    exact .str x
  case tag.tag x y =>
    obtain rfl : x = y := hm
    exact .tag x
  case symbol.symbol x y =>
    obtain rfl : x = y := hm
    exact .symbol x
  case quote.quote x y =>
    obtain rfl : x = y := hm
    exact .quote x
  case ref.ref x i h y =>
    have hpath : x.path = y.path := hm
    obtain rfl : x = y := by
      cases x
      cases y
      simp only [Plain] at hpa hpb hpath
      rw [hpa, hpb, hpath]
    exact .ref h
  case list.list x cs h y => exact .list (forall₂_transfer hm h hE)
  case tuple.tuple x cs h y => exact .tuple (forall₂_transfer hm h hE)
  case set.set x cs h y =>
    have hsorted := compareLex_eq_iff.mp ((compareLex_sorted_eq_iff .eight).mpr hm)
    refine .set (forall₂_transfer hsorted h fun p hp q hq => ?_)
    exact hE p (mem_sortedElements hp) q (mem_sortedElements hq)
  case map.map x cs h y =>
    refine .map (forall₂_transfer (forall₂_sortedEntries hm ha hb hda hdb) h
      fun e he f hf hef i => ?_)
    rintro ⟨k, v, hk, hv, rfl⟩
    exact ⟨k, v, hE _ (mem_sortedEntries he).1 _ (mem_sortedEntries hf).1 hef.1 k hk,
      hE _ (mem_sortedEntries he).2 _ (mem_sortedEntries hf).2 hef.2 v hv, rfl⟩
  case record.record x cs h y =>
    rw [hm.1]
    refine .record (forall₂_transfer (forall₂_sortedFields hm ha hb) h fun f hf g hg hfg i => ?_)
    rintro ⟨v, hv, rfl⟩
    rw [hfg.1]
    exact ⟨v, hE _ (mem_sortedFields hf) _ (mem_sortedFields hg) hfg.2 v hv, rfl⟩

/-- Values that the order does not tell apart have one form down to a depth. -/
theorem formAt_congr (h : formAt ρ.rank content text d a = .ok c) (hab : order ρ.rank a b = .eq)
    (ha : WellFormed ρ a) (hb : WellFormed ρ b)
    (hdb : b.Throughout (entriesUnder ρ.rank) fun p => p.isDefinite = true)
    (hpa : a.Throughout (entriesUnder ρ.rank) (Plain zero cellOf))
    (hpb : b.Throughout (entriesUnder ρ.rank) (Plain zero cellOf)) :
    formAt ρ.rank content text d b = .ok c := by
  induction d generalizing a b c with
  | zero => cases h
  | succ d ih =>
    have hda := definite_of_formAt h
    refine formAt_succ_iff.mpr ((formAt_succ_iff.mp h).congr
      (matches_of_order_eq hda.here hdb.here hab) ha hb hda hdb hpa.here hpb.here ?_)
    intro p hp q hq hpq i hi
    exact ih hi hpq (ha.contents p hp) (hb.contents q hq) (hdb.contents q hq)
      (hpa.contents p hp) (hpb.contents q hq)

end Congr

/-! ## Under different identity numbers -/

section Rank

variable {ρ ρ' : Ranking} {content : Ref → Value} {text text' : Value → OptionT Id String}
  {v : Value}
  {c : Cirru} {d : Nat}

/-- What is shown does not depend on the ranking. -/
theorem throughout_rank {P : Value → Prop} (hv : WellFormed ρ v) (hv' : WellFormed ρ' v)
    (h : v.Throughout (entriesUnder ρ.rank) P) : v.Throughout (entriesUnder ρ'.rank) P := by
  have hcontents (v : Value) (hv : WellFormed ρ v ∧ WellFormed ρ' v) (p : Value)
      (hp : p ∈ v.contents (entriesUnder ρ.rank)) : WellFormed ρ p ∧ WellFormed ρ' p :=
    ⟨hv.1.contents p hp, hv.2.parts p (contents_subset_parts hp)⟩
  exact h.congr hcontents (fun x hx => entriesUnder_perm hx.1 hx.2) ⟨hv, hv'⟩

/-- Functions have no encoded form, and nothing else depends on their numbers. -/
theorem sameRank_of_formAt (hv : WellFormed ρ v) (hv' : WellFormed ρ' v)
    (h : formAt ρ.rank content text d v = .ok c) :
    v.Throughout (entriesUnder ρ'.rank) (SameRank ρ ρ') := by
  refine throughout_rank hv hv' (throughout_of_formAt (fun E v c hform f hf => ?_) h)
  subst hf
  cases hform

theorem sortedElements_rank {s : SetNode} (hs : WellFormed ρ (.set s))
    (hs' : WellFormed ρ' (.set s)) (h : formAt ρ.rank content text d (.set s) = .ok c) :
    sortedElements ρ'.rank s = sortedElements ρ.rank s := by
  have hr := sameRank_of_formAt hs hs' h
  refine sorted_eq_of_perm .eight (sortedElements_perm s).symm ?_
  refine List.Pairwise.imp_of_mem (fun {p q} hp hq hlt => ?_)
    (pairwise_lt_sortedElements hs (definite_of_formAt h))
  have hp := (sortedElements_perm s).mem_iff.mp hp
  have hq := (sortedElements_perm s).mem_iff.mp hq
  rw [← order_congr (hs.parts p hp) (hs'.parts p hp) (hs.parts q hq) (hs'.parts q hq)
    (hr.contents p hp) (hr.contents q hq)]
  exact hlt

theorem sortedEntries_rank {x : MapNode} (hx : WellFormed ρ (.map x)) (hx' : WellFormed ρ' (.map x))
    (h : formAt ρ.rank content text d (.map x) = .ok c) :
    sortedEntries ρ'.rank x = sortedEntries ρ.rank x := by
  have hr := sameRank_of_formAt hx hx' h
  have hperm : (entriesUnder ρ'.rank x).Perm (sortedEntries ρ.rank x) :=
    (entriesUnder_perm hx' hx).trans (sortedEntries_perm x).symm
  refine sorted_eq_of_perm .eight hperm ?_
  refine List.Pairwise.imp_of_mem (fun {e f} he hf hlt => ?_)
    (pairwise_lt_sortedEntries hx (definite_of_formAt h))
  have hkey {e : Value × Value} (he : e ∈ sortedEntries ρ.rank x) :
      e.1 ∈ contents (entriesUnder ρ'.rank) (.map x) :=
    List.mem_flatMap.mpr ⟨e, hperm.mem_iff.mpr he, by simp⟩
  have hwf {e : Value × Value} (he : e ∈ sortedEntries ρ.rank x) :
      WellFormed ρ e.1 ∧ WellFormed ρ' e.1 :=
    ⟨hx.contents _ (mem_sortedEntries he).1, hx'.contents _ (hkey he)⟩
  rw [entryOrder, ← order_congr (hwf he).1 (hwf he).2 (hwf hf).1 (hwf hf).2
    (hr.contents _ (hkey he)) (hr.contents _ (hkey hf))]
  exact hlt

/-- Neither do encoded forms depend on it. -/
theorem formAt_rank (hc : ∀ r, WellFormed ρ (content r)) (hc' : ∀ r, WellFormed ρ' (content r))
    (hv : WellFormed ρ v) (hv' : WellFormed ρ' v)
    (h : formAt ρ.rank content text d v = .ok c) :
    formAt ρ'.rank content text' d v = .ok c := by
  induction d generalizing v c with
  | zero => cases h
  | succ d ih =>
    have hform : FormBy ρ.rank content
        (fun p i => formAt ρ'.rank content text' d p = .ok i) v c := by
      refine (formAt_succ_iff.mp h).mono (fun p hp i => ?_) fun r i => ih (hc r) (hc' r)
      exact ih (hv.contents p hp) (hv'.parts p (contents_subset_parts hp))
    refine formAt_succ_iff.mpr ?_
    cases hform with
    | number hn => exact .number hn
    | ref hr => exact .ref hr
    | list hl => exact .list hl
    | tuple ht => exact .tuple ht
    | record hr => exact .record hr
    | set hs =>
      rw [← sortedElements_rank hv hv' h] at hs
      exact .set hs
    | map hm =>
      rw [← sortedEntries_rank hv hv' h] at hm
      exact .map hm
    | _ => constructor

end Rank

end DynVal.Wire
