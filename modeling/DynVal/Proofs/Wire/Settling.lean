import DynVal.Proofs.Wire.Carrying
import DynVal.Proofs.Wire.Outcomes
import DynVal.Proofs.Wire.Steady

/-!
# Encoding copies

What is decoded from the tree of a value is a copy with references at paths that are counted. It has
the tree itself, up to the order of elements and entries, which are where they were if the tree is
steady. Elements of a set are sorted anew, and so are entries of a map. They are found in order
where the numbers drawn for one precede those drawn for the next, as then what was below another
value is copied to what is below the copy of this (`Wire.Described.carried`).

* `Wire.exists_rearranged`: the tree of what was decoded, down to any depth.
-/

namespace DynVal.Wire

open Std Value

/-! ## References at counted paths -/

section Placed

variable {content : Ref → Value} {n m : Nat} {tr tr' : List (Ref × Value)}

/-- References at the paths that are counted from `n` on, to cells with their contents. -/
def Placed (content : Ref → Value) (n : Nat) (tr : List (Ref × Value)) : Prop :=
  ∀ i p, tr[i]? = some p → p.1.path = countedPath (n + i) ∧ content p.1 = p.2

theorem Placed.append (h : Placed content n (tr ++ tr')) :
    Placed content n tr ∧ Placed content (n + tr.length) tr' := by
  constructor
  · intro i p hi
    refine h i p ?_
    rw [List.getElem?_append_left (List.getElem?_eq_some_iff.mp hi).1, hi]
  · intro i p hi
    rw [Nat.add_assoc]
    refine h (tr.length + i) p ?_
    rw [List.getElem?_append_right (Nat.le_add_right _ _), Nat.add_sub_cancel_left, hi]

theorem Placed.distinct (h : Placed content n tr) : Distinct tr := by
  refine List.pairwise_iff_getElem.mpr fun i j hi hj hlt heq => ?_
  rw [(h i _ (List.getElem?_eq_getElem hi)).1, (h j _ (List.getElem?_eq_getElem hj)).1] at heq
  have := countedPath_injective heq
  omega

/-- References stand before others where their numbers precede those of the others. -/
theorem Placed.before (h : Placed content n tr) (h' : Placed content m tr')
    (hp : Precede (List.range' n tr.length) (List.range' m tr'.length)) : Before tr tr' := by
  have hnumber {n : Nat} {tr : List (Ref × Value)} (h : Placed content n tr) {p : Ref × Value}
      (hp : p ∈ tr) : ∃ i ∈ List.range' n tr.length, p.1.path = countedPath i := by
    obtain ⟨i, hi, rfl⟩ := List.getElem_of_mem hp
    exact ⟨n + i, List.mem_range'_1.mpr (by omega), (h i _ (List.getElem?_eq_getElem hi)).1⟩
  intro p hpm q hqm
  obtain ⟨i, hi, hpi⟩ := hnumber h hpm
  obtain ⟨j, hj, hqj⟩ := hnumber h' hqm
  rw [hpi, hqj]
  exact hp i hi j hj

end Placed

/-! ## Children -/

section Children

variable {α β : Type} {content : Ref → Value} {E : α → Cirru → Prop} {E' : β → Cirru → Prop}
  {D : Cirru → β → List (Ref × Value) → Prop} {as : List α} {bs : List β} {cs : List Cirru}
  {n : Nat} {tr : List (Ref × Value)}

/-- A tree of the first describes the second, with references at the paths counted from `n` on. -/
structure Described (content : Ref → Value) (E : α → Cirru → Prop)
    (D : Cirru → β → List (Ref × Value) → Prop) (a : α) (b : β) (c : Cirru)
    (tr : List (Ref × Value)) (n : Nat) : Prop where
  form : E a c
  decodes : D c b tr
  placed : Placed content n tr

/-- A tree that is the first up to rearrangement, and altogether if the first is steady. -/
def Settled (E' : β → Cirru → Prop) (c : Cirru) (b : β) (n : Nat) : Prop :=
  ∃ d, E' b d ∧ Rearranged c d ∧ (Steady c n → d = c)

/-- Children have such trees where each has one. -/
theorem exists_children (hE : List.Forall₂ E as cs) (hD : Along D cs bs tr)
    (hn : Placed content n tr) (hlen : ∀ c b t, D c b t → t.length = atoms c)
    (h : ∀ a ∈ as, ∀ b ∈ bs, ∀ c t n, Described content E D a b c t n → Settled E' c b n) :
    ∃ ds, List.Forall₂ E' bs ds ∧ List.Forall₂ Rearranged cs ds ∧ (SteadyAll cs n → ds = cs) := by
  induction hD generalizing as n with
  | nil => exact ⟨[], .nil, .nil, fun _ => rfl⟩
  | @cons c b cs bs t ts hD _ ih =>
    cases hE with
    | cons he hes =>
      obtain ⟨ht, hts⟩ := hn.append
      rw [hlen c b t hD] at hts
      obtain ⟨d, hd, hcd, hsame⟩ :=
        h _ List.mem_cons_self b List.mem_cons_self c t n ⟨he, hD, ht⟩
      obtain ⟨ds, hds, hcds, hsames⟩ := ih hes hts fun a ha b hb =>
        h a (List.mem_cons_of_mem _ ha) b (List.mem_cons_of_mem _ hb)
      refine ⟨d :: ds, .cons hd hds, .cons hcd hcds, fun hs => ?_⟩
      rw [SteadyAll] at hs
      rw [hsame hs.1, hsames hs.2]

/-- Children with the numbers that are drawn in a part of each. -/
theorem along_drawn (part : Cirru → Cirru) (hE : List.Forall₂ E as cs) (hD : Along D cs bs tr)
    (hn : Placed content n tr) (hlen : ∀ c b t, D c b t → t.length = atoms c) :
    Along (fun x b t => ∃ c m, Described content E D x.1 b c t m ∧
      x.2 = List.range' m (atoms (part c))) (as.zip (drawn part n cs)) bs tr := by
  induction hD generalizing as n with
  | nil =>
    cases hE
    exact .nil
  | @cons c b cs bs t ts hD _ ih =>
    cases hE with
    | cons he hes =>
      obtain ⟨ht, hts⟩ := hn.append
      rw [hlen c b t hD] at hts
      exact .cons ⟨c, n, ⟨he, hD, ht⟩, rfl⟩ (ih hes hts)

/-- What holds between the firsts and the seconds holds between pairs of them. -/
theorem pairwise_zip {γ : Type} {cs : List γ} {P : α → α → Prop} {Q : γ → γ → Prop}
    (ha : as.Pairwise P) (hc : cs.Pairwise Q) :
    (as.zip cs).Pairwise fun x y => P x.1 y.1 ∧ Q x.2 y.2 := by
  induction as generalizing cs with
  | nil => exact .nil
  | cons a as ih =>
    cases cs with
    | nil => exact .nil
    | cons c cs =>
      obtain ⟨ha, has⟩ := List.pairwise_cons.mp ha
      obtain ⟨hc, hcs⟩ := List.pairwise_cons.mp hc
      refine .cons (fun x hx => ?_) (ih has hcs)
      obtain ⟨hx₁, hx₂⟩ := List.of_mem_zip hx
      exact ⟨ha _ hx₁, hc _ hx₂⟩

/-- What holds between any two elements holds between what their trees describe, if it is so where
the numbers that are drawn in a part of one tree precede those of the other. -/
theorem pairwise_described (part : Cirru → Cirru) {P : α → α → Prop} {Q : β → β → Prop}
    (hE : List.Forall₂ E as cs) (hD : Along D cs bs tr) (hn : Placed content n tr)
    (hlen : ∀ c b t, D c b t → t.length = atoms c) (ha : as.Pairwise P)
    (hd : (drawn part n cs).Pairwise Precede)
    (h : ∀ a ∈ as, ∀ a' ∈ as, ∀ b ∈ bs, ∀ b' ∈ bs, ∀ c c' t t' m m',
      Described content E D a b c t m → Described content E D a' b' c' t' m' →
      Precede (List.range' m (atoms (part c))) (List.range' m' (atoms (part c'))) → P a a' →
        Q b b') : bs.Pairwise Q := by
  have halong := (along_drawn part hE hD hn hlen).mono fun _ _ b hb _ _ h => And.intro hb h
  refine halong.pairwise (pairwise_zip ha hd) ?_
  rintro ⟨a, _⟩ hx ⟨a', _⟩ hx' b b' t t' ⟨hb, c, m, hdescribed, rfl⟩ ⟨hb', c', m', hdescribed', rfl⟩
    - ⟨hP, hprecede⟩
  exact h a (List.of_mem_zip hx).1 a' (List.of_mem_zip hx').1 b hb b' hb' c c' t t' m m' hdescribed
    hdescribed' hprecede hP

/-- What was sorted is sorted again, and if it stands in order already then nothing is moved. -/
theorem exists_moved (cmp : β → β → Ordering) [TransCmp cmp] {bs' : List β}
    (h : List.Forall₂ E' bs cs) (hp : bs'.Perm bs) :
    ∃ ds, List.Forall₂ E' (sorted .eight cmp bs') ds ∧ cs.Perm ds ∧
      (bs.Pairwise (fun x y => cmp x y = .lt) → ds = cs) := by
  by_cases hlt : bs.Pairwise fun x y => cmp x y = .lt
  · exact ⟨cs, sorted_eq_of_perm .eight hp hlt ▸ h, .refl cs, fun _ => rfl⟩
  · have hsorted : (sorted .eight cmp bs').Perm bs := (sorted_perm .eight bs').trans hp
    obtain ⟨ds, hds, hperm⟩ := List.perm_comp_forall₂ hsorted h
    exact ⟨ds, hds, hperm.symm, fun h => absurd h hlt⟩

end Children

/-! ## Entries and fields -/

section Described

variable {ρ : Ranking} {content : Ref → Value} {E : Value → Cirru → Prop} {c : Cirru} {n : Nat}
  {t : List (Ref × Value)}

theorem Described.entry {e f : Value × Value}
    (h : Described content (EntryForm E) (DecodesPair ρ .strict) e f c t n) :
    ∃ i j tk tv, c = .list [i, j] ∧ Described content E (Decodes ρ .strict) e.1 f.1 i tk n ∧
      Described content E (Decodes ρ .strict) e.2 f.2 j tv (n + atoms i) := by
  obtain ⟨⟨i, j, hi, hj, rfl⟩, ⟨i', j', tk, tv, heq, rfl, hdi, hdj⟩, hn⟩ := h
  simp only [Cirru.list.injEq, List.cons.injEq, and_true] at heq
  obtain ⟨rfl, rfl⟩ := heq
  obtain ⟨hnk, hnv⟩ := hn.append
  rw [hdi.length_eq] at hnv
  exact ⟨i, j, tk, tv, rfl, ⟨hi, hdi, hnk⟩, ⟨hj, hdj, hnv⟩⟩

theorem Described.field {f g : Tag × Value}
    (h : Described content (FieldForm E) (DecodesField ρ .strict) f g c t n) :
    f.1 = g.1 ∧ ∃ j, c = .list [leaf f.1.text, j] ∧
      Described content E (Decodes ρ .strict) f.2 g.2 j t n := by
  obtain ⟨⟨j, hj, rfl⟩, ⟨k, j', heq, hdk, hdj⟩, hn⟩ := h
  simp only [Cirru.list.injEq, List.cons.injEq, and_true] at heq
  obtain ⟨rfl, rfl⟩ := heq
  exact ⟨Option.some.inj ((tagOf?_eq_some_iff.mpr rfl).symm.trans hdk), j, rfl, hj, hdj, hn⟩

end Described

/-! ## How copies are ordered -/

section Copies

variable {ρ : Ranking} {content content' : Ref → Value} {text : Value → OptionT Id String} {d : Nat}

/-- The trees of values down to a depth. -/
abbrev Forms (ρ : Ranking) (content : Ref → Value) (text : Value → OptionT Id String) (d : Nat) :
    Value → Cirru → Prop := fun p i => formAt ρ.rank content text d p = .ok i

variable {v v' w w' : Value} {c c' : Cirru} {t t' : List (Ref × Value)} {n n' : Nat}

theorem Described.copy (hc : ∀ r, WellFormed ρ (content r)) (hv : WellFormed ρ v)
    (h : Described content' (Forms ρ content text d) (Decodes ρ .strict) v w c t n) :
    CopyUnder ρ content d v w t :=
  copyAt_of_formAt hc hv c w t h.form h.decodes h.placed.distinct

theorem Described.carried (hc : ∀ r, WellFormed ρ (content r))
    (h : Described content' (Forms ρ content text d) (Decodes ρ .strict) v w c t n)
    (h' : Described content' (Forms ρ content text d) (Decodes ρ .strict) v' w' c' t' n')
    (hv : Regular ρ v) (hv' : Regular ρ v') (hw : Regular ρ w) (hw' : Regular ρ w')
    (hp : Precede (List.range' n (atoms c)) (List.range' n' (atoms c'))) :
    Carried (order ρ.rank v v') (order ρ.rank w w') := by
  have hbefore : Before t t' := h.placed.before h'.placed
    (by rw [h.decodes.length_eq, h'.decodes.length_eq]; exact hp)
  exact carried_copies (h.copy hc hv.wellFormed) (h'.copy hc hv'.wellFormed) hv hv' hw hw' hbefore

/-- The copies of the elements of a set stand in order if their numbers precede one another. -/
theorem ascending_elements {s : SetNode} {xs : List Value} {cs : List Cirru}
    {tr : List (Ref × Value)} (hc : ∀ r, WellFormed ρ (content r)) (hs : Regular ρ (.set s))
    (hform : List.Forall₂ (Forms ρ content text d) (sortedElements ρ.rank s) cs)
    (hparts : Along (Decodes ρ .strict) cs xs tr) (hn : Placed content' n tr)
    (hxs : ∀ x ∈ xs, Regular ρ x) (hd : (drawn id n cs).Pairwise Precede) :
    xs.Pairwise fun p q => order ρ.rank p q = .lt := by
  have hlt := pairwise_lt_sortedElements hs.wellFormed hs.definite
  refine pairwise_described id hform hparts hn (fun _ _ _ h => h.length_eq) hlt hd ?_
  intro p hp p' hp' q hq q' hq' c c' t t' m m' h h' hprecede hlt
  have hcarried := h.carried hc h' (hs.contents p (mem_sortedElements hp))
    (hs.contents p' (mem_sortedElements hp')) (hxs q hq) (hxs q' hq') hprecede
  exact hcarried.lt_of_lt hlt

/-- The copies of the entries of a map stand in order if the numbers in their keys precede one
another. -/
theorem ascending_entries {x : MapNode} {ps : List (Value × Value)} {cs : List Cirru}
    {tr : List (Ref × Value)} (hc : ∀ r, WellFormed ρ (content r)) (hx : Regular ρ (.map x))
    (hform : List.Forall₂ (EntryForm (Forms ρ content text d)) (sortedEntries ρ.rank x) cs)
    (hparts : Along (DecodesPair ρ .strict) cs ps tr) (hn : Placed content' n tr)
    (hps : ∀ f ∈ ps, Regular ρ f.1 ∧ Regular ρ f.2) (hd : (drawn keyOf n cs).Pairwise Precede) :
    ps.Pairwise fun e f => entryOrder (order ρ.rank) e f = .lt := by
  have hlt := pairwise_lt_sortedEntries hx.wellFormed hx.definite
  refine pairwise_described keyOf hform hparts hn (fun _ _ _ h => h.length_eq) hlt hd ?_
  intro e he e' he' f hf f' hf' c c' t t' m m' h h' hprecede hlt
  obtain ⟨i, j, tk, tv, rfl, hk, hv⟩ := h.entry
  obtain ⟨i', j', tk', tv', rfl, hk', hv'⟩ := h'.entry
  obtain ⟨hek, hev⟩ := mem_sortedEntries he
  obtain ⟨hek', hev'⟩ := mem_sortedEntries he'
  have hliteral : literalFirst e.2 e'.2 = literalFirst f.2 f'.2 := literalFirst_of_kind
    (kind_of_copies (hv.copy hc (hx.contents _ hev).wellFormed))
    (kind_of_copies (hv'.copy hc (hx.contents _ hev').wellFormed))
  have hcarried := hk.carried hc hk' (hx.contents _ hek) (hx.contents _ hek') (hps f hf).1
    (hps f' hf').1 hprecede
  rw [entryOrder, hliteral] at hlt
  exact ((Carried.refl _).thenBy fun _ => hcarried).lt_of_lt hlt

/-- The copies of the fields of a record stand in order, whatever their numbers are. -/
theorem ascending_fields {r : RecordNode} {gs : List (Tag × Value)} {cs : List Cirru}
    {tr : List (Ref × Value)} (hc : ∀ r, WellFormed ρ (content r)) (hr : WellFormed ρ (.record r))
    (hform : List.Forall₂ (FieldForm (Forms ρ content text d)) (sortedFields r) cs)
    (hparts : Along (DecodesField ρ .strict) cs gs tr) (hn : Distinct tr) :
    gs.Pairwise fun f g => compareFields f g = .lt := by
  have hcopies := along_fields (fun f hf =>
    copyAt_of_formAt hc (hr.contents f.2 (mem_sortedFields hf))) hform hparts hn
  refine pairwise_of_forall₂ (fun f g f' g' h h' hlt => ?_) hcopies.forall₂
    (pairwise_lt_sortedFields hr.here)
  obtain ⟨_, hname, hcopy⟩ := h
  obtain ⟨_, hname', hcopy'⟩ := h'
  rw [compareFields, ← hname, ← hname',
    literalFirst_of_kind (kind_of_copies hcopy).symm (kind_of_copies hcopy').symm]
  exact hlt

end Copies

/-! ## Values -/

section Settles

variable {ρ : Ranking} {content content' : Ref → Value} {text text' : Value → OptionT Id String}
  {d n : Nat} {c : Cirru} {E E' : Value → Cirru → Prop} {v w : Value} {t : List (Ref × Value)}

/-- Whatever a tree of the value describes, with references at counted paths, has a tree that is
the first one up to rearrangement, and altogether if the first is steady. -/
def Settles (ρ : Ranking) (content' : Ref → Value) (E E' : Value → Cirru → Prop) (v : Value) :
    Prop :=
  ∀ w c tr n, Described content' E (Decodes ρ .strict) v w c tr n → Regular ρ w → Settled E' c w n

theorem settles_list {l : ListNode}
    (hE : ∀ p ∈ contents (entriesUnder ρ.rank) (.list l), Settles ρ content' E E' p) :
    Settles ρ content' (FormBy ρ.rank content E) (FormBy ρ.rank content' E') (.list l) := by
  rintro w c tr n ⟨hform, hw, hn⟩ hr
  cases hform with
  | list hform =>
    obtain ⟨k, rfl, hparts⟩ := decodes_list hw
    obtain ⟨ds, hds, hre, hsame⟩ := exists_children hform hparts hn (fun _ _ _ h => h.length_eq)
      fun p hp q hq c t n h => hE p hp q c t n h (hr.contents q hq)
    refine ⟨_, .list hds, .node (by simp [leaf]) (.cons (.refl _) hre), fun hs => ?_⟩
    rw [hsame (hs.items (by simp [leaf])).2]

theorem settles_tuple {t : TupleNode}
    (hE : ∀ p ∈ contents (entriesUnder ρ.rank) (.tuple t), Settles ρ content' E E' p) :
    Settles ρ content' (FormBy ρ.rank content E) (FormBy ρ.rank content' E') (.tuple t) := by
  rintro w c tr n ⟨hform, hw, hn⟩ hr
  cases hform with
  | tuple hform =>
    obtain ⟨u, rfl, hparts⟩ := decodes_tuple hw
    obtain ⟨ds, hds, hre, hsame⟩ := exists_children hform hparts hn (fun _ _ _ h => h.length_eq)
      fun p hp q hq c t n h => hE p hp q c t n h (hr.contents q hq)
    refine ⟨_, .tuple hds, .node (by simp [leaf]) (.cons (.refl _) hre), fun hs => ?_⟩
    rw [hsame (hs.items (by simp [leaf])).2]

theorem settles_ref {r : Ref} (hc' : ∀ r, WellFormed ρ (content' r))
    (hE : Settles ρ content' E E' (content r)) :
    Settles ρ content' (FormBy ρ.rank content E) (FormBy ρ.rank content' E') (.ref r) := by
  rintro w c tr n ⟨hform, hw, hn⟩ -
  cases hform with
  | ref hform =>
    obtain ⟨q, u, t, rfl, rfl, hu⟩ := decodes_atom hw
    obtain ⟨ht, hq⟩ := hn.append
    obtain rfl : content' q = u := (hq 0 (q, u) rfl).2
    obtain ⟨i, hi, hre, hsame⟩ := hE _ _ t n ⟨hform, hu, ht⟩ ⟨hc' q, hu.definite⟩
    refine ⟨_, .ref hi, .node (by simp [leaf]) (.cons (.refl _) (.cons hre .nil)), fun hs => ?_⟩
    rw [hsame (hs.items (by simp [leaf])).2.1]

theorem settles_set {s : SetNode} (hc : ∀ r, WellFormed ρ (content r)) (hs : Regular ρ (.set s))
    (hE : ∀ p ∈ contents (entriesUnder ρ.rank) (.set s),
      Settles ρ content' (Forms ρ content text d) E' p) :
    Settles ρ content' (FormBy ρ.rank content (Forms ρ content text d))
      (FormBy ρ.rank content' E') (.set s) := by
  rintro w c tr n ⟨hform, hw, hn⟩ hr
  cases hform with
  | set hform =>
    obtain ⟨t, xs, rfl, hparts, hbody⟩ := decodes_set hw
    have hcopies := along_copies (fun p hp =>
      copyAt_of_formAt hc (hs.contents p (mem_sortedElements hp)).wellFormed)
      hform hparts hn.distinct
    have hperm : t.body.elements.Perm xs := hbody ▸ elements_ofList (distinct_elements hs.wellFormed
      hs.definite (keptApart_copies hs.wellFormed) hcopies hn.distinct)
    have hxs : ∀ x ∈ xs, Regular ρ x := fun x hx => hr.contents x (hperm.mem_iff.mpr hx)
    obtain ⟨ds, hds, hre, hsame⟩ := exists_children hform hparts hn (fun _ _ _ h => h.length_eq)
      fun p hp q hq c t n h => hE p (mem_sortedElements hp) q c t n h (hxs q hq)
    obtain ⟨es, hes, hmoved, hstill⟩ := exists_moved (order ρ.rank) hds hperm
    refine ⟨_, .set hes, .moved (.inl rfl) hre hmoved, fun hsteady => ?_⟩
    rw [hstill (ascending_elements hc hs hform hparts hn hxs hsteady.elements),
      hsame (hsteady.items (by simp [leaf])).2]

theorem settled_entry {e f : Value × Value} (hk : Settles ρ content' E E' e.1)
    (hv : Settles ρ content' E E' e.2)
    (h : Described content' (EntryForm E) (DecodesPair ρ .strict) e f c t n)
    (hf : Regular ρ f.1 ∧ Regular ρ f.2) : Settled (EntryForm E') c f n := by
  obtain ⟨i, j, tk, tv, rfl, hi, hj⟩ := h.entry
  obtain ⟨i', hi', hri, hsi⟩ := hk f.1 i tk n hi hf.1
  obtain ⟨j', hj', hrj, hsj⟩ := hv f.2 j tv _ hj hf.2
  -- a key is something that was decoded, so the pair is not taken for a quote
  have hq : [i, j].head? ≠ some (.leaf "quote") := by
    intro hk
    rw [Option.some.inj hk] at hi
    cases (decodes_leaf hi.decodes).1
  refine ⟨_, ⟨i', j', hi', hj', rfl⟩, .node hq (.cons hri (.cons hrj .nil)), fun hs => ?_⟩
  obtain ⟨hki, hvj, -⟩ := hs.items hq
  rw [hsi hki, hsj hvj]

theorem settles_map {x : MapNode} (hc : ∀ r, WellFormed ρ (content r)) (hx : Regular ρ (.map x))
    (hE : ∀ p ∈ contents (entriesUnder ρ.rank) (.map x),
      Settles ρ content' (Forms ρ content text d) E' p) :
    Settles ρ content' (FormBy ρ.rank content (Forms ρ content text d))
      (FormBy ρ.rank content' E') (.map x) := by
  rintro w c tr n ⟨hform, hw, hn⟩ hr
  cases hform with
  | map hform =>
    obtain ⟨m, ps, rfl, hparts, hbody⟩ := decodes_map hw
    have hcopies := along_entries (fun e he =>
      ⟨copyAt_of_formAt hc (hx.contents _ (mem_sortedEntries he).1).wellFormed,
        copyAt_of_formAt hc (hx.contents _ (mem_sortedEntries he).2).wellFormed⟩)
      hform hparts hn.distinct
    have hperm : (entriesUnder ρ.rank m).Perm ps := entriesUnder_ofPairs hbody (distinct_keys
      hx.wellFormed hx.definite (keptApart_copies hx.wellFormed) hcopies hn.distinct)
    have hps : ∀ f ∈ ps, Regular ρ f.1 ∧ Regular ρ f.2 := by
      intro f hf
      obtain ⟨hk, hv⟩ := mem_contents_map (hperm.mem_iff.mpr hf)
      exact ⟨hr.contents _ hk, hr.contents _ hv⟩
    obtain ⟨ds, hds, hre, hsame⟩ := exists_children hform hparts hn (fun _ _ _ h => h.length_eq)
      fun e he f hf c t n h => settled_entry (hE _ (mem_sortedEntries he).1)
        (hE _ (mem_sortedEntries he).2) h (hps f hf)
    obtain ⟨es, hes, hmoved, hstill⟩ := exists_moved (entryOrder (order ρ.rank)) hds hperm
    refine ⟨_, .map hes, .moved (.inr rfl) hre hmoved, fun hsteady => ?_⟩
    rw [hstill (ascending_entries hc hx hform hparts hn hps hsteady.keys),
      hsame (hsteady.items (by simp [leaf])).2]

theorem settled_field {f g : Tag × Value} (hv : Settles ρ content' E E' f.2)
    (h : Described content' (FieldForm E) (DecodesField ρ .strict) f g c t n)
    (hg : Regular ρ g.2) : Settled (FieldForm E') c g n := by
  obtain ⟨hname, j, rfl, hj⟩ := h.field
  obtain ⟨j', hj', hrj, hsj⟩ := hv g.2 j t n hj hg
  have hq : [leaf f.1.text, j].head? ≠ some (.leaf "quote") := by
    intro hk
    have htag : tagOf? (leaf f.1.text) = some f.1 := tagOf?_eq_some_iff.mpr rfl
    rw [Option.some.inj hk] at htag
    cases htag
  refine ⟨_, ⟨j', hj', rfl⟩, hname ▸ .node hq (.cons (.refl _) (.cons hrj .nil)), fun hs => ?_⟩
  rw [hsj (hs.items hq).2.1, hname]

theorem settles_record {r : RecordNode} (hc : ∀ r, WellFormed ρ (content r))
    (hr : WellFormed ρ (.record r))
    (hE : ∀ p ∈ contents (entriesUnder ρ.rank) (.record r),
      Settles ρ content' (Forms ρ content text d) E' p) :
    Settles ρ content' (FormBy ρ.rank content (Forms ρ content text d))
      (FormBy ρ.rank content' E') (.record r) := by
  rintro w c tr n ⟨hform, hw, hn⟩ hq
  cases hform with
  | record hform =>
    obtain ⟨q, t, gs, rfl, ht, hparts, hbody⟩ := decodes_record hw
    obtain rfl : r.body.name = t := Option.some.inj ((tagOf?_eq_some_iff.mpr rfl).symm.trans ht)
    have hfields := Record.fields_ofPairs hbody
    have hname : q.body.name = r.body.name := by rw [hfields]
    have hperm : q.body.fields.Perm gs := by
      rw [hfields]
      exact Record.sortBy_perm gs
    have hsorted : sortedFields q = gs := by
      rw [sortedFields, sortBy_eq_sorted]
      exact sorted_eq_of_perm .four hperm (ascending_fields hc hr hform hparts hn.distinct)
    obtain ⟨ds, hds, hre, hsame⟩ := exists_children hform hparts hn (fun _ _ _ h => h.length_eq)
      fun f hf g hg c t n h => settled_field (hE _ (mem_sortedFields hf)) h
        (hq.contents _ (List.mem_map_of_mem (hperm.mem_iff.mpr hg)))
    have hforms : FormBy ρ.rank content' E' (.record q)
        (.list (leaf "%\x7b\x7d" :: leaf r.body.name.text :: ds)) := hname ▸ .record (hsorted ▸ hds)
    refine ⟨_, hforms, .node (by simp [leaf]) (.cons (.refl _) (.cons (.refl _) hre)), fun hs => ?_⟩
    rw [hsame (hs.items (by simp [leaf])).2.2]

/-- A value settles if its contents and those of cells do. -/
theorem settles_formBy (hc : ∀ r, WellFormed ρ (content r)) (hc' : ∀ r, WellFormed ρ (content' r))
    (hv : Regular ρ v) (hE : ∀ p ∈ v.contents (entriesUnder ρ.rank),
      Settles ρ content' (Forms ρ content text d) E' p)
    (hr : ∀ r, Settles ρ content' (Forms ρ content text d) E' (content r)) :
    Settles ρ content' (FormBy ρ.rank content (Forms ρ content text d))
      (FormBy ρ.rank content' E') v := by
  cases v with
  | list l => exact settles_list hE
  | map x => exact settles_map hc hv hE
  | set s => exact settles_set hc hv hE
  | record r => exact settles_record hc hv.wellFormed hE
  | tuple t => exact settles_tuple hE
  | ref r => exact settles_ref hc' (hr r)
  | recur r =>
    rintro w c tr n ⟨hform, -, -⟩
    cases hform
  | _ =>
    rintro w c tr n ⟨hform, hw, -⟩ -
    have he := hform.encodable fun _ => Value.noConfusion
    have hscalar : w = _ ∧ tr = [] ∧ FormBy ρ.rank content' E' _ c := hform.scalar rfl he hw
    obtain ⟨rfl, -, hform'⟩ := hscalar
    exact ⟨c, hform', .refl c, fun _ => rfl⟩

/-- Down to any depth, what the tree of a value describes has the tree again, up to the order of
elements and entries. -/
theorem settles_formAt (hc : ∀ r, WellFormed ρ (content r)) (hc' : ∀ r, WellFormed ρ (content' r))
    (hv : WellFormed ρ v) (d : Nat) :
    Settles ρ content' (Forms ρ content text d) (Forms ρ content' text' d) v := by
  induction d generalizing v with
  | zero =>
    rintro w c tr n ⟨hform, -, -⟩
    cases hform
  | succ d ih =>
    rintro w c tr n ⟨hform, hw, hn⟩ hr
    have hstep := settles_formBy hc hc' ⟨hv, definite_of_formAt hform⟩
      (fun p hp => ih (hv.contents p hp)) fun r => ih (hc r)
    obtain ⟨e, he, hre, hsame⟩ := hstep w c tr n ⟨formAt_succ_iff.mp hform, hw, hn⟩ hr
    exact ⟨e, formAt_succ_iff.mpr he, hre, hsame⟩

theorem exists_rearranged (text' : Value → OptionT Id String) {tr : List (Ref × Value)}
    (hc : ∀ r, WellFormed ρ (content r)) (hc' : ∀ r, WellFormed ρ (content' r))
    (hv : WellFormed ρ v) (hw : WellFormed ρ w) (h : formAt ρ.rank content text d v = .ok c)
    (hd : Decodes ρ .strict c w tr) (hn : Placed content' n tr) :
    ∃ c', formAt ρ.rank content' text' d w = .ok c' ∧ Rearranged c c' ∧ (Steady c n → c' = c) :=
  settles_formAt hc hc' hv d w c tr n ⟨h, hd, hn⟩ ⟨hw, hd.definite⟩

end Settles

end DynVal.Wire
