import DynVal.Proofs.Store.Equivalence
import DynVal.Proofs.Store.Lookups
import Mathlib.Data.List.Pairwise

/-!
# Enumerating sets

The least element of a set is found by the order, and is then looked up by equality and by its hash
to be taken out. If equality and the order agree on the elements (`SetNode.Coherent`), then the
element that is taken out is the one that was found, and it is the only one. So each element is met
once, in increasing order, and the set is empty after as many steps as it has elements.

* `SetNode.yields_uncons`: one step takes the least element out and keeps the others.
* `SetNode.yields_takeFirst`: what any number of steps take out.
* `enumerate_in_order`: the elements of a set, by first elements and remaining sets. Those of equal
  sets are equal one by one.
-/

namespace DynVal

open Entries Memo Op

namespace SetNode

/-- The first element and the set without it. -/
def uncons? (t : SetNode) : Op (Option (Value × SetNode)) := do
  match ← t.first? with
  | none => return none
  | some x => return some (x, ← t.rest)

/-- Takes first elements out one after the other, up to a number of them. -/
def takeFirst (t : SetNode) : Nat → Op (List Value × SetNode)
  | 0 => return ([], t)
  | n + 1 => do
    match ← t.uncons? with
    | none => return ([], t)
    | some (x, u) =>
      let (xs, w) ← u.takeFirst n
      return (x :: xs, w)

/-- As many first elements as the set has elements. -/
def inOrder (t : SetNode) : Op (List Value) := do return (← t.takeFirst t.body.size).1

/-! ## Where equality and the order agree -/

/-- Elements that the order does not tell apart are equal. -/
structure Coherent (g : Stage) (t : SetNode) : Prop where
  made : Made g t
  equal : ∀ ρ : Ranking, g.numbering.Admits ρ → ∀ x ∈ t.body.elements, ∀ y ∈ t.body.elements,
    Value.order ρ.rank x y = .eq → (keysUnder ρ).test x y = true

section Coherent

variable {g g' : Stage} {t u : SetNode} {x y : Value} {ρ : Ranking}

theorem Coherent.extends (h : Coherent g t) (hext : g.Extends g') : Coherent g' t :=
  ⟨h.made.extends hext, fun ρ hρ => h.equal ρ (hext.numbering.admits hρ)⟩

theorem Coherent.subset (h : Coherent g t) (hu : Made g' u) (hext : g.Extends g')
    (hsub : ∀ ρ : Ranking, g'.numbering.Admits ρ → u.body.elements ⊆ t.body.elements) :
    Coherent g' u :=
  ⟨hu, fun ρ hρ x hx y hy => h.equal ρ (hext.numbering.admits hρ) x (hsub ρ hρ hx) y (hsub ρ hρ hy)⟩

theorem coherent_of_definite {s : Store} (hs : s.At g) (ht : Made g t)
    (hd : s.Definite (.set t)) : Coherent g t := by
  refine ⟨ht, fun ρ hρ x hx y hy h => ?_⟩
  have hwf {p : Value} (hp : p ∈ t.body.elements) : p.WellFormed ρ := (ht.parts p hp).wellFormed hρ
  have hdefinite {p : Value} (hp : p ∈ t.body.elements) :=
    (hs.throughout_shown_iff (ht.parts p hp) hρ).mp (hd.contents p hp)
  exact Keyed.test_within.mpr ⟨hwf hx, hwf hy,
    Value.equal_of_order_eq (hwf hx) (hwf hy) (hdefinite hx) (hdefinite hy) h⟩

section Ranked

variable (h : Coherent g t) (hρ : g.numbering.Admits ρ)
include h hρ

theorem Coherent.self (hx : x ∈ t.body.elements) : (keysUnder ρ).test x x = true :=
  h.equal ρ hρ x hx x hx Std.ReflCmp.compare_self

theorem Coherent.order_ne :
    t.body.elements.Pairwise fun x y => Value.order ρ.rank x y ≠ .eq := by
  have hd : Distinct (keysUnder ρ).test t.body.members.entries :=
    (holds_of_sound h.made hρ).lawful.distinct
  refine List.pairwise_map.mpr (hd.imp_of_mem fun {e f} he hf hef heq => ?_)
  rw [h.equal ρ hρ e.1 (List.mem_map_of_mem he) f.1 (List.mem_map_of_mem hf) heq] at hef
  cases hef

/-- There is one least element. -/
theorem Coherent.lowerBound_unique (hx : x ∈ t.body.elements) (hy : y ∈ t.body.elements)
    (hbx : LowerBound ρ t.body.elements x) (hby : LowerBound ρ t.body.elements y) : x = y := by
  by_contra hne
  have hsymm : Std.Symm fun x y => Value.order ρ.rank x y ≠ .eq :=
    ⟨fun a b hab hba => hab (Std.OrientedCmp.eq_symm hba)⟩
  exact (h.order_ne hρ).forall hx hy hne (Std.OrientedCmp.isLE_antisymm (hbx y hy) (hby x hx))

/-- An element that is taken out is found, and nothing else is taken out with it. -/
theorem Coherent.perm_exclude (hx : x ∈ t.body.elements)
    (hu : u.body = (Id.run (t.body.exclude? (keysUnder ρ) x)).getD t.body) :
    t.body.elements.Perm (x :: u.body.elements) := by
  have hk := lawful_keysUnder ρ
  have hlawful := (holds_of_sound h.made hρ).lawful
  obtain ⟨e, he, rfl⟩ := List.mem_map.mp hx
  have hothers := Set.perm_exclude hk hlawful e.1
  rw [← hu] at hothers
  have hperm := hlawful.distinct.perm_cons_erase hk.equiv he (h.self hρ hx)
  exact (hperm.trans (hothers.symm.cons e)).map _

end Ranked

/-! ## Steps -/

/-- What comes of a step: nothing if the set is empty, or else its least element and the others. -/
def Unconsed (g : Stage) (t : SetNode) : Option (Value × SetNode) → Prop
  | none => t.body.elements = []
  | some (x, u) => Coherent g u ∧ ∀ ρ : Ranking, g.numbering.Admits ρ →
    t.body.elements.Perm (x :: u.body.elements) ∧
      ∀ y ∈ u.body.elements, Value.order ρ.rank x y = .lt

theorem yields_uncons (ht : Coherent g t) : Yields g t.uncons? fun g' r => Unconsed g' t r := by
  refine yields_bind (yields_first ht.made) fun g₁ r h₁ hr => ?_
  cases r with
  | none => exact yields_pure (hr.1 rfl)
  | some x =>
    obtain ⟨hx, hbx⟩ := hr.2 x rfl
    refine yields_bind (yields_rest (ht.made.extends h₁)) fun g₂ u h₂ hu => yields_pure ?_
    obtain ⟨hmade, ⟨hnil, -⟩ | ⟨y, hy, hbody⟩⟩ := hu
    · rw [hnil] at hx
      cases hx
    have ht := (ht.extends h₁).extends h₂
    have hparts (ρ : Ranking) (hρ : g₂.numbering.Admits ρ) :
        t.body.elements.Perm (x :: u.body.elements) := by
      obtain ⟨hby, hbody⟩ := hbody ρ hρ
      obtain rfl := ht.lowerBound_unique hρ hx hy (hbx ρ (h₂.numbering.admits hρ)) hby
      exact ht.perm_exclude hρ hx hbody
    refine ⟨ht.subset hmade (.refl _) fun ρ hρ z hz =>
      (hparts ρ hρ).mem_iff.mpr (List.mem_cons_of_mem x hz), fun ρ hρ => ⟨hparts ρ hρ, ?_⟩⟩
    intro z hz
    have hne := (List.Perm.pairwise_iff (fun {a b} hab hba => hab (Std.OrientedCmp.eq_symm hba))
      (hparts ρ hρ)).mp (ht.order_ne hρ)
    have hle := hbx ρ (h₂.numbering.admits hρ) z
      ((hparts ρ hρ).mem_iff.mpr (List.mem_cons_of_mem x hz))
    cases ho : Value.order ρ.rank x z with
    | lt => rfl
    | eq => exact absurd ho (List.rel_of_pairwise_cons hne hz)
    | gt =>
      rw [ho] at hle
      cases hle

/-- What comes of a number of steps: so many elements in increasing order, and those above them. -/
structure TakenFirst (ρ : Ranking) (n : Nat) (t : SetNode) (xs : List Value)
    (u : SetNode) : Prop where
  perm : t.body.elements.Perm (xs ++ u.body.elements)
  length_eq : xs.length = min n t.body.size
  increasing : xs.Pairwise fun x y => Value.order ρ.rank x y = .lt
  below : ∀ x ∈ xs, ∀ y ∈ u.body.elements, Value.order ρ.rank x y = .lt

theorem TakenFirst.size_eq {n : Nat} {xs : List Value} (h : TakenFirst ρ n t xs u) :
    u.body.size = t.body.size - n := by
  have hlen : t.body.elements.length = (xs ++ u.body.elements).length := h.perm.length_eq
  have hsize (t : SetNode) : t.body.elements.length = t.body.size := List.length_map _
  rw [List.length_append, h.length_eq, hsize, hsize] at hlen
  omega

theorem TakenFirst.zero : TakenFirst ρ 0 t [] t where
  perm := .refl _
  length_eq := (Nat.zero_min _).symm
  increasing := .nil
  below := nofun

theorem TakenFirst.of_empty (ht : t.body.elements = []) (n : Nat) : TakenFirst ρ n t [] t where
  perm := .refl _
  length_eq := by
    have hsize : t.body.size = 0 := (List.length_map _).symm.trans (congrArg List.length ht)
    rw [hsize, Nat.min_zero]
    rfl
  increasing := .nil
  below := nofun

/-- A step before others. -/
theorem TakenFirst.cons {n : Nat} {w : SetNode} {xs : List Value} (h : TakenFirst ρ n u xs w)
    (hperm : t.body.elements.Perm (x :: u.body.elements))
    (hlt : ∀ y ∈ u.body.elements, Value.order ρ.rank x y = .lt) :
    TakenFirst ρ (n + 1) t (x :: xs) w where
  perm := hperm.trans (h.perm.cons x)
  length_eq := by
    have hsize : t.body.size = u.body.size + 1 := by
      have hlen := hperm.length_eq
      rwa [Set.elements, Storage.keys, List.length_map, List.length_cons, Set.elements,
        Storage.keys, List.length_map] at hlen
    rw [List.length_cons, h.length_eq, hsize]
    omega
  increasing := .cons (fun y hy => hlt y (h.perm.mem_iff.mpr (List.mem_append_left _ hy)))
    h.increasing
  below := List.forall_mem_cons.mpr
    ⟨fun y hy => hlt y (h.perm.mem_iff.mpr (List.mem_append_right _ hy)), h.below⟩

theorem yields_takeFirst (ht : Coherent g t) (n : Nat) :
    Yields g (t.takeFirst n) fun g' p => Made g' p.2 ∧
      ∀ ρ : Ranking, g'.numbering.Admits ρ → TakenFirst ρ n t p.1 p.2 := by
  induction n generalizing g t with
  | zero => exact yields_pure ⟨ht.made, fun ρ _ => .zero⟩
  | succ n ih =>
    refine yields_bind (yields_uncons ht) fun g₁ r h₁ hr => ?_
    cases r with
    | none => exact yields_pure ⟨ht.made.extends h₁, fun ρ _ => .of_empty hr (n + 1)⟩
    | some r =>
      obtain ⟨x, u⟩ := r
      obtain ⟨hu, hstep⟩ := hr
      refine yields_bind (ih hu) fun g₂ p h₂ hp => yields_pure ⟨hp.1, fun ρ hρ => ?_⟩
      obtain ⟨hperm, hlt⟩ := hstep ρ (h₂.numbering.admits hρ)
      exact (hp.2 ρ hρ).cons hperm hlt

theorem yields_inOrder (ht : Coherent g t) :
    Yields g t.inOrder fun g' xs => ∀ ρ : Ranking, g'.numbering.Admits ρ →
      xs.Perm t.body.elements ∧ xs.Pairwise fun x y => Value.order ρ.rank x y = .lt := by
  refine yields_bind (yields_takeFirst ht t.body.size) fun g' p _ hp => yields_pure fun ρ hρ => ?_
  have htaken := hp.2 ρ hρ
  have hnil : p.2.body.elements = [] := by
    have hsize : p.2.body.elements.length = p.2.body.size := List.length_map _
    rw [htaken.size_eq, Nat.sub_self] at hsize
    exact List.length_eq_zero_iff.mp hsize
  have hperm := htaken.perm
  rw [hnil, List.append_nil] at hperm
  exact ⟨hperm.symm, htaken.increasing⟩

/-! ## Equal sets -/

section Equal

variable (ht : Coherent g t) (hu : Made g u) (hρ : g.numbering.Admits ρ)
  (h : Value.equal ρ.rank (.set t) (.set u) = true)
include ht hu hρ h

theorem Coherent.rel : Multiset.Rel (fun x y => (keysUnder ρ).test x y = true)
    (t.body.elements : Multiset Value) (u.body.elements : Multiset Value) := by
  rcases (Value.equal_iff_matches (ht.made.wellFormed hρ) (hu.wellFormed hρ)).mp h with
    ⟨heq, -⟩ | hmatches
  · cases heq
    exact Multiset.rel_refl_of_refl_on fun x hx => ht.self hρ (Multiset.mem_coe.mp hx)
  · refine Multiset.Rel.mono hmatches fun x hx y hy hxy => Keyed.test_within.mpr ⟨?_, ?_, hxy⟩
    · exact (ht.made.parts x (Multiset.mem_coe.mp hx)).wellFormed hρ
    · exact (hu.parts y (Multiset.mem_coe.mp hy)).wellFormed hρ

theorem Coherent.equal_of_order_eq (hx : x ∈ u.body.elements) (hy : y ∈ u.body.elements)
    (hxy : Value.order ρ.rank x y = .eq) : (keysUnder ρ).test x y = true := by
  have he := (lawful_keysUnder ρ).equiv
  have hrel := Multiset.rel_flip.mpr (ht.rel hu hρ h)
  obtain ⟨x', hx', hxx⟩ := Multiset.exists_mem_of_rel_of_mem hrel (Multiset.mem_coe.mpr hx)
  obtain ⟨y', hy', hyy⟩ := Multiset.exists_mem_of_rel_of_mem hrel (Multiset.mem_coe.mpr hy)
  have horder {p q : Value} (hpq : (keysUnder ρ).test p q = true) :
      Value.order ρ.rank p q = .eq := by
    obtain ⟨hp, hq, hpq⟩ := Keyed.test_within.mp hpq
    exact Value.order_eq_of_equal hp hq hpq
  have hxy' : Value.order ρ.rank x' y' = .eq := by
    rw [Std.TransCmp.congr_left (horder hxx), Std.TransCmp.congr_right (horder hyy)]
    exact hxy
  have htest := ht.equal ρ hρ x' (Multiset.mem_coe.mp hx') y' (Multiset.mem_coe.mp hy') hxy'
  exact he.trans (he.symm hxx) (he.trans htest hyy)

end Equal

/-- A set that is equal to such a set is such a set. -/
theorem Coherent.of_equal (ht : Coherent g t) (hu : Made g u)
    (h : ∀ ρ : Ranking, g.numbering.Admits ρ → Value.equal ρ.rank (.set t) (.set u) = true) :
    Coherent g u :=
  ⟨hu, fun ρ hρ _ hx _ hy hxy => ht.equal_of_order_eq hu hρ (h ρ hρ) hx hy hxy⟩

end Coherent

/-- Both sequences of elements, one after the other. -/
def bothInOrder (t u : SetNode) : Op (List Value × List Value) := do
  return (← t.inOrder, ← u.inOrder)

theorem yields_bothInOrder {g : Stage} {t u : SetNode} (ht : Coherent g t) (hu : Made g u)
    (h : ∀ ρ : Ranking, g.numbering.Admits ρ → Value.equal ρ.rank (.set t) (.set u) = true) :
    Yields g (bothInOrder t u) fun g' p => ∀ ρ : Ranking, g'.numbering.Admits ρ →
      (∀ x ∈ p.1, x ∈ t.body.elements) ∧ (∀ y ∈ p.2, y ∈ u.body.elements) ∧
      List.Forall₂ (fun x y => (keysUnder ρ).test x y = true) p.1 p.2 := by
  have hu := ht.of_equal hu h
  refine yields_bind (yields_inOrder ht) fun g₁ xs h₁ hxs => ?_
  refine yields_bind (yields_inOrder (hu.extends h₁)) fun g₂ ys h₂ hys => ?_
  refine yields_pure fun ρ hρ => ?_
  have hadm₁ := h₂.numbering.admits hρ
  have hadm := h₁.numbering.admits hadm₁
  obtain ⟨hpx, hx⟩ := hxs ρ hadm₁
  obtain ⟨hpy, hy⟩ := hys ρ hρ
  refine ⟨fun x => hpx.mem_iff.mp, fun y => hpy.mem_iff.mp, ?_⟩
  have hrel := ht.rel hu.made hadm (h ρ hadm)
  rw [← Multiset.coe_eq_coe.mpr hpx, ← Multiset.coe_eq_coe.mpr hpy] at hrel
  refine forall₂_of_rel (fun x _ y _ hxy => ?_) hx hy hrel
  obtain ⟨hx, hy, hxy⟩ := Keyed.test_within.mp hxy
  exact Value.order_eq_of_equal hx hy hxy

end SetNode

/-- What increases under all rankings increases in a store. -/
theorem Store.At.pairwise_lt {s : Store} {g : Stage} (hs : s.At g) {xs : List Value}
    (hxs : ∀ x ∈ xs, x.Sound g) (h : ∀ ρ : Ranking, g.numbering.Admits ρ →
      xs.Pairwise fun x y => Value.order ρ.rank x y = .lt) :
    xs.Pairwise fun x y => s.order x y = .lt := by
  refine List.pairwise_iff_getElem.mpr ?_
  intro i j hi hj hij
  refine hs.order_eq (hxs _ (List.getElem_mem hi)) (hxs _ (List.getElem_mem hj)) ?_
  intro ρ hρ
  exact List.pairwise_iff_getElem.mp (h ρ hρ) i j hi hj hij

/-- In every history, for sets in whatever they are stored in. -/
theorem enumerate_in_order {host : Host} {s : Store} {log : Log} (h : History host s log)
    {t : SetNode} (ht : Held log (.set t)) (hd : s.Definite (.set t)) :
    -- each number of steps
    (∀ n, ∃ xs u s', t.takeFirst n s = (.ok (xs, u), s') ∧
      t.body.elements.Perm (xs ++ u.body.elements) ∧
      xs.length = min n t.body.size ∧
      u.body.size = t.body.size - n ∧
      xs.Pairwise (fun x y => s'.order x y = .lt) ∧
      ∀ x ∈ xs, ∀ y ∈ u.body.elements, s'.order x y = .lt) ∧
    -- the elements of an equal set
    (∀ w, Held log (.set w) → s.same (.set t) (.set w) = true →
      ∃ xs ys s', SetNode.bothInOrder t w s = (.ok (xs, ys), s') ∧
        List.Forall₂ (fun x y => s'.same x y = true) xs ys) := by
  obtain ⟨g, hs, hk⟩ := h.exists_stage
  have hmade : SetNode.Made g t := hk.held ht
  have hcoherent := SetNode.coherent_of_definite hs hmade hd
  refine ⟨fun n => ?_, fun w hw hsame => ?_⟩
  · obtain ⟨g', ⟨xs, u⟩, hext, hs', hrun, hu, htaken⟩ := SetNode.yields_takeFirst hcoherent n s hs
    obtain ⟨ρ, hρ⟩ := hs'.exists_admitted
    obtain ⟨hperm, hlength, -, -⟩ := htaken ρ hρ
    have hxs : ∀ x ∈ xs, x.Sound g' := fun x hx =>
      (hmade.extends hext).parts x (hperm.mem_iff.mpr (List.mem_append_left _ hx))
    have hus : ∀ y ∈ u.body.elements, y.Sound g' := hu.parts
    refine ⟨xs, u, _, Prod.ext hrun rfl, hperm, hlength, (htaken ρ hρ).size_eq,
      hs'.pairwise_lt hxs fun ρ hρ => (htaken ρ hρ).increasing, ?_⟩
    intro x hx y hy
    exact hs'.order_eq (hxs x hx) (hus y hy) fun ρ hρ => (htaken ρ hρ).below x hx y hy
  · have hwmade : SetNode.Made g w := hk.held hw
    have hequal (ρ : Ranking) (hρ : g.numbering.Admits ρ) :
        Value.equal ρ.rank (.set t) (.set w) = true := by
      rw [← hs.same_eq (hk.held ht) (hk.held hw) hρ]
      exact hsame
    obtain ⟨g', ⟨xs, ys⟩, hext, hs', hrun, hboth⟩ :=
      SetNode.yields_bothInOrder hcoherent hwmade hequal s hs
    obtain ⟨ρ, hρ⟩ := hs'.exists_admitted
    obtain ⟨hx, hy, hxy⟩ := hboth ρ hρ
    refine ⟨xs, ys, _, Prod.ext hrun rfl, Value.forall₂_mono (fun x hxs y hys hxy => ?_) hxy⟩
    rw [hs'.same_eq_test hρ x y ((hmade.extends hext).parts x (hx x hxs))
      ((hwmade.extends hext).parts y (hy y hys))]
    exact hxy

/-- Two sets of the same elements, which were put in one after the other in another order. -/
theorem enumerate_in_order_swapped :
    let yes : Value := .bool true
    let a : SetNode := ⟨0, ⟨.slice [(yes, ()), (.nil, ())]⟩⟩
    let b : SetNode := ⟨1, ⟨.slice [(.nil, ()), (yes, ())]⟩⟩
    ∃ s log xs ys s', History default s log ∧ SetNode.bothInOrder a b s = (.ok (xs, ys), s') ∧
      List.Forall₂ (fun x y => s'.same x y = true) xs ys ∧
      ∃ x u s', a.takeFirst 1 s = (.ok ([x], u), s') ∧
        a.body.elements.Perm (x :: u.body.elements) ∧ u.body.size = 1 ∧
        ∀ y ∈ u.body.elements, s'.order x y = .lt := by
  intro yes a b
  let log : Log := [(.makeSet [.nil, yes], .ok (.value (.set b))),
    (.makeSet [yes, .nil], .ok (.value (.set a)))]
  have hist : History default _ log :=
    (History.start.ask (.makeSet [yes, .nil])
      (by simpa [Request.operands] using ⟨.scalar rfl, .scalar rfl⟩)).ask (.makeSet [.nil, yes])
      (by simpa [Request.operands] using ⟨.scalar rfl, .scalar rfl⟩)
  have ha : Held log (.set a) :=
    .replied (q := .makeSet [yes, .nil]) (r := .value (.set a)) (by simp [log])
      (by simp [Reply.held])
  have hb : Held log (.set b) :=
    .replied (q := .makeSet [.nil, yes]) (r := .value (.set b)) (by simp [log])
      (by simp [Reply.held])
  obtain ⟨hsteps, hequal⟩ := enumerate_in_order hist ha (.of_flat rfl rfl)
  obtain ⟨xs, ys, s', hrun, hsame⟩ := hequal b hb rfl
  obtain ⟨zs, u, s'', hstep, hperm, hlength, hsize, -, hbelow⟩ := hsteps 1
  obtain ⟨x, rfl⟩ := List.length_eq_one_iff.mp hlength
  exact ⟨_, log, xs, ys, s', hist, hrun, hsame, x, u, s'', hstep, hperm, hsize,
    hbelow x List.mem_cons_self⟩

end DynVal
