import DynVal.Proofs.Relations.Plain

/-!
# Values whose parts match

Two values match by a relation (`Matches`) when they are of one kind and what they hold pairs off by
that relation: one after the other in lists, in any order in sets and maps. The order tells values
of which the parts match by the order not apart (`order_eq_of_matches`), and but for NaN and recur
markers these are all (`matches_of_order_eq`).
-/

namespace DynVal

open Std

/-- Identity numbers by which functions are told apart. -/
structure Ranking where
  rank : Fn → Nat
  eq_iff : ∀ f g, rank f = rank g ↔ f.id = g.id

namespace Value

variable {α β : Type} (ρ : Ranking) {R S : Value → Value → Prop} {a b c : Value}

/-- The entries of a map in its combined layers. -/
def entriesUnder (rank : Fn → Nat) (x : MapNode) : List (Value × Value) :=
  (x.body.storage (relations rank)).entries

/-- Key and value match. -/
def MatchEntry (R : Value → Value → Prop) (e f : Value × Value) : Prop := R e.1 f.1 ∧ R e.2 f.2

/-- Of one kind, and what they hold pairs off. -/
def Matches (R : Value → Value → Prop) (a b : Value) : Prop :=
  match a, b with
  | .nil, .nil => True
  | .bool x, .bool y => x = y
  | .number x, .number y => x.same y = true
  | .str x, .str y => x = y
  | .tag x, .tag y => x = y
  | .symbol x, .symbol y => x = y
  | .quote x, .quote y => x = y
  | .ref x, .ref y => x.path = y.path
  | .fn x, .fn y => x.id = y.id
  | .list x, .list y => List.Forall₂ R x.body.shown.toList y.body.shown.toList
  | .map x, .map y => Multiset.Rel (MatchEntry R) (entriesUnder ρ.rank x : Multiset (Value × Value))
      (entriesUnder ρ.rank y : Multiset (Value × Value))
  | .set x, .set y =>
    Multiset.Rel R (x.body.elements : Multiset Value) (y.body.elements : Multiset Value)
  | .record x, .record y =>
    x.body.name = y.body.name ∧ x.body.names = y.body.names ∧
      List.Forall₂ R x.body.values y.body.values
  | .tuple x, .tuple y => List.Forall₂ R x.body.items y.body.items
  | _, _ => False

/-- What a value holds as it is read: the parts of a map that its layers hide are left out. -/
def contents (entries : MapNode → List (Value × Value)) : Value → List Value
  | .map m => (entries m).flatMap fun e => [e.1, e.2]
  | v => v.parts

theorem mem_contents_map {entries : MapNode → List (Value × Value)} {x : MapNode}
    {e : Value × Value} (he : e ∈ entries x) :
    e.1 ∈ contents entries (.map x) ∧ e.2 ∈ contents entries (.map x) :=
  ⟨List.mem_flatMap.mpr ⟨e, he, by simp⟩, List.mem_flatMap.mpr ⟨e, he, by simp⟩⟩

/-- What a map shows is in its layers. -/
theorem contents_subset_parts {rank : Fn → Nat} {v : Value} :
    v.contents (entriesUnder rank) ⊆ v.parts := by
  intro p hp
  cases v with
  | map x =>
    have hall := (Tracking.gives_resolved (T := Tracking.plain)
      (Tracking.plain_keys (relations rank).keyed) (Map.all_iff.mpr fun _ h => h :
        x.body.All (· ∈ x.body.parts))).1
    obtain ⟨e, he, hpe⟩ := List.mem_flatMap.mp hp
    rcases List.mem_pair.mp hpe with rfl | rfl
    · exact (hall e he).1
    · exact (hall e he).2
  | _ => exact hp

variable {ρ}

theorem Matches.kind_eq (h : Matches ρ R a b) : a.kind = b.kind := by
  by_contra hk
  cases a <;> cases b <;> first | exact hk rfl | exact h

theorem forall₂_mono {P Q : α → β → Prop} {xs : List α} {ys : List β}
    (hpq : ∀ x ∈ xs, ∀ y ∈ ys, P x y → Q x y) (h : List.Forall₂ P xs ys) :
    List.Forall₂ Q xs ys := by
  induction h with
  | nil => exact .nil
  | cons hr _ ih =>
    refine .cons (hpq _ (by simp) _ (by simp) hr) (ih fun x hx y hy => ?_)
    exact hpq x (List.mem_cons_of_mem _ hx) y (List.mem_cons_of_mem _ hy)

theorem forall₂_trans {P : α → α → Prop} [IsTrans α P] {xs ys zs : List α}
    (h : List.Forall₂ P xs ys) (h' : List.Forall₂ P ys zs) : List.Forall₂ P xs zs := by
  induction h generalizing zs with
  | nil => exact h'
  | cons hr _ ih =>
    cases h' with
    | cons hr' hrest => exact .cons (IsTrans.trans _ _ _ hr hr') (ih hrest)

theorem Matches.mono
    (hrs : ∀ p ∈ contents (entriesUnder ρ.rank) a, ∀ q ∈ contents (entriesUnder ρ.rank) b,
      R p q → S p q) (h : Matches ρ R a b) : Matches ρ S a b := by
  have hk := h.kind_eq
  cases a <;> cases b <;> first | (cases hk; done) | exact h | skip
  case list.list x y => exact forall₂_mono hrs h
  case tuple.tuple x y => exact forall₂_mono hrs h
  case record.record x y => exact ⟨h.1, h.2.1, forall₂_mono hrs h.2.2⟩
  case set.set x y => exact Multiset.Rel.mono h hrs
  case map.map x y =>
    refine Multiset.Rel.mono h fun e he f hf hef => ?_
    have hx := mem_contents_map he
    have hy := mem_contents_map hf
    exact ⟨hrs _ hx.1 _ hy.1 hef.1, hrs _ hx.2 _ hy.2 hef.2⟩

theorem Matches.symm (hs : ∀ p q, R p q → R q p) (h : Matches ρ R a b) : Matches ρ R b a := by
  have hk := h.kind_eq
  have hflip {xs ys : List Value} (h : List.Forall₂ R xs ys) : List.Forall₂ R ys xs :=
    (List.Forall₂.flip h).imp fun _ _ => hs _ _
  cases a <;> cases b <;> first | (cases hk; done) | exact h | exact Eq.symm h | skip
  case number.number x y =>
    have hxy := Number.same_iff.mp h
    exact Number.same_iff.mpr ⟨⟨hxy.1.2, hxy.1.1⟩, hxy.2.symm⟩
  case list.list x y => exact hflip h
  case tuple.tuple x y => exact hflip h
  case record.record x y => exact ⟨h.1.symm, h.2.1.symm, hflip h.2.2⟩
  case set.set x y => exact (Multiset.rel_flip.mpr h).mono fun _ _ _ _ => hs _ _
  case map.map x y =>
    exact (Multiset.rel_flip.mpr h).mono fun _ _ _ _ hef => ⟨hs _ _ hef.1, hs _ _ hef.2⟩

theorem Matches.trans [IsTrans Value R] (h : Matches ρ R a b) (h' : Matches ρ R b c) :
    Matches ρ R a c := by
  have hk := h.kind_eq
  have hk' := h'.kind_eq
  cases a <;> cases b <;> first | (cases hk; done) | skip
  all_goals cases c <;> first | (cases hk'; done) | exact Eq.trans h h' | exact trivial | skip
  case number.number.number x y z =>
    have hxy := Number.same_iff.mp h
    have hyz := Number.same_iff.mp h'
    exact Number.same_iff.mpr ⟨⟨hxy.1.1, hyz.1.2⟩, hxy.2.trans hyz.2⟩
  case recur.recur.recur x y z => exact h
  case list.list.list x y z => exact forall₂_trans h h'
  case tuple.tuple.tuple x y z => exact forall₂_trans h h'
  case record.record.record x y z =>
    exact ⟨h.1.trans h'.1, h.2.1.trans h'.2.1, forall₂_trans h.2.2 h'.2.2⟩
  case set.set.set x y z => exact Multiset.Rel.trans _ h h'
  case map.map.map x y z =>
    have : IsTrans (Value × Value) (MatchEntry R) :=
      ⟨fun _ _ _ h h' => ⟨IsTrans.trans _ _ _ h.1 h'.1, IsTrans.trans _ _ _ h.2 h'.2⟩⟩
    exact Multiset.Rel.trans _ h h'

/-! ## By the order -/

theorem contentOrder_eq_iff {cmp : α → α → Ordering} [TransCmp cmp] {xs ys : List α} :
    contentOrder cmp xs ys = .eq ↔
      Multiset.Rel (fun x y => cmp x y = .eq) (xs : Multiset α) (ys : Multiset α) := by
  rw [contentOrder, Ordering.then_eq_eq, compareLex_sorted_eq_iff]
  refine and_iff_right_of_imp fun h => ?_
  have hcard := Multiset.card_eq_card_of_rel h
  rw [Multiset.coe_card, Multiset.coe_card] at hcard
  rw [hcard]
  exact ReflCmp.compare_self

theorem entriesOrder_eq_iff {x y : MapNode} :
    contentOrder (entryOrder (order ρ.rank)) (entriesUnder ρ.rank x) (entriesUnder ρ.rank y) = .eq ↔
      Multiset.Rel (MatchEntry fun p q => order ρ.rank p q = .eq)
        (entriesUnder ρ.rank x : Multiset (Value × Value))
        (entriesUnder ρ.rank y : Multiset (Value × Value)) := by
  rw [contentOrder_eq_iff]
  have hiff (e f : Value × Value) : entryOrder (order ρ.rank) e f = .eq ↔
      MatchEntry (fun p q => order ρ.rank p q = .eq) e f := Ordering.then_eq_eq
  simp only [hiff]

theorem order_eq_of_matches (h : Matches ρ (fun p q => order ρ.rank p q = .eq) a b) :
    order ρ.rank a b = .eq := by
  have hk := h.kind_eq
  rw [order_def]
  cases a <;> cases b <;> first | (cases hk; done) | skip
  case nil.nil => rfl
  case bool.bool x y => exact (Std.compare_eq_iff_eq (a := x) (b := y)).mpr h
  case number.number x y => exact Number.compare_eq_iff.mpr (Number.same_iff.mp h).2
  case str.str x y => exact (Std.compare_eq_iff_eq (a := x) (b := y)).mpr h
  case tag.tag x y => exact (show x = y from h) ▸ @ReflCmp.compare_self _ Tag.compare _ _
  case symbol.symbol x y => exact (show x = y from h) ▸ @ReflCmp.compare_self _ Symbol.compare _ _
  case quote.quote x y => exact (show x = y from h) ▸ @ReflCmp.compare_self _ Cirru.compare _ _
  case ref.ref x y => exact (Std.compare_eq_iff_eq (a := x.path) (b := y.path)).mpr h
  case fn.fn f g => exact Nat.compare_eq_eq.mpr ((ρ.eq_iff f g).mpr h)
  case recur.recur x y => exact h.elim
  case list.list x y => rw [compareBy_list]; exact compareLex_eq_iff.mpr h
  case tuple.tuple x y => rw [compareBy_tuple]; exact compareLex_eq_iff.mpr h
  case set.set x y => rw [compareBy_set]; exact contentOrder_eq_iff.mpr h
  case map.map x y => rw [compareBy_map]; exact entriesOrder_eq_iff.mpr h
  case record.record x y =>
    obtain ⟨hname, hnames, hvalues⟩ := h
    rw [compareBy_record, recordOrder, hname, hnames, Ordering.then_eq_eq, Ordering.then_eq_eq]
    exact ⟨ReflCmp.compare_self, ReflCmp.compare_self, compareLex_eq_iff.mpr hvalues⟩

/-- Neither NaN nor a recur marker. -/
def isDefinite : Value → Bool
  | .number n => !n.isNaN
  | .recur _ => false
  | _ => true

theorem matches_of_order_eq (ha : a.isDefinite = true) (hb : b.isDefinite = true)
    (h : order ρ.rank a b = .eq) : Matches ρ (fun p q => order ρ.rank p q = .eq) a b := by
  rw [order_def] at h
  have hk := kind_eq_of_compareBy_eq h
  cases a <;> cases b <;> first | (cases hk; done) | skip
  case nil.nil => trivial
  case bool.bool x y => exact LawfulEqOrd.eq_of_compare h
  case number.number x y =>
    simp only [isDefinite, Bool.not_eq_true'] at ha hb
    exact Number.same_iff.mpr ⟨⟨ha, hb⟩, Number.compare_eq_iff.mp h⟩
  case str.str x y => exact LawfulEqOrd.eq_of_compare h
  case tag.tag x y => exact @LawfulEqCmp.eq_of_compare _ Tag.compare _ _ _ h
  case symbol.symbol x y => exact @LawfulEqCmp.eq_of_compare _ Symbol.compare _ _ _ h
  case quote.quote x y => exact @LawfulEqCmp.eq_of_compare _ Cirru.compare _ _ _ h
  case ref.ref x y => exact LawfulEqOrd.eq_of_compare (α := String) h
  case fn.fn f g => exact (ρ.eq_iff f g).mp (Nat.compare_eq_eq.mp h)
  case recur.recur x y => cases ha
  case list.list x y => rw [compareBy_list] at h; exact compareLex_eq_iff.mp h
  case tuple.tuple x y => rw [compareBy_tuple] at h; exact compareLex_eq_iff.mp h
  case set.set x y => rw [compareBy_set] at h; exact contentOrder_eq_iff.mp h
  case map.map x y => rw [compareBy_map] at h; exact entriesOrder_eq_iff.mp h
  case record.record x y =>
    rw [compareBy_record, recordOrder, Ordering.then_eq_eq, Ordering.then_eq_eq] at h
    exact ⟨LawfulEqCmp.eq_of_compare h.1, LawfulEqCmp.eq_of_compare h.2.1,
      compareLex_eq_iff.mp h.2.2⟩

end Value
end DynVal
