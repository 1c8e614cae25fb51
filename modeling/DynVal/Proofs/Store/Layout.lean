import DynVal.Proofs.Store.Decoding
import DynVal.Proofs.Store.Lookups
import DynVal.Proofs.Store.Order

/-!
# The layout of encoded collections

The tree of a map, set or record is its marker, for a record with the name, and then one tree for
each entry, element or field (`Wire.Laid`). These stand in strictly increasing order: entries by
whether the value is composite and then by key, fields by whether the value is composite and then by
name, elements as they are compared.

* `Wire.FormBy.laid_map`, `laid_set`, `laid_record`: the layout under a ranking. That it is strict
  rests on keys, elements and fields being told apart.
* `Store.At.get_eq_some_iff`, `Store.At.contains_eq_true_iff`: the entries and elements that are
  laid out are those that look-ups find, however they are stored.
* `encode_laid_out`: the layout in a store.
-/

namespace DynVal

open Entries Memo Value

namespace Wire

/-- A marker, and then one child for each of some things, all in strictly increasing order. -/
def Laid {α : Type} (marker : List Cirru) (held : List α) (cmp : α → α → Ordering)
    (child : α → Cirru → Prop) (c : Cirru) : Prop :=
  ∃ xs cs, xs.Perm held ∧ xs.Pairwise (fun a b => cmp a b = .lt) ∧ List.Forall₂ child xs cs ∧
    c = .list (marker ++ cs)

section Laid

variable {α : Type} {marker : List Cirru} {held held' : List α} {cmp cmp' : α → α → Ordering}
  {child child' : α → Cirru → Prop} {c : Cirru}

theorem Laid.congr (h : Laid marker held cmp child c) (hperm : held.Perm held')
    (hcmp : ∀ a ∈ held, ∀ b ∈ held, cmp a b = cmp' a b)
    (hchild : ∀ a ∈ held, ∀ i, child a i → child' a i) : Laid marker held' cmp' child' c := by
  obtain ⟨xs, cs, hxs, hlt, hcs, rfl⟩ := h
  refine ⟨xs, cs, hxs.trans hperm, hlt.imp_of_mem fun ha hb hab => ?_,
    forall₂_mono (fun a ha i _ => hchild a (hxs.mem_iff.mp ha) i) hcs, rfl⟩
  rwa [← hcmp _ (hxs.mem_iff.mp ha) _ (hxs.mem_iff.mp hb)]

end Laid

section Forms

variable {ρ : Ranking} {content : Ref → Value} {E : Value → Cirru → Prop} {c : Cirru}

theorem FormBy.laid_map {x : MapNode} (h : FormBy ρ.rank content E (.map x) c)
    (hx : WellFormed ρ (.map x))
    (hd : (Value.map x).Throughout (entriesUnder ρ.rank) fun p => p.isDefinite = true) :
    Laid [leaf "\x7b\x7d"] (entriesUnder ρ.rank x) (entryOrder (order ρ.rank)) (EntryForm E) c := by
  cases h with
  | map h => exact ⟨_, _, sortedEntries_perm x, pairwise_lt_sortedEntries hx hd, h, rfl⟩

theorem FormBy.laid_set {t : SetNode} (h : FormBy ρ.rank content E (.set t) c)
    (ht : WellFormed ρ (.set t))
    (hd : (Value.set t).Throughout (entriesUnder ρ.rank) fun p => p.isDefinite = true) :
    Laid [leaf "#\x7b\x7d"] t.body.elements (order ρ.rank) E c := by
  cases h with
  | set h => exact ⟨_, _, sortedElements_perm t, pairwise_lt_sortedElements ht hd, h, rfl⟩

theorem FormBy.laid_record {r : RecordNode} (h : FormBy ρ.rank content E (.record r) c)
    (hr : WellFormed ρ (.record r)) :
    Laid [leaf "%\x7b\x7d", leaf r.body.name.text] r.body.fields compareFields (FieldForm E) c := by
  cases h with
  | record h => exact ⟨_, _, sortedFields_perm r, pairwise_lt_sortedFields hr.here, h, rfl⟩

/-- A value with a tree shows no functions. -/
theorem not_fn_of_formAt {text : Value → OptionT Id String} {d : Nat} {v : Value}
    (h : formAt ρ.rank content text d v = .ok c) :
    v.Throughout (entriesUnder ρ.rank) fun p => ∀ f, p ≠ .fn f := by
  refine throughout_of_formAt (fun E v c hform f hf => ?_) h
  subst hf
  cases hform

end Forms

end Wire

namespace Store

variable {s : Store} {g : Stage}

/-- What a map answers to a key is what it shows at that key. -/
theorem At.get_eq_some_iff (hs : s.At g) {x : MapNode} (hx : MapNode.Made g x) {k w : Value}
    (hk : k.Sound g) : (x.get? k s).1 = .ok (some w) ↔
      ∃ e ∈ s.shown x, s.same e.1 k = true ∧ e.2 = w := by
  obtain ⟨ρ, hρ⟩ := hs.exists_admitted
  have hes := hs.holds_shown hx hρ
  rw [hs.get_eq hx hk hρ hes, Except.ok.injEq,
    lookup_eq_some_iff (lawful_keysUnder ρ).equiv hes.keys_distinct]
  refine exists_congr fun e => and_congr_right fun he => ?_
  rw [hs.same_eq_test hρ _ _ (hs.sound_of_shown hx e he).1 hk]

/-- What a set is found to contain is equal to an element. -/
theorem At.contains_eq_true_iff (hs : s.At g) {t : SetNode} (ht : SetNode.Made g t) {k : Value}
    (hk : k.Sound g) : (t.contains k s).1 = .ok true ↔
      ∃ p ∈ t.body.elements, s.same p k = true := by
  obtain ⟨ρ, hρ⟩ := hs.exists_admitted
  rw [hs.hasElement_eq ht hk hρ, Except.ok.injEq, Entries.lookup, Option.isSome_map,
    List.find?_isSome, Set.elements, Storage.keys]
  simp only [List.mem_map, exists_exists_and_eq_and]
  refine exists_congr fun e => and_congr_right fun he => ?_
  rw [hs.same_eq_test hρ _ _ (ht.parts _ (List.mem_map_of_mem he)) hk]

/-- The tree that encoding a value gives. -/
def Encodes (s : Store) (p : Value) (c : Cirru) : Prop := (Wire.encode p s).1 = .ok c

end Store

/-- The tree of an encodable map, set or record is its marker with one child for each entry, element
or field, in strictly increasing order. What is laid out is what look-ups find. -/
theorem encode_laid_out {host : Host} {s : Store} {log : Log} (h : History host s log) {v : Value}
    (hv : Held log v) (he : s.Encodable v) (hc : ¬ s.Circular v) :
    ∃ c s', Wire.encode v s = (.ok c, s') ∧
      (∀ x : MapNode, v = .map x →
        Wire.Laid [.leaf "\x7b\x7d"] (s.shown x) (Wire.entryOrder s.order)
          (Wire.EntryForm s.Encodes) c ∧
        ∀ k, Held log k → ∀ w, (x.get? k s).1 = .ok (some w) ↔
          ∃ e ∈ s.shown x, s.same e.1 k = true ∧ e.2 = w) ∧
      (∀ t : SetNode, v = .set t →
        Wire.Laid [.leaf "#\x7b\x7d"] t.body.elements s.order s.Encodes c ∧
        ∀ k, Held log k →
          ((t.contains k s).1 = .ok true ↔ ∃ p ∈ t.body.elements, s.same p k = true)) ∧
      ∀ r : RecordNode, v = .record r →
        Wire.Laid [.leaf "%\x7b\x7d", .leaf r.body.name.text] r.body.fields Wire.compareFields
          (Wire.FieldForm s.Encodes) c := by
  obtain ⟨g, hs, hk⟩ := h.exists_stage
  obtain ⟨ρ, hρ⟩ := hs.exists_admitted
  have hsv := hk.held hv
  have hwv := hsv.wellFormed hρ
  obtain ⟨c, hencode⟩ := (hs.exists_encode_iff hsv).mpr ⟨he, hc⟩
  have hform := (hs.encode_ok_iff hsv hρ).mp hencode
  obtain ⟨d, hd⟩ : ∃ d, s.reach v = d + 1 := by
    cases hreach : s.reach v with
    | zero => rw [Store.form, hreach] at hform; cases hform
    | succ d => exact ⟨d, rfl⟩
  rw [Store.form, hd] at hform
  have hdefinite := Wire.definite_of_formAt hform
  -- what is held has the tree that encoding gives, and is compared as under the ranking
  have hsound {p : Value} (hp : p ∈ v.contents (entriesUnder ρ.rank)) : p.Sound g :=
    hsv.parts p (contents_subset_parts hp)
  have horder {p q : Value} (hp : p ∈ v.contents (entriesUnder ρ.rank))
      (hq : q ∈ v.contents (entriesUnder ρ.rank)) : order ρ.rank p q = s.order p q := by
    have hnumbered {p : Value} (hp : p ∈ v.contents (entriesUnder ρ.rank)) : s.Numbered p := by
      refine (hs.throughout_shown_iff (hsound hp) hρ).mpr ?_
      exact ((Wire.not_fn_of_formAt hform).contents p hp).mono fun p hp f hf => absurd hf (hp f)
    exact (hs.order_eq_plain (hsound hp) (hsound hq) (hnumbered hp) (hnumbered hq) hρ).symm
  have hencodes {p : Value} (hp : p ∈ v.contents (entriesUnder ρ.rank)) {i : Cirru} {text}
      (hi : Wire.formAt ρ.rank s.content text d p = .ok i) : s.Encodes p i :=
    hs.encode_of_formAt (hsound hp) hρ hi
  have hform := Wire.formAt_succ_iff.mp hform
  refine ⟨c, _, Prod.ext hencode rfl, ?_, ?_, ?_⟩
  · rintro x rfl
    refine ⟨(hform.laid_map hwv hdefinite).congr (hs.shown_perm hsv hρ).symm
      (fun e he f hf => ?_) fun e he i hi => ?_,
      fun k hk' w => hs.get_eq_some_iff hsv (hk.held hk')⟩
    · rw [Wire.entryOrder, horder (mem_contents_map he).1 (mem_contents_map hf).1, Wire.entryOrder]
    · obtain ⟨k, w, hk, hw, rfl⟩ := hi
      exact ⟨k, w, hencodes (mem_contents_map he).1 hk, hencodes (mem_contents_map he).2 hw, rfl⟩
  · rintro t rfl
    refine ⟨(hform.laid_set hwv hdefinite).congr (.refl _) (fun p hp q hq => horder hp hq)
      fun p hp i hi => hencodes hp hi, fun k hk' => hs.contains_eq_true_iff hsv (hk.held hk')⟩
  · rintro r rfl
    refine (hform.laid_record hwv).congr (.refl _) (fun _ _ _ _ => rfl) fun f hf i hi => ?_
    obtain ⟨w, hw, rfl⟩ := hi
    exact ⟨w, hencodes (List.mem_map_of_mem hf) hw, rfl⟩

/-- A list stands after nil, though its key is less. -/
theorem encode_laid_out_composite :
    let l : Value := .list ⟨0, .window 0 0 1 #[.str ""]⟩
    let x : MapNode := ⟨1, .flat (.slice [(.tag ⟨"a"⟩, l), (.tag ⟨"b"⟩, .nil)])⟩
    let log : Log := [(.makeMap [(.tag ⟨"a"⟩, l), (.tag ⟨"b"⟩, .nil)], .ok (.value (.map x))),
      (.makeList [.str ""], .ok (.value l))]
    let c : Cirru := .list [.leaf "\x7b\x7d", .list [.leaf ":b", .leaf "nil"],
      .list [.leaf ":a", .list [.leaf "[]", .leaf "|"]]]
    ∃ s s', History default s log ∧ Wire.encode (.map x) s = (.ok c, s') ∧
      Wire.Laid [.leaf "\x7b\x7d"] (s.shown x) (Wire.entryOrder s.order)
        (Wire.EntryForm s.Encodes) c := by
  intro l x log c
  have hlist : History default _ [(.makeList [.str ""], .ok (.value l))] :=
    History.start.ask (.makeList [.str ""]) (by simpa [Request.operands] using .scalar rfl)
  have hl : Held [(.makeList [.str ""], .ok (.value l))] l :=
    .replied (q := .makeList [.str ""]) (r := .value l) List.mem_cons_self (by simp [Reply.held])
  have hmade : History default _ log :=
    hlist.ask (.makeMap [(.tag ⟨"a"⟩, l), (.tag ⟨"b"⟩, .nil)]) (by
    simpa [Request.operands] using ⟨.scalar rfl, hl, .scalar rfl, .scalar rfl⟩)
  have hx : Held log (.map x) :=
    .replied (q := .makeMap [(.tag ⟨"a"⟩, l), (.tag ⟨"b"⟩, .nil)]) (r := .value (.map x))
      List.mem_cons_self (by simp [Reply.held])
  obtain ⟨g, hs, hk⟩ := hmade.exists_stage
  obtain ⟨hencodable, hcircular⟩ := (hs.exists_encode_iff (hk.held hx)).mp
    ⟨c, by decide +kernel +zetaReduce⟩
  obtain ⟨i, s', hi, hmap, -⟩ := encode_laid_out hmade hx hencodable hcircular
  obtain rfl : i = c :=
    Except.ok.inj ((congrArg Prod.fst hi).symm.trans (by decide +kernel +zetaReduce))
  exact ⟨_, s', hmade, hi, (hmap x rfl).1⟩

end DynVal
