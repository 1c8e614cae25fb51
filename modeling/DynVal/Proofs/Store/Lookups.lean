import DynVal.Proofs.Store.Associations

/-!
# Look-ups in a store

What a map or a set answers is found in what it holds, under the numbers that functions have by
then. Numbers that they get later change none of it (`Store.At.lookup_test_eq`), so an answer can be
read off the entries that a map shows now.

* `Store.At.get_eq`, `Store.At.contains_eq`, `Store.At.size_eq`: the answers of a map, from any
  entries that it holds.
* `Store.At.hasElement_eq`: the answer of a set, from its members.
-/

namespace DynVal

open Entries Memo

namespace MapNode

variable {m : MapNode} {ρ : Ranking} {es fs : List (Value × Value)}

theorem Holds.keys_distinct (h : Holds ρ m es) : Distinct (keysUnder ρ).test es :=
  Map.Holds.distinct (lawful_keysUnder ρ) h

theorem Holds.alike (h : Holds ρ m es) (h' : Holds ρ m fs) : Alike (keysUnder ρ).test es fs :=
  have he := (lawful_keysUnder ρ).equiv
  (h.resolved.alike.symm he).trans he h'.resolved.alike

theorem Holds.lookup_eq (h : Holds ρ m es) (h' : Holds ρ m fs) (k : Value) :
    lookup (keysUnder ρ).test k es = lookup (keysUnder ρ).test k fs :=
  lookup_alike (lawful_keysUnder ρ).equiv h.keys_distinct (h.alike h') k

end MapNode

namespace Store.At

/-- What is looked up does not depend on the numbers that functions get later. -/
theorem lookup_test_eq {s : Store} {g : Stage} (hs : s.At g) {ρ ρ' : Ranking}
    (hρ : g.numbering.Admits ρ) (hρ' : g.numbering.Admits ρ') {ν : Type} {es : List (Value × ν)}
    (hes : ∀ e ∈ es, e.1.Sound g) {k : Value} (hk : k.Sound g) :
    lookup (keysUnder ρ).test k es = lookup (keysUnder ρ').test k es :=
  (lookup_congr (hs.same_eq_test hρ) hes hk).symm.trans (lookup_congr (hs.same_eq_test hρ') hes hk)

section Maps

variable {s : Store} {g : Stage} (hs : s.At g) {m : MapNode} (hm : MapNode.Made g m) {k : Value}
  {ρ : Ranking} {es : List (Value × Value)}
include hs hm

theorem sound_of_shown : ∀ e ∈ s.shown m, e.1.Sound g ∧ e.2.Sound g := by
  obtain ⟨ρ, hρ⟩ := hs.exists_admitted
  intro e he
  have hcontents := Value.mem_contents_map ((hs.shown_perm hm hρ).mem_iff.mp he)
  exact ⟨hm.parts _ (Value.contents_subset_parts hcontents.1),
    hm.parts _ (Value.contents_subset_parts hcontents.2)⟩

theorem holds_shown (hρ : g.numbering.Admits ρ) : MapNode.Holds ρ m (s.shown m) := by
  have hholds := MapNode.holds_of_sound hm hρ
  refine ⟨hholds.lawful, hholds.resolved.of_alike (lawful_keysUnder ρ) ?_⟩
  exact alike_of_perm (hs.shown_perm hm hρ).symm

/-- What a map shows is looked up like anything else that it holds. -/
theorem lookup_shown_eq {ρ' : Ranking} (hk : k.Sound g) (hρ' : g.numbering.Admits ρ')
    (hρ : g.numbering.Admits ρ) (hes : MapNode.Holds ρ m es) :
    lookup (keysUnder ρ').test k (s.shown m) = lookup (keysUnder ρ).test k es :=
  (hs.lookup_test_eq hρ' hρ (fun e he => (hs.sound_of_shown hm e he).1) hk).trans
    ((hs.holds_shown hm hρ).lookup_eq hes k)

theorem get_eq (hk : k.Sound g) (hρ : g.numbering.Admits ρ) (hes : MapNode.Holds ρ m es) :
    (m.get? k s).1 = .ok (lookup (keysUnder ρ).test k es) := by
  obtain ⟨g', r, ρ', hr, ⟨-, hq⟩, hρ', hadm⟩ := (MapNode.yields_get hm hk).exists_admitted hs
  rw [hr, hq ρ' hρ' _ (hs.holds_shown hm hadm), hs.lookup_shown_eq hm hk hadm hρ hes]

theorem contains_eq (hk : k.Sound g) (hρ : g.numbering.Admits ρ) (hes : MapNode.Holds ρ m es) :
    (m.contains k s).1 = .ok (lookup (keysUnder ρ).test k es).isSome := by
  obtain ⟨g', b, ρ', hb, hq, hρ', hadm⟩ := (MapNode.yields_contains hm hk).exists_admitted hs
  rw [hb, hq ρ' hρ' _ (hs.holds_shown hm hadm), hs.lookup_shown_eq hm hk hadm hρ hes]

theorem size_eq (hρ : g.numbering.Admits ρ) (hes : MapNode.Holds ρ m es) :
    (m.size s).1 = .ok es.length := by
  obtain ⟨g', n, ρ', hn, hq, hρ', hadm⟩ := (MapNode.yields_size hm).exists_admitted hs
  rw [hn, hq ρ' hρ' _ (hs.holds_shown hm hadm), ((hs.holds_shown hm hρ).alike hes).length_eq]

end Maps

/-- A set answers from its members. -/
theorem hasElement_eq {s : Store} {g : Stage} (hs : s.At g) {t : SetNode} (ht : SetNode.Made g t)
    {k : Value} (hk : k.Sound g) {ρ : Ranking} (hρ : g.numbering.Admits ρ) : (t.contains k s).1 =
      .ok (lookup (keysUnder ρ).test k t.body.members.entries).isSome := by
  obtain ⟨g', b, ρ', hb, hq, hρ', hadm⟩ := (SetNode.yields_contains ht hk).exists_admitted hs
  have hmembers : ∀ e ∈ t.body.members.entries, e.1.Sound g :=
    fun e he => ht.parts _ (List.mem_map_of_mem he)
  rw [hb, hq ρ' hρ', hs.lookup_test_eq hadm hρ hmembers hk]

end Store.At

end DynVal
