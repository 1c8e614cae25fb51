import DynVal.Proofs.Storage.Merging
import DynVal.Proofs.Store.Equivalence
import DynVal.Proofs.Store.Updates

/-!
# The laws of merging

Maps are merged at once, by a further layer or with their layers combined, and what comes out is
compared by looking keys up in whatever it is stored in. All that counts is what a map finds at a
key (`MapNode.Finds`): a merge finds what the map in front finds, and else what the other one does.
Two maps that find the same are equal, unless they show a NaN or a recur marker.

* `MapNode.finds_merge`, `finds_diffNew`, `finds_make`: what the operations make, by what it finds.
* `Op.yields_sameMaps`: maps that find the same are equal.
* `merge_laws`: merging is associative and idempotent, the empty map is neutral, only what is new
  behind counts, and the keys of a map are those that another one has and those that it lacks.
-/

namespace DynVal

open Entries Memo Op

/-! ## What a map finds -/

/-- What is found in two layers, `h` being in front. -/
def layered (f h : Value → Option Value) : Value → Option Value := fun k => (h k).or (f k)

/-- What is left of one layer beside another. -/
def lacking (f h : Value → Option Value) : Value → Option Value :=
  fun k => if (h k).isSome then none else f k

theorem layered_assoc (f h k : Value → Option Value) :
    layered (layered f h) k = layered f (layered h k) :=
  funext fun _ => Option.or_assoc.symm

theorem layered_self (f : Value → Option Value) : layered f f = f :=
  funext fun _ => Option.or_self

theorem none_layered (f : Value → Option Value) : layered f (fun _ => none) = f := rfl

theorem layered_none (f : Value → Option Value) : layered (fun _ => none) f = f :=
  funext fun _ => Option.or_none

theorem layered_lacking (f h : Value → Option Value) : layered h (lacking f h) = layered f h := by
  funext k
  simp only [layered, lacking]
  cases h k <;> simp

/-- Keys and values are equal to themselves. -/
def Settled (ρ : Ranking) (es : List (Value × Value)) : Prop :=
  ∀ e ∈ es, (keysUnder ρ).test e.1 e.1 = true ∧ (keysUnder ρ).test e.2 e.2 = true

theorem Settled.alike {ρ : Ranking} {es fs : List (Value × Value)} (h : Settled ρ es)
    (ha : Alike (keysUnder ρ).test es fs) : Settled ρ fs := by
  have he := (lawful_keysUnder ρ).equiv
  intro f hf
  obtain ⟨e, hm, hfe⟩ := (ha.symm he).exists_mem hf
  obtain ⟨hkey, hvalue⟩ := h e hm
  refine ⟨?_, hfe.2 ▸ hvalue⟩
  rcases hfe.1 with heq | heq
  · rwa [heq]
  · exact he.trans heq (he.symm heq)

namespace MapNode

/-- A sound map of entries that are equal to themselves, with what it finds at a key under a
ranking. -/
structure Finds (g : Stage) (m : MapNode) (F : Ranking → Value → Option Value) : Prop where
  made : Made g m
  entries : ∀ ρ : Ranking, g.numbering.Admits ρ → ∃ es, Holds ρ m es ∧ Settled ρ es ∧
    ∀ k, lookup (keysUnder ρ).test k es = F ρ k

section Finds

variable {g g' : Stage} {m front other l r : MapNode} {F H : Ranking → Value → Option Value}
  {ρ : Ranking} {es fs : List (Value × Value)}

theorem Finds.extends (h : Finds g m F) (hext : g.Extends g') : Finds g' m F :=
  ⟨h.made.extends hext, fun ρ hρ => h.entries ρ (hext.numbering.admits hρ)⟩

theorem finds_merge (hm : Finds g m F) (hf : Finds g front H) :
    Yields g (m.merge front none) fun g' n => Finds g' n fun ρ => layered (F ρ) (H ρ) := by
  refine (yields_merge hm.made hf.made (by simp)).mono fun g' n hext hn => ⟨hn.1, fun ρ hρ => ?_⟩
  obtain ⟨es, hes, hsettled, hF⟩ := hm.entries ρ (hext.numbering.admits hρ)
  obtain ⟨fs, hfs, hsettled', hH⟩ := hf.entries ρ (hext.numbering.admits hρ)
  refine ⟨_, hn.2 ρ hρ es fs hes hfs, ?_, fun k => ?_⟩
  · exact forall_merge (P := fun x => (keysUnder ρ).test x x = true)
      (R := fun x => (keysUnder ρ).test x x = true) hsettled hsettled'
  · have hd := hes.keys_distinct
    refine (lookup_merge_all (lawful_keysUnder ρ).equiv hd hfs.keys_distinct k).trans ?_
    rw [hF, hH, layered]

theorem finds_make : Yields g (make []) fun g' n => Finds g' n fun _ _ => none := by
  refine (@yields_make g [] (by simp)).mono fun g' n hext hn => ⟨hn.1, fun ρ hρ => ?_⟩
  exact ⟨_, holds_make (hn.2 ρ hρ), fun e he => (List.not_mem_nil he).elim, fun k => rfl⟩

/-- Two maps beside each other hold what they hold, whether or not the layers of the second were
combined. -/
theorem holds_flatPair (hes : Holds ρ m es) (hfs : Holds ρ front fs) :
    (flatPairUnder ρ m front).1.Holds (keysUnder ρ) es ∧
      (flatPairUnder ρ m front).2.Holds (keysUnder ρ) fs := by
  unfold flatPairUnder
  split
  · exact ⟨hes.flat, hfs⟩
  · exact ⟨hes.flat, hfs.flat⟩

theorem finds_diffNew (hm : Finds g m F) (hf : Finds g front H) :
    Yields g (m.diffNew front) fun g' n => Finds g' n fun ρ => lacking (F ρ) (H ρ) := by
  refine (yields_diffNew_body hm.made hf.made).mono fun g' n hext hn => ⟨hn.1, fun ρ hρ => ?_⟩
  obtain ⟨es, hes, hsettled, hF⟩ := hm.entries ρ (hext.numbering.admits hρ)
  obtain ⟨fs, hfs, -, hH⟩ := hf.entries ρ (hext.numbering.admits hρ)
  obtain ⟨hx, hy⟩ := holds_flatPair hes hfs
  refine ⟨Entries.within (keysUnder ρ).test false es fs, ?_,
    fun e he => hsettled e (List.mem_filter.mp he).1, fun k => ?_⟩
  · rw [Holds, hn.2 ρ hρ]
    exact hx.diffNew (lawful_keysUnder ρ) hy
  · rw [lookup_within (lawful_keysUnder ρ).equiv, hF, hH, lacking]
    cases H ρ k <;> rfl

/-! ### Equality -/

/-- Two maps that find the same are equal. -/
theorem equal_of_finds (hl : Finds g l F) (hr : Finds g r F) (hρ : g.numbering.Admits ρ) :
    Value.equal ρ.rank (.map l) (.map r) = true := by
  have he := (lawful_keysUnder ρ).equiv
  obtain ⟨es, hes, hsettled, hF⟩ := hl.entries ρ hρ
  obtain ⟨fs, hfs, hsettled', hF'⟩ := hr.entries ρ hρ
  have hshown := holds_of_sound hr.made hρ
  have halike : Alike (keysUnder ρ).test (Value.entriesUnder ρ.rank l)
      (Value.entriesUnder ρ.rank r) := by
    refine ((holds_of_sound hl.made hρ).alike hes).trans he (.trans he ?_ (hfs.alike hshown))
    exact alike_of_lookup_eq he hes.keys_distinct hfs.keys_distinct (fun e hm => (hsettled e hm).1)
      (fun f hm => (hsettled' f hm).1) fun k => (hF k).trans (hF' k).symm
  have hright := hsettled'.alike (hfs.alike hshown)
  have htest {x y : Value} (h : (keysUnder ρ).test x y = true) : Value.equal ρ.rank x y = true :=
    (Keyed.test_within.mp h).2.2
  refine (Value.equal_iff_matches (hl.made.wellFormed hρ) (hr.made.wellFormed hρ)).mpr (.inr ?_)
  refine Multiset.Rel.mono halike fun e _ f hf hef => ?_
  obtain ⟨hkey, hvalue⟩ := hright f (Multiset.mem_coe.mp hf)
  refine ⟨htest ?_, htest (hef.2 ▸ hvalue)⟩
  rcases hef.1 with heq | heq
  · rwa [heq]
  · exact heq

end Finds

end MapNode

/-- What a map shows at a stage is what it finds there. -/
theorem Store.At.finds {s : Store} {g : Stage} {m : MapNode} (hs : s.At g)
    (hm : MapNode.Made g m) (hd : s.Definite (.map m)) :
    MapNode.Finds g m fun ρ k => lookup (keysUnder ρ).test k (s.shown m) := by
  refine ⟨hm, fun ρ hρ => ⟨s.shown m, hs.holds_shown hm hρ, fun e he => ?_, fun k => rfl⟩⟩
  have hself {p : Value} (hp : p.Sound g) (hc : p ∈ (Value.map m).contents s.shown) :
      (keysUnder ρ).test p p = true := by
    have hwf := hp.wellFormed hρ
    exact Keyed.test_within.mpr ⟨hwf, hwf, (Value.equal_self_iff hwf).mpr (hd.contents p hc).here⟩
  have hsound := hs.sound_of_shown hm e he
  have hcontents := Value.mem_contents_map he
  exact ⟨hself hsound.1 hcontents.1, hself hsound.2 hcontents.2⟩

/-! ## Comparing two maps -/

namespace Op

variable {α : Type} {g : Stage} {l r : Op MapNode} {F : Ranking → Value → Option Value}

/-- Works out two maps, one after the other, and compares them. -/
def sameMaps (l r : Op MapNode) : Op Bool := do equal (.map (← l)) (.map (← r))

/-- What holds of a result under every ranking, and does not mention it, holds. -/
theorem Yields.of_admits {op : Op α} {p : α → Prop}
    (h : Yields g op fun g' a => ∀ ρ : Ranking, g'.numbering.Admits ρ → p a) :
    Yields g op fun _ a => p a := by
  intro s hs
  obtain ⟨g', a, hext, hs', ha, hp⟩ := h s hs
  obtain ⟨ρ, hρ⟩ := hs'.exists_admitted
  exact ⟨g', a, hext, hs', ha, hp ρ hρ⟩

theorem yields_sameMaps (hl : Yields g l fun g' m => MapNode.Finds g' m F)
    (hr : ∀ g', g.Extends g' → Yields g' r fun g'' n => MapNode.Finds g'' n F) :
    Yields g (sameMaps l r) fun _ b => b = true := by
  refine yields_bind hl fun g₁ m h₁ hm => yields_bind (hr g₁ h₁) fun g₂ n h₂ hn => ?_
  have hm := hm.extends h₂
  refine Yields.of_admits ?_
  refine (yields_gives (gives_equal hm.made hn.made)).mono fun g₃ b h₃ hb ρ hρ => ?_
  rw [hb.2 ρ hρ]
  exact MapNode.equal_of_finds hm hn (h₃.numbering.admits hρ)

end Op

/-! ## Keys -/

namespace SetNode

variable {t : SetNode} {ρ : Ranking} {es : List (Value × Value)}

/-- The set has the keys of these entries. -/
def HasKeys (ρ : Ranking) (t : SetNode) (es : List (Value × Value)) : Prop :=
  t.body.members.Holds (keysUnder ρ) (Set.bare (es.map (·.1)))

theorem HasKeys.size_eq (h : t.HasKeys ρ es) : t.body.size = es.length := by
  have hsize : t.body.size = _ := Storage.Holds.size_eq h
  rwa [Set.bare, List.length_map, List.length_map] at hsize

theorem HasKeys.isSome_lookup (h : t.HasKeys ρ es) (x : Value) :
    (lookup (keysUnder ρ).test x t.body.members.entries).isSome =
      (lookup (keysUnder ρ).test x es).isSome := by
  rw [Storage.Holds.lookup_eq (lawful_keysUnder ρ) h, isSome_lookup_keys]

end SetNode

namespace MapNode

variable {g : Stage} {m other : MapNode}

/-- The keys of one map that another has, or lacks, make a set that has these. -/
theorem yields_keysWhere_holds (present : Bool) (hm : Made g m) (ho : Made g other) :
    Yields g (do SetNode.make (← withFlatPair m other fun x y =>
      (x.entriesWhere Memo.keyed present y) >>= fun es => pure (es.map (·.1)))) fun g' t =>
        SetNode.Made g' t ∧ ∀ ρ : Ranking, g'.numbering.Admits ρ → ∀ es fs, Holds ρ m es →
          Holds ρ other fs → t.HasKeys ρ (Entries.within (keysUnder ρ).test present es fs) := by
  refine yields_bind (yields_withFlatPair hm ho fun _ _ hx hy =>
    Tracking.gives_keysWhere (keys_under g) present hx hy) fun g' ks hext h => ?_
  refine (SetNode.yields_make fun k hk => (h.1 k hk).extends hext).mono fun g'' t hext' ht =>
    ⟨ht.1, fun ρ hρ es fs hes hfs => ?_⟩
  have hk := lawful_keysUnder ρ
  obtain ⟨hx, hy⟩ := holds_flatPair hes hfs
  have hks := h.2 ρ (hext'.numbering.admits hρ)
  rw [Map.entriesWhere_eq hk present hy] at hks
  have hd : Distinct (keysUnder ρ).test (Entries.within (keysUnder ρ).test present
      (Storage.entries ((flatPairUnder ρ m other).1.resolved (m := Id) (keysUnder ρ))) fs) :=
    hx.resolved.lawful.distinct.filter _
  rw [SetNode.HasKeys, ht.2 ρ hρ, hks]
  exact (Set.holds_keys hk hd).of_alike hk
    (hx.resolved.alike.within hk.equiv present (.refl fs) (hy.distinct hk)).keys

end MapNode

/-- The keys of a map that another lacks and those that it has, and the size of the map. -/
def MapNode.partKeys (m other : MapNode) : Op (SetNode × SetNode × Nat) := do
  return (← m.diffKeys other, ← m.commonKeys other, ← m.size)

section Keys

variable {s : Store} {g : Stage} (hs : s.At g) {m other : MapNode}

theorem MapNode.yields_partKeys (hm : MapNode.Made g m) (ho : MapNode.Made g other) :
    Yields g (m.partKeys other) fun g' p => (SetNode.Made g' p.1 ∧ SetNode.Made g' p.2.1) ∧
      ∀ ρ : Ranking, g'.numbering.Admits ρ → ∀ es fs, Holds ρ m es → Holds ρ other fs →
        p.1.HasKeys ρ (Entries.within (keysUnder ρ).test false es fs) ∧
        p.2.1.HasKeys ρ (Entries.within (keysUnder ρ).test true es fs) ∧ p.2.2 = es.length := by
  refine yields_bind (yields_keysWhere_holds false hm ho) fun g₁ d h₁ hd => ?_
  have hm₁ := hm.extends h₁
  refine yields_bind (yields_keysWhere_holds true hm₁ (ho.extends h₁)) fun g₂ k h₂ hk => ?_
  refine yields_bind (yields_size (hm₁.extends h₂)) fun g₃ n h₃ hn => yields_pure ?_
  refine ⟨⟨(hd.1.extends h₂).extends h₃, hk.1.extends h₃⟩, fun ρ hρ es fs hes hfs => ?_⟩
  have hρ₂ := h₃.numbering.admits hρ
  exact ⟨hd.2 ρ (h₂.numbering.admits hρ₂) es fs hes hfs, hk.2 ρ hρ₂ es fs hes hfs, hn ρ hρ es hes⟩

include hs

/-- The two sets of keys part those of the map. -/
theorem Store.At.parts_keys (hm : MapNode.Made g m) (ho : MapNode.Made g other) :
    ∃ d k n t, m.partKeys other s = (.ok (d, k, n), t) ∧ d.body.size + k.body.size = n ∧
      ∀ x : Value, x.Sound g → ∃ p q, (m.contains x t).1 = .ok p ∧ (other.contains x t).1 = .ok q ∧
        (d.contains x t).1 = .ok (p && !q) ∧ (k.contains x t).1 = .ok (p && q) := by
  obtain ⟨g', ⟨d, k, n⟩, hext, ht, hrun, ⟨hd, hk⟩, hparts⟩ := MapNode.yields_partKeys hm ho s hs
  obtain ⟨ρ, hρ⟩ := ht.exists_admitted
  have hm := hm.extends hext
  have ho := ho.extends hext
  have hes := ht.holds_shown hm hρ
  have hfs := ht.holds_shown ho hρ
  obtain ⟨hdkeys, hkkeys, rfl⟩ := hparts ρ hρ _ _ hes hfs
  refine ⟨d, k, _, _, Prod.ext hrun rfl, ?_, fun x hx => ?_⟩
  · rw [hdkeys.size_eq, hkkeys.size_eq, length_within]
  · have hx := hx.extends hext
    refine ⟨_, _, ht.contains_eq hm hx hρ hes, ht.contains_eq ho hx hρ hfs, ?_, ?_⟩
    · rw [ht.hasElement_eq hd hx hρ, hdkeys.isSome_lookup,
        isSome_lookup_within (lawful_keysUnder ρ).equiv, beq_false]
    · rw [ht.hasElement_eq hk hx hρ, hkkeys.isSome_lookup,
        isSome_lookup_within (lawful_keysUnder ρ).equiv, beq_true]

end Keys

/-! ## The laws -/

namespace MapNode

section Laws

variable {g : Stage} {a b c : MapNode} {F H K : Ranking → Value → Option Value} (ha : Finds g a F)
  (hb : Finds g b H) (hc : Finds g c K)
include ha

theorem yields_merge_self : Yields g (sameMaps (a.merge a none) (pure a)) fun _ r => r = true := by
  refine yields_sameMaps (finds_merge ha ha) fun g' h => ?_
  simp only [layered_self]
  exact yields_pure (ha.extends h)

theorem yields_merge_new :
    Yields g (sameMaps (do a.merge (← make []) none) (pure a)) fun _ r => r = true := by
  refine yields_sameMaps (yields_bind finds_make fun g₁ n h₁ hn => finds_merge (ha.extends h₁) hn)
    fun g' h => ?_
  simp only [none_layered]
  exact yields_pure (ha.extends h)

theorem yields_new_merge :
    Yields g (sameMaps (pure a) (do (← make []).merge a none)) fun _ r => r = true := by
  refine yields_sameMaps (yields_pure ha) fun g' h => ?_
  have hmerge := yields_bind finds_make fun g₁ n h₁ hn => finds_merge hn ((ha.extends h).extends h₁)
  simpa only [layered_none] using hmerge

include hb

theorem yields_merge_diffNew : Yields g
    (sameMaps (a.merge b none) (do b.merge (← a.diffNew b) none)) fun _ r => r = true := by
  refine yields_sameMaps (finds_merge ha hb) fun g' h => ?_
  have hb := hb.extends h
  have hmerge := yields_bind (finds_diffNew (ha.extends h) hb) fun g₁ n h₁ hn =>
    finds_merge (hb.extends h₁) hn
  simpa only [layered_lacking] using hmerge

include hc

theorem yields_merge_assoc : Yields g (sameMaps (do (← a.merge b none).merge c none)
    (do a.merge (← b.merge c none) none)) fun _ r => r = true := by
  refine yields_sameMaps (yields_bind (finds_merge ha hb) fun g₁ ab h₁ hab =>
    finds_merge hab (hc.extends h₁)) fun g' h => ?_
  simp only [layered_assoc]
  exact yields_bind (finds_merge (hb.extends h) (hc.extends h)) fun g₁ bc h₁ hbc =>
    finds_merge ((ha.extends h).extends h₁) hbc

end Laws

end MapNode

/-- In every history, for maps that show neither a NaN nor a recur marker, in whatever way they are
stored. -/
theorem merge_laws {host : Host} {s : Store} {log : Log} (h : History host s log) {a b c : MapNode}
    (ha : Held log (.map a)) (hb : Held log (.map b)) (hc : Held log (.map c))
    (hda : s.Definite (.map a)) (hdb : s.Definite (.map b)) (hdc : s.Definite (.map c)) :
    -- merging is associative and idempotent
    (sameMaps (do (← a.merge b none).merge c none) (do a.merge (← b.merge c none) none) s).1 =
      .ok true ∧
    (sameMaps (a.merge a none) (pure a) s).1 = .ok true ∧
    -- the empty map is neutral
    (sameMaps (do a.merge (← MapNode.make []) none) (pure a) s).1 = .ok true ∧
    (sameMaps (pure a) (do (← MapNode.make []).merge a none) s).1 = .ok true ∧
    -- behind another map only what it lacks counts
    (sameMaps (a.merge b none) (do b.merge (← a.diffNew b) none) s).1 = .ok true ∧
    -- the keys that the other map lacks and those that it has part the keys of a map
    ∃ d k n t, a.partKeys b s = (.ok (d, k, n), t) ∧ d.body.size + k.body.size = n ∧
      ∀ x, Held log x → ∃ p q, (a.contains x t).1 = .ok p ∧ (b.contains x t).1 = .ok q ∧
        (d.contains x t).1 = .ok (p && !q) ∧ (k.contains x t).1 = .ok (p && q) := by
  obtain ⟨g, hs, hk⟩ := h.exists_stage
  have fa := hs.finds (hk.held ha) hda
  have fb := hs.finds (hk.held hb) hdb
  have fc := hs.finds (hk.held hc) hdc
  have hanswer {op : Op Bool} (hop : Yields g op fun _ r => r = true) : (op s).1 = .ok true := by
    obtain ⟨g', r, -, -, hr, rfl⟩ := hop s hs
    exact hr
  obtain ⟨d, k, n, t, hrun, hsize, hparts⟩ := hs.parts_keys fa.made fb.made
  exact ⟨hanswer (MapNode.yields_merge_assoc fa fb fc), hanswer (MapNode.yields_merge_self fa),
    hanswer (MapNode.yields_merge_new fa), hanswer (MapNode.yields_new_merge fa),
    hanswer (MapNode.yields_merge_diffNew fa fb),
    d, k, n, t, hrun, hsize, fun x hx => hparts x (hk.held hx)⟩

/-- Two maps that share a key and have one of their own each. -/
theorem merge_laws_shared :
    let yes : Value := .bool true
    let no : Value := .bool false
    let a : MapNode := ⟨0, .flat (.slice [(yes, yes), (.nil, no)])⟩
    let b : MapNode := ⟨1, .flat (.slice [(yes, no), (no, .nil)])⟩
    ∃ s, History default s [(.makeMap [(yes, no), (no, .nil)], .ok (.value (.map b))),
      (.makeMap [(yes, yes), (.nil, no)], .ok (.value (.map a)))] ∧
      (sameMaps (do (← a.merge b none).merge a none) (do a.merge (← b.merge a none) none) s).1 =
        .ok true ∧
      (sameMaps (a.merge b none) (do b.merge (← a.diffNew b) none) s).1 = .ok true := by
  intro yes no a b
  let log : Log := [(.makeMap [(yes, no), (no, .nil)], .ok (.value (.map b))),
    (.makeMap [(yes, yes), (.nil, no)], .ok (.value (.map a)))]
  have hscalars : ∀ v ∈ [yes, no, no, .nil, yes, yes, .nil, no], v.level = 0 := by decide
  have hmade : History default _ log :=
    (History.start.ask (.makeMap [(yes, yes), (.nil, no)])
      fun v hv => .scalar (hscalars v (List.mem_append_right [yes, no, no, .nil] hv))).ask
      (.makeMap [(yes, no), (no, .nil)])
      fun v hv => .scalar (hscalars v (List.mem_append_left [yes, yes, .nil, no] hv))
  have hdefinite {s : Store} {m : MapNode} (hm : ((Value.map m).contents s.shown).all
      (fun p => p.isDefinite && (p.contents s.shown).isEmpty) = true) : s.Definite (.map m) := by
    refine .intro rfl fun p hp => ?_
    obtain ⟨hd, hc⟩ := (Bool.and_eq_true _ _).mp (List.all_eq_true.mp hm p hp)
    refine .intro hd ?_
    rw [List.isEmpty_iff.mp hc]
    exact nofun
  have ha : Held log (.map a) :=
    .replied (q := .makeMap [(yes, yes), (.nil, no)]) (r := .value (.map a)) (by simp [log])
      (by simp [Reply.held])
  have hb : Held log (.map b) :=
    .replied (q := .makeMap [(yes, no), (no, .nil)]) (r := .value (.map b)) (by simp [log])
      (by simp [Reply.held])
  have hlaws := merge_laws hmade ha hb ha (hdefinite rfl) (hdefinite rfl) (hdefinite rfl)
  exact ⟨_, hmade, hlaws.1, hlaws.2.2.2.2.1⟩

end DynVal
