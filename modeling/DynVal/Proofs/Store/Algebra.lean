import DynVal.Proofs.Store.Lookups
import DynVal.Proofs.Store.Merging

/-!
# The algebra of sets

Sets are united, intersected and subtracted from each other in whatever they are stored in, and
their elements are told apart by equality, under which a NaN and a recur marker differ from
themselves. Such an element is contained in no set, and a set that it was added to twice has it
twice. Still the results contain what they should, and their sizes add up.

* `Store.Collects`: a set without equal elements, and what it is found to contain.
* `Store.At.collects_union`, `size_union` and so on: what the operations gave in a history.
* `SetNode.finds_union`, `finds_intersection`: what the operations make, where all elements are
  equal to themselves. Two such sets that contain the same are equal (`Op.yields_sameSets`).
* `set_algebra`: what unions, intersections and differences contain, how large they are, and the
  laws up to equality.
-/

namespace DynVal

open Entries Memo Op

/-! ## What a set contains -/

/-- Whether a set is found to contain a value in a store. -/
def Store.has (s : Store) (t : SetNode) (x : Value) : Bool :=
  (t.body.contains Memo.keyed x s.memo).1

/-- No two elements are equal, and of the values at hand the set contains those that are picked. -/
structure Store.Collects (s : Store) (log : Log) (t : SetNode) (p : Value → Bool) : Prop where
  distinct : t.body.elements.Pairwise fun x y => s.same x y = false
  has_eq : ∀ x, Held log x → s.has t x = p x

/-- A request was answered with a set. -/
def Log.Gave (log : Log) (q : Request) (t : SetNode) : Prop := (q, .ok (.value (.set t))) ∈ log

section Collects

variable {s : Store} {g : Stage} {log : Log} {t a b u : SetNode} {x : Value} {ρ : Ranking}
  {es : List (Value × Unit)}

theorem Store.contains_eq_has (s : Store) (t : SetNode) (x : Value) :
    (t.contains x s).1 = .ok (s.has t x) := rfl

theorem Store.At.has_eq (hs : s.At g) (ht : SetNode.Made g t) (hx : x.Sound g)
    (hρ : g.numbering.Admits ρ) :
    s.has t x = (lookup (keysUnder ρ).test x t.body.members.entries).isSome :=
  Except.ok.inj ((s.contains_eq_has t x).symm.trans (hs.hasElement_eq ht hx hρ))

/-- No two elements of a set are equal. -/
theorem Store.At.pairwise_elements (hs : s.At g) (ht : SetNode.Made g t) :
    t.body.elements.Pairwise fun x y => s.same x y = false := by
  obtain ⟨ρ, hρ⟩ := hs.exists_admitted
  have hd : Distinct (keysUnder ρ).test t.body.members.entries :=
    (SetNode.holds_of_sound ht hρ).lawful.distinct
  refine List.pairwise_map.mpr (hd.imp_of_mem fun {e f} he hf hef => ?_)
  have hsound {e : Value × Unit} (he : e ∈ t.body.members.entries) : e.1.Sound g :=
    (SetNode.members_sound ht e he).1
  rw [hs.same_eq_test hρ _ _ (hsound he) (hsound hf)]
  exact hef

theorem Store.At.collects (hs : s.At g) (hk : log.Kept g) (ht : SetNode.Made g t)
    (hρ : g.numbering.Admits ρ) (hes : SetNode.Holds ρ t es) {p : Value → Bool}
    (hp : ∀ x, Held log x → (lookup (keysUnder ρ).test x es).isSome = p x) :
    s.Collects log t p := by
  refine ⟨hs.pairwise_elements ht, fun x hx => ?_⟩
  rw [hs.has_eq ht (hk.held hx) hρ, Storage.Holds.lookup_eq (lawful_keysUnder ρ) hes, hp x hx]

namespace Log.Kept

variable (hk : log.Kept g)
include hk

theorem made {q : Request} (h : log.Gave q t) : SetNode.Made g t :=
  hk.held (.reply h)

theorem holds_union (h : log.Gave (.union a b) u) (hρ : g.numbering.Admits ρ) :
    SetNode.Holds ρ u (Entries.merge (keysUnder ρ).test (fun _ => false) a.body.members.entries
      b.body.members.entries) := by
  obtain ⟨n, heq, hn⟩ := hk.means _ _ h ρ hρ
  cases heq
  exact hn

theorem holds_intersection (h : log.Gave (.intersection a b) u) (hρ : g.numbering.Admits ρ) :
    SetNode.Holds ρ u (Entries.within (keysUnder ρ).test true a.body.members.entries
      b.body.members.entries) := by
  obtain ⟨n, heq, hn⟩ := hk.means _ _ h ρ hρ
  cases heq
  exact hn

theorem holds_difference (h : log.Gave (.difference a b) u) (hρ : g.numbering.Admits ρ) :
    SetNode.Holds ρ u (Entries.within (keysUnder ρ).test false a.body.members.entries
      b.body.members.entries) := by
  obtain ⟨n, heq, hn⟩ := hk.means _ _ h ρ hρ
  cases heq
  exact hn

end Log.Kept

/-! ## What the operations gave -/

section Gave

variable {i d e : SetNode} (hs : s.At g) (hk : log.Kept g) (ha : SetNode.Made g a)
  (hb : SetNode.Made g b)
include hs hk ha hb

theorem Store.At.collects_union (hu : log.Gave (.union a b) u) :
    s.Collects log u fun x => s.has a x || s.has b x := by
  obtain ⟨ρ, hρ⟩ := hs.exists_admitted
  have hda := (SetNode.holds_of_sound ha hρ).lawful.distinct
  have hdb := (SetNode.holds_of_sound hb hρ).lawful.distinct
  refine hs.collects hk (hk.made hu) hρ (hk.holds_union hu hρ) ?_
  intro x hx
  rw [lookup_merge_all (lawful_keysUnder ρ).equiv hda hdb, Option.isSome_or, Bool.or_comm,
    hs.has_eq ha (hk.held hx) hρ, hs.has_eq hb (hk.held hx) hρ]

theorem Store.At.collects_intersection (hi : log.Gave (.intersection a b) i) :
    s.Collects log i fun x => s.has a x && s.has b x := by
  obtain ⟨ρ, hρ⟩ := hs.exists_admitted
  refine hs.collects hk (hk.made hi) hρ (hk.holds_intersection hi hρ) ?_
  intro x hx
  rw [isSome_lookup_within (lawful_keysUnder ρ).equiv, beq_true, hs.has_eq ha (hk.held hx) hρ,
    hs.has_eq hb (hk.held hx) hρ]

theorem Store.At.collects_difference (hd : log.Gave (.difference a b) d) :
    s.Collects log d fun x => s.has a x && !s.has b x := by
  obtain ⟨ρ, hρ⟩ := hs.exists_admitted
  refine hs.collects hk (hk.made hd) hρ (hk.holds_difference hd hρ) ?_
  intro x hx
  rw [isSome_lookup_within (lawful_keysUnder ρ).equiv, beq_false, hs.has_eq ha (hk.held hx) hρ,
    hs.has_eq hb (hk.held hx) hρ]

/-- A union is as large as one set and what the other has in addition. -/
theorem Store.At.size_union (hu : log.Gave (.union a b) u) (he : log.Gave (.difference b a) e) :
    u.body.size = a.body.size + e.body.size := by
  obtain ⟨ρ, hρ⟩ := hs.exists_admitted
  have hda := (SetNode.holds_of_sound ha hρ).lawful.distinct
  have hdb := (SetNode.holds_of_sound hb hρ).lawful.distinct
  have hunion : u.body.size = _ := Storage.Holds.size_eq (hk.holds_union hu hρ)
  have hrest : e.body.size = _ := Storage.Holds.size_eq (hk.holds_difference he hρ)
  rw [hunion, hrest, length_merge_all (lawful_keysUnder ρ).equiv hda hdb]
  rfl

omit ha hb in
/-- What two sets have in common and what only the first has make up the first. -/
theorem Store.At.size_parts (hi : log.Gave (.intersection a b) i)
    (hd : log.Gave (.difference a b) d) : a.body.size = i.body.size + d.body.size := by
  obtain ⟨ρ, hρ⟩ := hs.exists_admitted
  have hcommon : i.body.size = _ := Storage.Holds.size_eq (hk.holds_intersection hi hρ)
  have hrest : d.body.size = _ := Storage.Holds.size_eq (hk.holds_difference hd hρ)
  rw [hcommon, hrest, Nat.add_comm, length_within]
  rfl

end Gave

end Collects

/-! ## Sets of elements that are equal to themselves -/

namespace SetNode

/-- A sound set of elements that are equal to themselves, with what it contains under a ranking. -/
structure Finds (g : Stage) (t : SetNode) (F : Ranking → Value → Bool) : Prop where
  made : Made g t
  found : ∀ ρ : Ranking, g.numbering.Admits ρ →
    Found (keysUnder ρ).test t.body.members.entries
  isSome_lookup : ∀ ρ : Ranking, g.numbering.Admits ρ → ∀ k,
    (lookup (keysUnder ρ).test k t.body.members.entries).isSome = F ρ k

section Finds

variable {g g' : Stage} {a b l r : SetNode} {F H : Ranking → Value → Bool} {ρ : Ranking}

theorem Finds.extends (h : Finds g a F) (hext : g.Extends g') : Finds g' a F :=
  ⟨h.made.extends hext, fun ρ hρ => h.found ρ (hext.numbering.admits hρ),
    fun ρ hρ => h.isSome_lookup ρ (hext.numbering.admits hρ)⟩

theorem finds_of_holds (ha : Made g a)
    (h : ∀ ρ : Ranking, g.numbering.Admits ρ → ∃ es, Holds ρ a es ∧ Found (keysUnder ρ).test es ∧
      ∀ k, (lookup (keysUnder ρ).test k es).isSome = F ρ k) : Finds g a F := by
  refine ⟨ha, fun ρ hρ => ?_, fun ρ hρ k => ?_⟩
  · have he := (lawful_keysUnder ρ).equiv
    obtain ⟨es, hheld, hfound, -⟩ := h ρ hρ
    exact hfound.alike he (hheld.alike.symm he)
  · obtain ⟨es, hheld, -, hF⟩ := h ρ hρ
    rw [Storage.Holds.lookup_eq (lawful_keysUnder ρ) hheld, hF]

theorem finds_union (ha : Finds g a F) (hb : Finds g b H) :
    Yields g (a.union b) fun g' u => Finds g' u fun ρ k => F ρ k || H ρ k := by
  refine (yields_union ha.made hb.made).mono fun g' u hext hu => ?_
  refine finds_of_holds hu.1 fun ρ hρ => ?_
  have hadm := hext.numbering.admits hρ
  have hk := lawful_keysUnder ρ
  have hda := (holds_of_sound ha.made hadm).lawful.distinct
  have hdb := (holds_of_sound hb.made hadm).lawful.distinct
  have hheld := @Set.holds_union _ _ hk a.body b.body _ (holds_of_sound ha.made hadm)
  rw [← hu.2 ρ hρ] at hheld
  refine ⟨_, hheld, ?_, fun k => ?_⟩
  · exact fun e he => (forall_merge (P := fun x => (keysUnder ρ).test x x = true)
      (R := fun _ => True) (fun e he => ⟨ha.found ρ hadm e he, trivial⟩)
      (fun e he => ⟨hb.found ρ hadm e he, trivial⟩) e he).1
  · rw [lookup_merge_all hk.equiv hda hdb, Option.isSome_or, ha.isSome_lookup ρ hadm,
      hb.isSome_lookup ρ hadm, Bool.or_comm]

theorem finds_intersection (ha : Finds g a F) (hb : Finds g b H) :
    Yields g (a.intersection b) fun g' u => Finds g' u fun ρ k => F ρ k && H ρ k := by
  refine (yields_intersection ha.made hb.made).mono fun g' u hext hu => ?_
  refine finds_of_holds hu.1 fun ρ hρ => ?_
  have hadm := hext.numbering.admits hρ
  have hk := lawful_keysUnder ρ
  have hheld := Set.holds_intersection hk (holds_of_sound ha.made hadm).lawful
    (holds_of_sound hb.made hadm).lawful
  have hbody : u.body = a.body.intersection (m := Id) (keysUnder ρ) b.body := hu.2 ρ hρ
  rw [← hbody] at hheld
  refine ⟨_, hheld, ?_, fun k => ?_⟩
  · exact fun e he => ha.found ρ hadm e (List.mem_filter.mp he).1
  · rw [isSome_lookup_within hk.equiv, ha.isSome_lookup ρ hadm, hb.isSome_lookup ρ hadm, beq_true]

/-- Two sets that contain the same are equal. -/
theorem equal_of_finds (hl : Finds g l F) (hr : Finds g r H) (h : ∀ ρ k, F ρ k = H ρ k)
    (hρ : g.numbering.Admits ρ) : Value.equal ρ.rank (.set l) (.set r) = true := by
  have he := (lawful_keysUnder ρ).equiv
  have hlookup (k : Value) : lookup (keysUnder ρ).test k l.body.members.entries =
      lookup (keysUnder ρ).test k r.body.members.entries := by
    have hk := (hl.isSome_lookup ρ hρ k).trans ((h ρ k).trans (hr.isSome_lookup ρ hρ k).symm)
    revert hk
    cases lookup (keysUnder ρ).test k l.body.members.entries <;>
      cases lookup (keysUnder ρ).test k r.body.members.entries <;> simp
  have halike := alike_of_lookup_eq he (holds_of_sound hl.made hρ).lawful.distinct
    (holds_of_sound hr.made hρ).lawful.distinct (hl.found ρ hρ) (hr.found ρ hρ) hlookup
  refine (Value.equal_iff_matches (hl.made.wellFormed hρ) (hr.made.wellFormed hρ)).mpr (.inr ?_)
  show Multiset.Rel _ (l.body.members.entries.map (·.1) : Multiset Value)
    (r.body.members.entries.map (·.1) : Multiset Value)
  rw [← Multiset.map_coe, ← Multiset.map_coe, Multiset.rel_map]
  refine Multiset.Rel.mono halike fun e hm f _ hef => ?_
  have htest : (keysUnder ρ).test e.1 f.1 = true := by
    rcases hef.1 with heq | heq
    · rw [← heq]
      exact hl.found ρ hρ e (Multiset.mem_coe.mp hm)
    · exact heq
  exact (Keyed.test_within.mp htest).2.2

end Finds

end SetNode

/-- A set of elements without NaN and recur markers contains what is looked up in it. -/
theorem SetNode.finds_of_definite {s : Store} {g : Stage} {t : SetNode} (ht : SetNode.Made g t)
    (hd : s.Definite (.set t)) : SetNode.Finds g t fun ρ k =>
      (lookup (keysUnder ρ).test k t.body.members.entries).isSome := by
  refine ⟨ht, fun ρ hρ e he => ?_, fun ρ hρ k => rfl⟩
  have hwf := (SetNode.members_sound ht e he).1.wellFormed hρ
  refine Keyed.test_within.mpr ⟨hwf, hwf, (Value.equal_self_iff hwf).mpr ?_⟩
  exact (hd.contents e.1 (List.mem_map_of_mem he)).here

/-! ## The laws -/

namespace Op

variable {g : Stage} {l r : Op SetNode} {F H : Ranking → Value → Bool}

/-- Works out two sets, one after the other, and compares them. -/
def sameSets (l r : Op SetNode) : Op Bool := do equal (.set (← l)) (.set (← r))

theorem yields_sameSets (hl : Yields g l fun g' t => SetNode.Finds g' t F)
    (hr : ∀ g', g.Extends g' → Yields g' r fun g'' t => SetNode.Finds g'' t H)
    (h : ∀ ρ k, F ρ k = H ρ k) : Yields g (sameSets l r) fun _ b => b = true := by
  refine yields_bind hl fun g₁ t h₁ ht => yields_bind (hr g₁ h₁) fun g₂ u h₂ hu => ?_
  have ht := ht.extends h₂
  refine Yields.of_admits ?_
  refine (yields_gives (gives_equal ht.made hu.made)).mono fun g₃ b h₃ hb ρ hρ => ?_
  rw [hb.2 ρ hρ]
  exact SetNode.equal_of_finds ht hu h (h₃.numbering.admits hρ)

end Op

namespace SetNode

section Laws

variable {g : Stage} {a b c : SetNode} {F H K : Ranking → Value → Bool} (ha : Finds g a F)
  (hb : Finds g b H) (hc : Finds g c K)
include ha hb

theorem yields_union_comm :
    Yields g (sameSets (a.union b) (b.union a)) fun _ r => r = true := by
  refine yields_sameSets (finds_union ha hb) (fun g' h => ?_) fun ρ k => Bool.or_comm _ _
  exact finds_union (hb.extends h) (ha.extends h)

theorem yields_intersection_comm :
    Yields g (sameSets (a.intersection b) (b.intersection a)) fun _ r => r = true := by
  refine yields_sameSets (finds_intersection ha hb) (fun g' h => ?_) fun ρ k => Bool.and_comm _ _
  exact finds_intersection (hb.extends h) (ha.extends h)

include hc

theorem yields_union_assoc : Yields g (sameSets (do (← a.union b).union c)
    (do a.union (← b.union c))) fun _ r => r = true := by
  refine yields_sameSets (yields_bind (finds_union ha hb) fun g₁ ab h₁ hab =>
    finds_union hab (hc.extends h₁)) (fun g' h => ?_) fun ρ k => Bool.or_assoc _ _ _
  exact yields_bind (finds_union (hb.extends h) (hc.extends h)) fun g₁ bc h₁ hbc =>
    finds_union ((ha.extends h).extends h₁) hbc

theorem yields_intersection_assoc : Yields g (sameSets (do (← a.intersection b).intersection c)
    (do a.intersection (← b.intersection c))) fun _ r => r = true := by
  refine yields_sameSets (yields_bind (finds_intersection ha hb) fun g₁ ab h₁ hab =>
    finds_intersection hab (hc.extends h₁)) (fun g' h => ?_) fun ρ k => Bool.and_assoc _ _ _
  exact yields_bind (finds_intersection (hb.extends h) (hc.extends h)) fun g₁ bc h₁ hbc =>
    finds_intersection ((ha.extends h).extends h₁) hbc

theorem yields_intersection_union : Yields g (sameSets (do a.intersection (← b.union c))
    (do (← a.intersection b).union (← a.intersection c))) fun _ r => r = true := by
  refine yields_sameSets (yields_bind (finds_union hb hc) fun g₁ bc h₁ hbc =>
    finds_intersection (ha.extends h₁) hbc) (fun g' h => ?_)
    fun ρ k => Bool.and_or_distrib_left _ _ _
  have ha := ha.extends h
  refine yields_bind (finds_intersection ha (hb.extends h)) fun g₁ ab h₁ hab => ?_
  refine yields_bind (finds_intersection (ha.extends h₁) ((hc.extends h).extends h₁))
    fun g₂ ac h₂ hac => ?_
  exact finds_union (hab.extends h₂) hac

end Laws

end SetNode

/-- In every history, for sets of any elements, in whatever way they are stored. -/
theorem set_algebra {host : Host} {s : Store} {log : Log} (h : History host s log)
    {a b c : SetNode} (ha : Held log (.set a)) (hb : Held log (.set b)) (hc : Held log (.set c)) :
    -- the operations are answered with sets
    (∃ u i d : SetNode, (Request.perform (.union a b) s).1 = .ok (.value (.set u)) ∧
      (Request.perform (.intersection a b) s).1 = .ok (.value (.set i)) ∧
      (Request.perform (.difference a b) s).1 = .ok (.value (.set d))) ∧
    -- what the sets contain
    (∀ u, log.Gave (.union a b) u → s.Collects log u fun x => s.has a x || s.has b x) ∧
    (∀ i, log.Gave (.intersection a b) i → s.Collects log i fun x => s.has a x && s.has b x) ∧
    (∀ d, log.Gave (.difference a b) d → s.Collects log d fun x => s.has a x && !s.has b x) ∧
    -- how large they are
    (∀ u e, log.Gave (.union a b) u → log.Gave (.difference b a) e →
      u.body.size = a.body.size + e.body.size) ∧
    (∀ i d, log.Gave (.intersection a b) i → log.Gave (.difference a b) d →
      a.body.size = i.body.size + d.body.size) ∧
    -- without NaN and recur markers, the laws up to equality
    (s.Definite (.set a) → s.Definite (.set b) → s.Definite (.set c) →
      (sameSets (a.union b) (b.union a) s).1 = .ok true ∧
      (sameSets (a.intersection b) (b.intersection a) s).1 = .ok true ∧
      (sameSets (do (← a.union b).union c) (do a.union (← b.union c)) s).1 = .ok true ∧
      (sameSets (do (← a.intersection b).intersection c)
        (do a.intersection (← b.intersection c)) s).1 = .ok true ∧
      (sameSets (do a.intersection (← b.union c))
        (do (← a.intersection b).union (← a.intersection c)) s).1 = .ok true) := by
  obtain ⟨g, hs, hk⟩ := h.exists_stage
  have hsa := hk.held ha
  have hsb := hk.held hb
  have hsc := hk.held hc
  refine ⟨?_, fun u hu => hs.collects_union hk hsa hsb hu,
    fun i hi => hs.collects_intersection hk hsa hsb hi,
    fun d hd => hs.collects_difference hk hsa hsb hd,
    fun u e hu he => hs.size_union hk hsa hsb hu he, fun i d hi hd => hs.size_parts hk hi hd, ?_⟩
  · obtain ⟨u, hu⟩ := (SetNode.yields_union hsa hsb).answers hs fun u => .value (.set u)
    obtain ⟨i, hi⟩ := (SetNode.yields_intersection hsa hsb).answers hs fun i => .value (.set i)
    obtain ⟨d, hd⟩ := (SetNode.yields_difference hsa hsb).answers hs fun d => .value (.set d)
    exact ⟨u, i, d, hu, hi, hd⟩
  · intro hda hdb hdc
    have fa := SetNode.finds_of_definite hsa hda
    have fb := SetNode.finds_of_definite hsb hdb
    have fc := SetNode.finds_of_definite hsc hdc
    exact ⟨(SetNode.yields_union_comm fa fb).answer_eq hs,
      (SetNode.yields_intersection_comm fa fb).answer_eq hs,
      (SetNode.yields_union_assoc fa fb fc).answer_eq hs,
      (SetNode.yields_intersection_assoc fa fb fc).answer_eq hs,
      (SetNode.yields_intersection_union fa fb fc).answer_eq hs⟩

/-- A set with a NaN, one that it shares an element with, and what comes of them. -/
theorem set_algebra_nan :
    let nan : Value := .number (.ofBits 0x7ff8000000000000)
    let yes : Value := .bool true
    let a : SetNode := ⟨0, ⟨.slice [(nan, ()), (yes, ())]⟩⟩
    let b : SetNode := ⟨1, ⟨.slice [(yes, ()), (.nil, ())]⟩⟩
    let u : SetNode := ⟨2, ⟨.slice [(nan, ()), (yes, ()), (.nil, ())]⟩⟩
    let i : SetNode := ⟨3, ⟨.slice [(yes, ())]⟩⟩
    let e : SetNode := ⟨4, ⟨.slice [(.nil, ())]⟩⟩
    let log : Log := [(.difference b a, .ok (.value (.set e))),
      (.intersection a b, .ok (.value (.set i))), (.union a b, .ok (.value (.set u))),
      (.makeSet [yes, .nil], .ok (.value (.set b))), (.makeSet [nan, yes], .ok (.value (.set a)))]
    ∃ s, History default s log ∧ s.Collects log u (fun x => s.has a x || s.has b x) ∧
      u.body.size = a.body.size + e.body.size ∧
      (sameSets (do b.intersection (← i.union e))
        (do (← b.intersection i).union (← b.intersection e)) s).1 = .ok true := by
  intro nan yes a b u i e log
  have hsets : History default _ [(.makeSet [yes, .nil], .ok (.value (.set b))),
      (.makeSet [nan, yes], .ok (.value (.set a)))] :=
    (History.start.ask (.makeSet [nan, yes])
      (by simpa [Request.operands] using ⟨.scalar rfl, .scalar rfl⟩)).ask (.makeSet [yes, .nil])
      (by simpa [Request.operands] using ⟨.scalar rfl, .scalar rfl⟩)
  have hoperands {log : Log} {x y : SetNode} (hx : Held log (.set x)) (hy : Held log (.set y)) :
      ∀ v ∈ [Value.set x, .set y], Held log v := by
    simpa using ⟨hx, hy⟩
  have ha : Held [(.makeSet [yes, .nil], .ok (.value (.set b))),
      (.makeSet [nan, yes], .ok (.value (.set a)))] (.set a) :=
    .replied (q := .makeSet [nan, yes]) (r := .value (.set a)) (by simp) (by simp [Reply.held])
  have hb : Held [(.makeSet [yes, .nil], .ok (.value (.set b))),
      (.makeSet [nan, yes], .ok (.value (.set a)))] (.set b) :=
    .replied (q := .makeSet [yes, .nil]) (r := .value (.set b)) (by simp) (by simp [Reply.held])
  have hmade : History default _ log :=
    ((hsets.ask (.union a b) (hoperands ha hb)).ask (.intersection a b)
      (hoperands (ha.cons _) (hb.cons _))).ask (.difference b a)
      (hoperands ((hb.cons _).cons _) ((ha.cons _).cons _))
  have hheld {q : Request} {t : SetNode} (h : log.Gave q t) : Held log (.set t) :=
    .replied h (by simp [Reply.held])
  have hu : log.Gave (.union a b) u := by simp [Log.Gave, log]
  have hi : log.Gave (.intersection a b) i := by simp [Log.Gave, log]
  have he : log.Gave (.difference b a) e := by simp [Log.Gave, log]
  have ha := ((ha.cons (.union a b, .ok (.value (.set u)))).cons
    (.intersection a b, .ok (.value (.set i)))).cons (.difference b a, .ok (.value (.set e)))
  have hb := ((hb.cons (.union a b, .ok (.value (.set u)))).cons
    (.intersection a b, .ok (.value (.set i)))).cons (.difference b a, .ok (.value (.set e)))
  obtain ⟨-, hunion, -, -, hsize, -, -⟩ := set_algebra hmade ha hb hb
  obtain ⟨-, -, -, -, -, -, hlaws⟩ := set_algebra hmade hb (hheld hi) (hheld he)
  exact ⟨_, hmade, hunion u hu, hsize u e hu he,
    (hlaws (.of_flat rfl rfl) (.of_flat rfl rfl)
      (.of_flat rfl rfl)).2.2.2.2⟩

end DynVal
