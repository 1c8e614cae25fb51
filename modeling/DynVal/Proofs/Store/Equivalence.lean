import DynVal.Proofs.Store.Coherence

/-!
# Equality is a partial equivalence

Two values are equal where they are one node or where what they hold pairs off, and so a node that
holds a NaN is equal to itself and not to a copy. Both ways of being equal together are still
symmetric and transitive, and the first one is needed only below a NaN or a recur marker.

* `Value.equal_iff_matches`: the two ways in which values are equal.
* `Value.Matches.self`: what holds neither NaN nor a recur marker pairs off with itself.
* `equality_partial_equivalence`: the laws in a history.
-/

namespace DynVal

namespace Value

variable {ρ : Ranking} {R : Value → Value → Prop} {a b : Value}

theorem Matches.isDefinite (h : Matches ρ R a b) : a.isDefinite = true := by
  have hk := h.kind_eq
  cases a <;> cases b <;> first | (cases hk; done) | rfl | exact h.elim | skip
  case number.number x y =>
    have hx := (Number.same_iff.mp h).1.1
    simpa [Value.isDefinite] using hx

theorem Matches.self (ha : a.isDefinite = true)
    (hr : ∀ p ∈ contents (entriesUnder ρ.rank) a, R p p) : Matches ρ R a a := by
  have hpairs {vs : List Value} (h : ∀ p ∈ vs, R p p) : List.Forall₂ R vs vs :=
    List.forall₂_same.mpr h
  cases a with
  | nil => trivial
  | number x =>
    have hx : x.isNaN = false := by simpa [Value.isDefinite] using ha
    exact Number.same_iff.mpr ⟨⟨hx, hx⟩, rfl⟩
  | recur r => cases ha
  | list x => exact hpairs hr
  | tuple x => exact hpairs hr
  | record x => exact ⟨rfl, rfl, hpairs hr⟩
  | set x => exact Multiset.rel_refl_of_refl_on hr
  | map x =>
    refine Multiset.rel_refl_of_refl_on fun e he => ?_
    have hcontents := mem_contents_map he
    exact ⟨hr _ hcontents.1, hr _ hcontents.2⟩
  | _ => rfl

theorem equal_iff_matches (ha : WellFormed ρ a) (hb : WellFormed ρ b) :
    equal ρ.rank a b = true ↔
      (a = b ∧ a.isShared = true) ∨ Matches ρ (fun p q => equal ρ.rank p q = true) a b := by
  rw [equal_iff (lawful_wellFormed ρ) ha.here hb.here ha.parts hb.parts]
  have hparts {p q : Value} (hp : p ∈ contents (entriesUnder ρ.rank) a)
      (hq : q ∈ contents (entriesUnder ρ.rank) b) :=
    agree_iff_equal (P := WellFormed ρ) (ρ := ρ) (ha.contents p hp) (hb.contents q hq)
  refine or_congr_right ⟨?_, ?_⟩
  · exact Matches.mono fun p hp q hq => (hparts hp hq).mp
  · exact Matches.mono fun p hp q hq => (hparts hp hq).mpr

theorem isDefinite_of_equal (ha : WellFormed ρ a) (hb : WellFormed ρ b)
    (h : equal ρ.rank a b = true) : a.isDefinite = true := by
  rcases (equal_iff_matches ha hb).mp h with ⟨-, hs⟩ | h
  · cases a <;> first | rfl | cases hs
  · exact h.isDefinite

/-- Of the values themselves, whatever they hold, only NaN and recur markers differ from
themselves. -/
theorem equal_self_iff (ha : WellFormed ρ a) : equal ρ.rank a a = true ↔ a.isDefinite = true := by
  refine ⟨isDefinite_of_equal ha ha, fun hd => (equal_iff_matches ha ha).mpr ?_⟩
  by_cases hs : a.isShared = true
  · exact .inl ⟨rfl, hs⟩
  · refine .inr (Matches.self hd fun p hp => ?_)
    cases a <;> first | exact absurd rfl hs | exact absurd hp List.not_mem_nil | cases hd

end Value

section Answers

variable {s : Store} {g : Stage} {ρ : Ranking} {a b : Value}

/-- What a store answers of two values is settled by what it answers of what they hold. -/
theorem Store.At.same_iff (hs : s.At g) (ha : a.Sound g) (hb : b.Sound g)
    (hρ : g.numbering.Admits ρ) : s.same a b = true ↔
      (a = b ∧ a.isShared = true) ∨ Value.Matches ρ (fun p q => s.same p q = true) a b := by
  rw [hs.same_eq ha hb hρ, Value.equal_iff_matches (ha.wellFormed hρ) (hb.wellFormed hρ)]
  have hparts {v p : Value} (hv : v.Sound g)
      (hp : p ∈ v.contents (Value.entriesUnder ρ.rank)) : p.Sound g :=
    hv.parts p (Value.contents_subset_parts hp)
  have hsame {p q : Value} (hp : p ∈ a.contents (Value.entriesUnder ρ.rank))
      (hq : q ∈ b.contents (Value.entriesUnder ρ.rank)) :
      s.same p q = Value.equal ρ.rank p q := hs.same_eq (hparts ha hp) (hparts hb hq) hρ
  refine or_congr_right ⟨?_, ?_⟩
  · exact Value.Matches.mono fun p hp q hq h => (hsame hp hq).trans h
  · exact Value.Matches.mono fun p hp q hq h => (hsame hp hq).symm.trans h

theorem Store.At.same_self_iff (hs : s.At g) (ha : a.Sound g) :
    s.same a a = true ↔ a.isDefinite = true := by
  obtain ⟨ρ, hρ⟩ := hs.exists_admitted
  rw [hs.same_eq ha ha hρ]
  exact Value.equal_self_iff (ha.wellFormed hρ)

/-- What holds neither NaN nor a recur marker is equal to itself part by part as well, so no node
has to be recognised. -/
theorem Store.At.matches_self (hs : s.At g) (ha : a.Sound g) (hρ : g.numbering.Admits ρ)
    (hd : s.Definite a) : Value.Matches ρ (fun p q => s.same p q = true) a a := by
  have hd := (hs.throughout_shown_iff ha hρ).mp hd
  refine Value.Matches.self hd.here fun p hp => ?_
  exact (hs.same_self_iff (ha.parts p (Value.contents_subset_parts hp))).mpr (hd.contents p hp).here

end Answers

/-- Equality in a history, between any values at hand. -/
theorem equality_partial_equivalence {host : Host} {s : Store} {log : Log} (h : History host s log)
    {a b c : Value} (ha : Held log a) (hb : Held log b) (hc : Held log c) :
    -- the question is answered, and as it was before
    (Request.perform (.equal a b) s).1 = .ok (.truth (s.same a b)) ∧
    (∀ t, (.equal a b, .ok (.truth t)) ∈ log → t = s.same a b) ∧
    -- the laws
    (s.same a b = true → s.same b a = true) ∧
    (s.same a b = true → s.same b c = true → s.same a c = true) ∧
    (s.Definite a → s.same a a = true) ∧
    -- more exactly, only NaN and recur markers themselves differ from themselves
    (s.same a a = true ↔ a.isDefinite = true) ∧
    -- equal values are one node or match, and where there is no NaN and no recur marker to be met,
    -- a value matches itself
    ∀ ρ : Ranking, s.memo.numbering.Admits ρ →
      (s.same a b = true ↔
        (a = b ∧ a.isShared = true) ∨ Value.Matches ρ (fun p q => s.same p q = true) a b) ∧
      (s.Definite a → Value.Matches ρ (fun p q => s.same p q = true) a a) := by
  obtain ⟨g, hs, hk⟩ := h.exists_stage
  have hsa := hk.held ha
  have hsb := hk.held hb
  have hsc := hk.held hc
  obtain ⟨ρ, hρ⟩ := hs.exists_admitted
  have hself := hs.same_self_iff hsa
  refine ⟨rfl, fun t ht => ?_, fun hab => ?_, fun hab hbc => ?_, fun hd => hself.mpr ?_, hself,
    fun σ hσ => ?_⟩
  · rw [hs.same_eq hsa hsb hρ]
    cases hk.means _ _ ht ρ hρ
    rfl
  · rw [hs.same_eq hsa hsb hρ] at hab
    rw [hs.same_eq hsb hsa hρ]
    exact Value.equal_symm (hsa.wellFormed hρ) (hsb.wellFormed hρ) hab
  · rw [hs.same_eq hsa hsb hρ] at hab
    rw [hs.same_eq hsb hsc hρ] at hbc
    rw [hs.same_eq hsa hsc hρ]
    exact Value.equal_trans (hsa.wellFormed hρ) (hsb.wellFormed hρ) (hsc.wellFormed hρ) hab hbc
  · exact hd.here
  · have hσ : g.numbering.Admits σ := hs.numbering ▸ hσ
    exact ⟨hs.same_iff hsa hsb hσ, hs.matches_self hsa hσ⟩

/-- Three lists share a node with a NaN in it, and hold a zero each, of which one is negative. They
are equal in turn, though a copy of what they share is not equal to it. -/
theorem equality_partial_equivalence_shared :
    let n : Value := .list ⟨0, .window 0 0 1 #[.number .nan]⟩
    let n' : Value := .list ⟨1, .window 1 0 1 #[.number .nan]⟩
    let a : Value := .list ⟨2, .window 2 0 2 #[n, .number (.ofBits 0)]⟩
    let b : Value := .list ⟨3, .window 3 0 2 #[n, .number (.ofBits 0x8000000000000000)]⟩
    let c : Value := .list ⟨4, .window 4 0 2 #[n, .number (.ofBits 0)]⟩
    ∃ s log, History default s log ∧ Held log a ∧ Held log b ∧ Held log c ∧
      s.same b a = true ∧ s.same a c = true ∧ s.same n n = true ∧ s.same n n' = false := by
  intro n n' a b c
  let nodes : Log := [(.makeList [.number .nan], .ok (.value n')),
    (.makeList [.number .nan], .ok (.value n))]
  let log : Log := (.makeList [n, .number (.ofBits 0)], .ok (.value c)) ::
    (.makeList [n, .number (.ofBits 0x8000000000000000)], .ok (.value b)) ::
    (.makeList [n, .number (.ofBits 0)], .ok (.value a)) :: nodes
  have hreply {log : Log} (xs : List Value) {v : Value}
      (h : (Request.makeList xs, Except.ok (Reply.value v)) ∈ log) : Held log v :=
    .replied h (by simp [Reply.held])
  have hnan (log : Log) : ∀ v ∈ [Value.number .nan], Held log v := by
    simpa using .scalar rfl
  have hpair {log : Log} {x : UInt64} (h : Held log n) :
      ∀ v ∈ [n, .number (.ofBits x)], Held log v := by
    simpa using ⟨h, .scalar rfl⟩
  have hnodes : History default _ nodes :=
    (History.start.ask (.makeList [.number .nan]) (hnan _)).ask (.makeList [.number .nan]) (hnan _)
  have hn : Held nodes n := hreply [.number .nan] (by simp [nodes])
  have hist : History default _ log :=
    ((hnodes.ask (.makeList [n, .number (.ofBits 0)]) (hpair hn)).ask
      (.makeList [n, .number (.ofBits 0x8000000000000000)]) (hpair (hn.cons _))).ask
      (.makeList [n, .number (.ofBits 0)]) (hpair ((hn.cons _).cons _))
  have ha : Held log a := hreply [n, .number (.ofBits 0)] (by simp [log])
  have hb : Held log b := hreply [n, .number (.ofBits 0x8000000000000000)] (by simp [log])
  have hc : Held log c := hreply [n, .number (.ofBits 0)] (by simp [log])
  refine ⟨_, log, hist, ha, hb, hc, ?_, ?_, rfl, rfl⟩
  · exact (equality_partial_equivalence hist ha hb hc).2.2.1 rfl
  · exact (equality_partial_equivalence hist ha hb hc).2.2.2.1 rfl rfl

end DynVal
