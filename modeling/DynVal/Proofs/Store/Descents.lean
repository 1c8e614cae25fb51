import DynVal.Proofs.Store.Coherence
import Mathlib.Algebra.BigOperators.Group.Finset.Basic
import Mathlib.Algebra.BigOperators.Intervals
import Mathlib.Logic.Relation

/-!
# Descents into values

Printing and encoding go from a value to its contents, and from a reference to what its cell holds.
Such a descent ends unless it comes to a reference from which it can come back to it. It then meets
no cell twice, and below each cell it passes no more values than the level of the content, so the
depth that a store allows (`Store.reach`) is enough.

* `Store.At.endsWithin_reach`: descents end within the reach of a value that is not circular.
* `Value.isSome_textBelow_iff`, `Wire.exists_formAt_iff`: there is a text, or a tree, where they
  end.
* `Store.At.text_eq`: a value is printed unless it is circular.
-/

namespace DynVal

open Relation

namespace Value

variable {entries : MapNode → List (Value × Value)} {content : Ref → Value} {v p : Value} {d : Nat}

/-- What a descent goes on to. -/
inductive Leads (entries : MapNode → List (Value × Value)) (content : Ref → Value) :
    Value → Value → Prop where
  | part {v p : Value} (h : p ∈ v.contents entries) : Leads entries content v p
  | cell (r : Ref) : Leads entries content (.ref r) (content r)

theorem leads_ref_iff {r : Ref} : Leads entries content (.ref r) p ↔ p = content r := by
  constructor
  · rintro (h | _)
    · cases h
    · rfl
  · rintro rfl
    exact .cell r

theorem leads_iff_of_not_ref (hv : ∀ r, v ≠ .ref r) :
    Leads entries content v p ↔ p ∈ v.contents entries := by
  constructor
  · rintro (h | r)
    · exact h
    · exact absurd rfl (hv r)
  · exact .part

/-- A descent comes to a reference that leads back to itself. -/
def Circular (entries : MapNode → List (Value × Value)) (content : Ref → Value)
    (v : Value) : Prop :=
  ∃ r : Ref, ReflTransGen (Leads entries content) v (.ref r) ∧
    TransGen (Leads entries content) (.ref r) (.ref r)

theorem not_circular_of_reaches (h : ¬ Circular entries content v)
    (hp : ReflTransGen (Leads entries content) v p) : ¬ Circular entries content p :=
  fun ⟨r, hr, hc⟩ => h ⟨r, hp.trans hr, hc⟩

theorem not_circular_of_leads (h : ¬ Circular entries content v) (hp : Leads entries content v p) :
    ¬ Circular entries content p :=
  not_circular_of_reaches h (.single hp)

theorem Leads.congr {entries' : MapNode → List (Value × Value)}
    (he : ∀ x, v = .map x → (entries x).Perm (entries' x)) (h : Leads entries content v p) :
    Leads entries' content v p := by
  cases h with
  | part hp => exact .part ((mem_contents_congr he).mp hp)
  | cell r => exact .cell r

/-- Maps may be read in another way that shows the same entries. -/
theorem reaches_congr {entries' : MapNode → List (Value × Value)} {S : Value → Prop}
    (hS : ∀ v, S v → ∀ p, Leads entries content v p → S p)
    (he : ∀ x, S (.map x) → (entries x).Perm (entries' x)) (hv : S v)
    (h : ReflTransGen (Leads entries content) v p) :
    S p ∧ ReflTransGen (Leads entries' content) v p := by
  induction h with
  | refl => exact ⟨hv, .refl⟩
  | tail _ hp ih =>
    exact ⟨hS _ ih.1 _ hp, ih.2.tail (hp.congr fun x hx => he x (hx ▸ ih.1))⟩

theorem Circular.congr {entries' : MapNode → List (Value × Value)} {S : Value → Prop}
    (hS : ∀ v, S v → ∀ p, Leads entries content v p → S p)
    (he : ∀ x, S (.map x) → (entries x).Perm (entries' x)) (hv : S v)
    (h : Circular entries content v) : Circular entries' content v := by
  obtain ⟨r, hr, hc⟩ := h
  obtain ⟨hsr, hr'⟩ := reaches_congr hS he hv hr
  obtain ⟨p, hp, hpr⟩ := TransGen.head'_iff.mp hc
  exact ⟨r, hr', .head' (hp.congr fun x hx => he x (hx ▸ hsr))
    (reaches_congr hS he (hS _ hsr _ hp) hpr).2⟩

/-- All descents are shorter than that. -/
def EndsWithin (entries : MapNode → List (Value × Value)) (content : Ref → Value) :
    Nat → Value → Prop
  | 0, _ => False
  | d + 1, v => ∀ p, Leads entries content v p → EndsWithin entries content d p

theorem EndsWithin.mono {d' : Nat} (h : EndsWithin entries content d v) (hd : d ≤ d') :
    EndsWithin entries content d' v := by
  induction d generalizing v d' with
  | zero => cases h
  | succ d ih =>
    obtain ⟨d', rfl⟩ := Nat.exists_eq_add_of_lt hd
    intro p hp
    exact ih (h p hp) (Nat.le_add_right d d')

theorem EndsWithin.transGen (h : EndsWithin entries content d v)
    (hp : TransGen (Leads entries content) v p) : ∃ e < d, EndsWithin entries content e p := by
  have hstep {d : Nat} {v p : Value} (h : EndsWithin entries content d v)
      (hp : Leads entries content v p) : ∃ e < d, EndsWithin entries content e p := by
    cases d with
    | zero => cases h
    | succ d => exact ⟨d, Nat.lt_succ_self d, h p hp⟩
  induction hp with
  | single hp => exact hstep h hp
  | tail _ hp ih =>
    obtain ⟨e, he, hends⟩ := ih
    obtain ⟨e', he', hends'⟩ := hstep hends hp
    exact ⟨e', he'.trans he, hends'⟩

theorem EndsWithin.reaches (h : EndsWithin entries content d v)
    (hp : ReflTransGen (Leads entries content) v p) : EndsWithin entries content d p := by
  rcases reflTransGen_iff_eq_or_transGen.mp hp with rfl | hp
  · exact h
  · obtain ⟨e, he, hends⟩ := h.transGen hp
    exact hends.mono he.le

theorem EndsWithin.not_transGen_self (h : EndsWithin entries content d v) :
    ¬ TransGen (Leads entries content) v v := by
  intro hv
  induction d using Nat.strong_induction_on with
  | _ d ih =>
    obtain ⟨e, he, hends⟩ := h.transGen hv
    exact ih e he hends

theorem EndsWithin.not_circular (h : EndsWithin entries content d v) :
    ¬ Circular entries content v := by
  rintro ⟨r, hr, hc⟩
  rcases reflTransGen_iff_eq_or_transGen.mp hr with heq | ht
  · exact (heq ▸ h).not_transGen_self hc
  · obtain ⟨e, -, hends⟩ := h.transGen ht
    exact hends.not_transGen_self hc

/-- There is nothing to descend to. -/
theorem not_circular_of_contents (hv : ∀ r, v ≠ .ref r) (h : v.contents entries = []) :
    ¬ Circular entries content v := by
  have hwithin : EndsWithin entries content 1 v := fun p hp => by
    rw [leads_iff_of_not_ref hv, h] at hp
    exact absurd hp List.not_mem_nil
  exact hwithin.not_circular

end Value

/-! ## The reach of a value -/

namespace Store

variable {s : Store} {g : Stage} {v : Value} {ρ : Ranking} {d : Nat}

/-- How many values a descent passes on the way from a cell to its leaves or to other references. -/
def height (s : Store) (i : Nat) : Nat := (s.cells[i]?).elim 0 fun c => c.content.level + 1

theorem height_eq {r : Ref} (h : r.cell < s.cells.size) :
    s.height r.cell = (s.content r).level + 1 := by
  simp [height, content, h]

theorem content_of_size_le {r : Ref} (h : s.cells.size ≤ r.cell) : s.content r = .nil := by
  simp [content, h]

theorem reach_eq (s : Store) (v : Value) :
    s.reach v = v.level + 2 + ∑ i ∈ Finset.range s.cells.size, s.height i := by
  have hsum (cs : List Cell) (n : Nat) : cs.foldr (fun c n => c.content.level + 1 + n) n =
      n + ∑ i ∈ Finset.range cs.length, (cs[i]?).elim 0 fun c => c.content.level + 1 := by
    induction cs with
    | nil => simp
    | cons c cs ih =>
      rw [List.foldr_cons, ih, List.length_cons, Finset.sum_range_succ']
      simp only [List.getElem?_cons_succ, List.getElem?_cons_zero, Option.elim_some]
      omega
  unfold reach
  rw [← Array.foldr_toList, hsum]
  simp [height]

/-- A descent that has met no cell but those that do not count any more has a depth to spare. -/
theorem At.endsWithin_of_unmet (hs : s.At g) {entries : MapNode → List (Value × Value)}
    (hentries : ∀ v : Value, v.contents entries ⊆ v.parts) (unmet : Finset Nat) (hv : v.Sound g)
    (hmet : ∀ i < s.cells.size, i ∉ unmet → ∃ r : Ref, r.cell = i ∧
      TransGen (Value.Leads entries s.content) (.ref r) v)
    (hc : ¬ v.Circular entries s.content) (hd : v.level + 2 + ∑ i ∈ unmet, s.height i ≤ d) :
    v.EndsWithin entries s.content d := by
  induction d generalizing v unmet with
  | zero => omega
  | succ d ih =>
    intro p hp
    have hmet' {i : Nat} (hi : i < s.cells.size) (hu : i ∉ unmet) :
        ∃ r : Ref, r.cell = i ∧ TransGen (Value.Leads entries s.content) (.ref r) p := by
      obtain ⟨r, hr, ht⟩ := hmet i hi hu
      exact ⟨r, hr, ht.tail hp⟩
    have hcp := Value.not_circular_of_leads hc hp
    cases hp with
    | part hpart =>
      have hlevel := hv.here.levels p (hentries v hpart)
      exact ih unmet (hv.parts p (hentries v hpart)) (fun _ => hmet') hcp (by omega)
    | cell r =>
      by_cases hr : r.cell < s.cells.size
      · -- a cell that was met before leads to this reference, and so does this reference
        have hunmet : r.cell ∈ unmet := by
          by_contra hu
          obtain ⟨q, hq, ht⟩ := hmet r.cell hr hu
          obtain ⟨p, hp, hpr⟩ := TransGen.head'_iff.mp ht
          have hsame : s.content q = s.content r := by simp only [content, hq]
          rw [Value.leads_ref_iff.mp hp, hsame] at hpr
          exact hc ⟨r, .refl, .head' (.cell r) hpr⟩
        have hrest := Finset.add_sum_erase unmet s.height hunmet
        rw [height_eq hr] at hrest
        refine ih (unmet.erase r.cell) (hs.content_sound r) (fun i hi hu => ?_) hcp (by omega)
        by_cases hir : i = r.cell
        · exact ⟨r, hir.symm, .single (.cell r)⟩
        · exact hmet' hi fun h => hu (Finset.mem_erase.mpr ⟨hir, h⟩)
      · -- there is nothing in a cell that does not exist
        rw [content_of_size_le (Nat.le_of_not_lt hr)]
        cases d with
        | zero => omega
        | succ d =>
          intro p hp
          rw [Value.leads_iff_of_not_ref (fun r => Value.noConfusion)] at hp
          cases hp

theorem At.endsWithin_reach (hs : s.At g) {rank : Fn → Nat} (hv : v.Sound g)
    (hc : ¬ v.Circular (Value.entriesUnder rank) s.content) :
    v.EndsWithin (Value.entriesUnder rank) s.content (s.reach v) :=
  hs.endsWithin_of_unmet (fun _ => Value.contents_subset_parts) (Finset.range s.cells.size) hv
    (fun _ hi hu => absurd (Finset.mem_range.mpr hi) hu) hc (s.reach_eq v).ge

end Store

/-! ## Where there is a text -/

section Results

variable {α β : Type} {c : OptionT Id α} {f : α → OptionT Id β}

theorem run_bind_eq :
    Id.run (c >>= f).run = (Id.run c.run).bind fun a => Id.run (f a).run := by
  rw [OptionT.run_bind]
  change (Id.run c.run).elim none _ = _
  cases Id.run c.run <;> rfl

theorem isSome_map_iff (φ : α → β) :
    (Id.run (c >>= fun a => pure (φ a)).run).isSome ↔ (Id.run c.run).isSome := by
  rw [run_bind_eq]
  cases Id.run c.run <;> exact Iff.rfl

/-- What is done next has a result or not, whatever it is done with. -/
theorem isSome_bind_iff {P : Prop} (h : ∀ a, (Id.run (f a).run).isSome ↔ P) :
    (Id.run (c >>= f).run).isSome ↔ (Id.run c.run).isSome ∧ P := by
  rw [run_bind_eq]
  cases Id.run c.run with
  | none => simp
  | some a => simp [h a]

theorem isSome_mapM_iff {xs : List α} :
    (Id.run (xs.mapM f).run).isSome ↔ ∀ x ∈ xs, (Id.run (f x).run).isSome := by
  induction xs with
  | nil => simp
  | cons x xs ih =>
    rw [List.mapM_cons, isSome_bind_iff (P := ∀ y ∈ xs, (Id.run (f y).run).isSome),
      List.forall_mem_cons]
    exact fun y => (isSome_map_iff _).trans ih

end Results

namespace Value

variable {rank : Fn → Nat} {content : Ref → Value} {v : Value} {d : Nat}

/-- A value is printed down to a depth that all descents stay within. -/
theorem isSome_textBelow_iff : (Id.run (textBelow rank content d v).run).isSome ↔
    v.EndsWithin (entriesUnder rank) content d := by
  induction d generalizing v with
  | zero => exact ⟨nofun, nofun⟩
  | succ d ih =>
    have hparts (hv : ∀ r, v ≠ .ref r) : (∀ p ∈ v.contents (entriesUnder rank),
          (Id.run (textBelow rank content d p).run).isSome) ↔
        v.EndsWithin (entriesUnder rank) content (d + 1) := by
      simp only [EndsWithin, leads_iff_of_not_ref hv, ih]
    cases v with
    | ref r =>
      simp only [EndsWithin, leads_ref_iff, forall_eq, ← ih]
      exact isSome_map_iff _
    | recur r =>
      exact ((isSome_map_iff _).trans isSome_mapM_iff).trans (hparts fun r => Value.noConfusion)
    | list l =>
      exact ((isSome_map_iff _).trans isSome_mapM_iff).trans (hparts fun r => Value.noConfusion)
    | set s =>
      exact ((isSome_map_iff _).trans isSome_mapM_iff).trans (hparts fun r => Value.noConfusion)
    | map x =>
      refine Iff.trans ?_ (hparts fun r => Value.noConfusion)
      refine (isSome_map_iff _).trans (isSome_mapM_iff.trans ?_)
      simp only [contents, List.forall_mem_flatMap, List.forall_mem_cons]
      refine forall₂_congr fun e _ => ?_
      exact isSome_bind_iff fun _ => (isSome_map_iff _).trans (by simp)
    | record r =>
      refine Iff.trans ?_ (hparts fun r => Value.noConfusion)
      refine (isSome_map_iff _).trans (isSome_mapM_iff.trans ?_)
      simp only [contents, parts, Record.values, List.forall_mem_map]
      exact forall₂_congr fun f _ => isSome_map_iff _
    | tuple t =>
      refine Iff.trans ?_ (hparts fun r => Value.noConfusion)
      refine (isSome_bind_iff fun _ => (isSome_map_iff _).trans isSome_mapM_iff).trans ?_
      change _ ↔ ∀ p ∈ t.body.tag :: t.body.extra, _
      rw [List.forall_mem_cons]
    | _ =>
      refine Iff.trans ?_ (hparts fun r => Value.noConfusion)
      exact iff_of_true rfl (List.forall_mem_nil _)

end Value

namespace Wire

variable {rank : Fn → Nat} {content : Ref → Value} {text : Value → OptionT Id String}
  {v p : Value} {d : Nat} {c : Cirru}

/-- Where a value has a tree, so does what a descent goes on to. -/
theorem exists_formAt_of_leads (h : formAt rank content text (d + 1) v = .ok c)
    (hp : v.Leads (Value.entriesUnder rank) content p) :
    ∃ i, formAt rank content text d p = .ok i := by
  have hform := formAt_succ_iff.mp h
  cases hp with
  | part hp => exact hform.contents p hp
  | cell r =>
    cases hform with
    | ref hi => exact ⟨_, hi⟩

/-- A value has a tree down to a depth just if all descents stay within it and come to nothing that
has none. -/
theorem exists_formAt_iff : (∃ c, formAt rank content text d v = .ok c) ↔
    v.EndsWithin (Value.entriesUnder rank) content d ∧
      ∀ p, ReflTransGen (Value.Leads (Value.entriesUnder rank) content) v p →
        (∃ r, p = .ref r) ∨ isEncodable p = true := by
  induction d generalizing v with
  | zero =>
    refine ⟨fun ⟨c, hc⟩ => ?_, fun h => h.1.elim⟩
    cases hc
  | succ d ih =>
    constructor
    · rintro ⟨c, hc⟩
      refine ⟨fun p hp => (ih.mp (exists_formAt_of_leads hc hp)).1, fun p hp => ?_⟩
      rcases ReflTransGen.cases_head hp with rfl | ⟨q, hq, hqp⟩
      · by_cases hv : ∃ r, v = .ref r
        · exact .inl hv
        · exact .inr ((formAt_succ_iff.mp hc).encodable fun r hr => hv ⟨r, hr⟩)
      · exact (ih.mp (exists_formAt_of_leads hc hq)).2 p hqp
    · rintro ⟨hends, he⟩
      have hnext {p : Value} (hp : v.Leads (Value.entriesUnder rank) content p) :
          ∃ c, formAt rank content text d p = .ok c :=
        ih.mpr ⟨hends p hp, fun q hq => he q (.head hp hq)⟩
      rcases he v .refl with ⟨r, rfl⟩ | hv
      · obtain ⟨c, hc⟩ := hnext (.cell r)
        exact ⟨_, formAt_succ_iff.mpr (.ref hc)⟩
      · obtain ⟨c, hc⟩ := exists_formBy hv fun p hp => hnext (.part hp)
        exact ⟨c, formAt_succ_iff.mpr hc⟩

end Wire

/-! ## Printing in a store -/

namespace Store

variable {s : Store} {g : Stage} {v p : Value} {ρ : Ranking}

/-- A descent in the store comes to a reference that leads back to itself. -/
def Circular (s : Store) (v : Value) : Prop := v.Circular s.shown s.content

theorem At.sound_of_leads (hs : s.At g) {entries : MapNode → List (Value × Value)}
    (hentries : v.contents entries ⊆ v.parts) (hv : v.Sound g)
    (hp : v.Leads entries s.content p) : p.Sound g := by
  cases hp with
  | part hp => exact hv.parts p (hentries hp)
  | cell r => exact hs.content_sound r

theorem At.shown_subset_parts (hs : s.At g) (hv : v.Sound g) : v.contents s.shown ⊆ v.parts := by
  obtain ⟨ρ, hρ⟩ := hs.exists_admitted
  have hperm (x : MapNode) (hx : v = .map x) := hs.shown_perm (hx ▸ hv) hρ
  exact fun p hp => Value.contents_subset_parts ((Value.mem_contents_congr hperm).mp hp)

/-- Descents in a store are descents under a ranking. -/
theorem At.circular_iff (hs : s.At g) (hv : v.Sound g) (hρ : g.numbering.Admits ρ) :
    s.Circular v ↔ v.Circular (Value.entriesUnder ρ.rank) s.content := by
  constructor
  · refine Value.Circular.congr (fun v hv p => ?_) (fun x hx => hs.shown_perm hx hρ) hv
    exact hs.sound_of_leads (hs.shown_subset_parts hv) hv
  · refine Value.Circular.congr (fun v hv p => ?_) (fun x hx => (hs.shown_perm hx hρ).symm) hv
    exact hs.sound_of_leads Value.contents_subset_parts hv

/-- Descents in a store and under a ranking come to the same values. -/
theorem At.reaches_iff (hs : s.At g) (hv : v.Sound g) (hρ : g.numbering.Admits ρ) :
    ReflTransGen (Value.Leads s.shown s.content) v p ↔
      ReflTransGen (Value.Leads (Value.entriesUnder ρ.rank) s.content) v p := by
  constructor
  · intro h
    refine (Value.reaches_congr (fun v hv p => ?_) (fun _ hx => hs.shown_perm hx hρ) hv h).2
    exact hs.sound_of_leads (hs.shown_subset_parts hv) hv
  · intro h
    refine (Value.reaches_congr (fun v hv p => ?_) (fun _ hx => (hs.shown_perm hx hρ).symm) hv h).2
    exact hs.sound_of_leads Value.contents_subset_parts hv

/-- A value is printed unless it is circular. Only the memo changes. -/
theorem At.text_eq (hs : s.At g) (hv : v.Sound g) :
    ∃ g' memo r, g.Extends g' ∧ Store.At { s with memo := memo } g' ∧
      Op.text v s = (r, { s with memo := memo }) ∧
      (s.Circular v → r = .error .endless) ∧ (¬ s.Circular v → ∃ t, r = .ok t) := by
  obtain ⟨g', t, hext, hs', ht, -, htext⟩ := Op.yields_gives (Op.prints_text hs hv) s hs
  obtain ⟨ρ, hρ⟩ := hs'.exists_admitted
  have hends := @Value.isSome_textBelow_iff ρ.rank s.content v (s.reach v)
  rw [← htext ρ hρ] at hends
  have hget : ((get : Op Store) s).1 = .ok s := rfl
  have hrun : Op.text v s = _ := (Op.bind_ok hget).trans (Op.bind_ok ht)
  rw [hs.circular_iff hv (hext.numbering.admits hρ)]
  cases t with
  | none =>
    refine ⟨g', _, .error .endless, hext, hs', hrun, fun _ => rfl, fun hc => ?_⟩
    cases hends.mpr (hs.endsWithin_reach hv hc)
  | some t =>
    refine ⟨g', _, .ok t, hext, hs', hrun, fun hc => ?_, fun _ => ⟨t, rfl⟩⟩
    exact absurd hc (hends.mp rfl).not_circular

end Store

end DynVal
