import DynVal.Proofs.Store.Refusals

/-!
# Recursions that end

Printing and encoding descend into a value and into the cells that it refers to. To say that such a
recursion ends, it is cut at a depth (`Store.textWithin`, `Store.encodeWithin`): a recursion that
ends meets no cut from some depth on, and one that has no end meets a cut at every depth.

* `Store.At.textWithin_eq`, `Store.At.encodeWithin_eq`: what a cut recursion gives is the plain
  form.
* `recursions_end_unless_circular`: both recursions end if no reference leads back to itself.
  Otherwise printing has no end, and encoding has one only where it comes to something that it
  refuses.
-/

namespace DynVal

open Relation

namespace Store

variable {s : Store} {g : Stage} {v : Value} {d : Nat}

/-- The recursion that prints a value, cut at a depth. -/
def textWithin (s : Store) (d : Nat) (v : Value) : Option String :=
  ((Value.textAt Memo.entries s.content d v).run s.memo).1

/-- The recursion that encodes a value and prints what is refused, cut at a depth. -/
def encodeWithin (s : Store) (d : Nat) (v : Value) : Except Halt Cirru :=
  ((Wire.encodeAt Memo.entries Memo.compare s.content (Value.textAt Memo.entries s.content d) d
    v).run s.memo).1

/-- What a cut recursion gives is the plain text under a ranking. -/
theorem At.textWithin_eq (hs : s.At g) (hv : v.Sound g) (d : Nat) :
    ∃ ρ : Ranking, g.numbering.Admits ρ ∧
      s.textWithin d v = Id.run (Value.textBelow ρ.rank s.content d v).run := by
  obtain ⟨hs', hext, hr⟩ := Value.prints_textAt hs.content_sound d hv s.memo hs.memo
    (hs.numbering ▸ .refl _)
  obtain ⟨ρ, hρ⟩ := hs'.numbering.exists_admitted
  exact ⟨ρ, hs.numbering ▸ hext.admits hρ, (hr ρ hρ).2⟩

theorem At.encodeWithin_eq (hs : s.At g) (hv : v.Sound g) (d : Nat) :
    ∃ ρ : Ranking, g.numbering.Admits ρ ∧ s.encodeWithin d v =
      Wire.formAt ρ.rank s.content (Value.textBelow ρ.rank s.content d) d v := by
  obtain ⟨hs', hext, hr⟩ := Wire.encodes_encodeAt hs.content_sound
    (fun _ => Value.prints_textAt hs.content_sound d) d hv s.memo hs.memo (hs.numbering ▸ .refl _)
  obtain ⟨ρ, hρ⟩ := hs'.numbering.exists_admitted
  exact ⟨ρ, hs.numbering ▸ hext.admits hρ, (hr ρ hρ).2⟩

/-- No cut is met at the depth that a store allows, nor at any greater one. -/
theorem At.ends_of_reach_le (hs : s.At g) (hv : v.Sound g) (hc : ¬ s.Circular v)
    (hd : s.reach v ≤ d) :
    (∃ t, s.textWithin d v = some t) ∧ s.encodeWithin d v ≠ .error .endless := by
  have hends {ρ : Ranking} (hρ : g.numbering.Admits ρ) :
      v.EndsWithin (Value.entriesUnder ρ.rank) s.content d :=
    (hs.endsWithin_reach hv (mt (hs.circular_iff hv hρ).mpr hc)).mono hd
  constructor
  · obtain ⟨ρ, hρ, htext⟩ := hs.textWithin_eq hv d
    rw [htext]
    exact Option.isSome_iff_exists.mp (Value.isSome_textBelow_iff.mpr (hends hρ))
  · obtain ⟨ρ, hρ, hform⟩ := hs.encodeWithin_eq hv d
    rw [hform]
    intro h
    rcases Wire.formAt_error h with ⟨q, hq, -, he⟩ | ⟨hnot, -⟩
    · -- what is refused is printed within the same depth
      obtain ⟨t, ht⟩ := Wire.exists_refusal_eq
        (Value.isSome_textBelow_iff.mpr ((hends hρ).reaches (Value.reaches_of_encloses hq)))
      rw [ht] at he
      cases he
    · exact hnot (hends hρ)

theorem At.textWithin_eq_none (hs : s.At g) (hv : v.Sound g) (hc : s.Circular v) (d : Nat) :
    s.textWithin d v = none := by
  obtain ⟨ρ, hρ, htext⟩ := hs.textWithin_eq hv d
  rw [htext, ← Option.not_isSome_iff_eq_none, Value.isSome_textBelow_iff]
  exact fun hends => hends.not_circular ((hs.circular_iff hv hρ).mp hc)

theorem At.encodeWithin_eq_endless (hs : s.At g) (hv : v.Sound g) (hc : s.Circular v)
    (hr : ¬ ∃ q, s.Occurs v q ∧ Wire.isRefused q = true) (d : Nat) :
    s.encodeWithin d v = .error .endless := by
  obtain ⟨ρ, hρ, hform⟩ := hs.encodeWithin_eq hv d
  rw [hform]
  cases h : Wire.formAt ρ.rank s.content (Value.textBelow ρ.rank s.content d) d v with
  | ok c =>
    have hends := (Wire.exists_formAt_iff.mp ⟨c, h⟩).1
    exact absurd ((hs.circular_iff hv hρ).mp hc) hends.not_circular
  | error e =>
    rcases Wire.formAt_error h with ⟨q, hq, hrq, -⟩ | ⟨-, rfl⟩
    · exact absurd ⟨q, (hs.occurs_of_encloses hv hρ hq).2, hrq⟩ hr
    · rfl

end Store

/-- Where no reference that a value leads to leads back to itself, both recursions end. Otherwise
printing has no end, and neither has encoding unless something is refused. -/
theorem recursions_end_unless_circular {host : Host} {s : Store} {log : Log}
    (h : History host s log) {v : Value} (hv : Held log v) :
    (¬ s.Circular v → ∃ n, ∀ d, n ≤ d →
      (∃ t, s.textWithin d v = some t) ∧ s.encodeWithin d v ≠ .error .endless) ∧
    (s.Circular v → (∀ d, s.textWithin d v = none) ∧
      ((¬ ∃ q, s.Occurs v q ∧ Wire.isRefused q = true) →
        ∀ d, s.encodeWithin d v = .error .endless)) := by
  obtain ⟨g, hs, hk⟩ := h.exists_stage
  have hsv := hk.held hv
  constructor
  · intro hc
    exact ⟨s.reach v, fun d hd => hs.ends_of_reach_le hsv hc hd⟩
  · intro hc
    exact ⟨hs.textWithin_eq_none hsv hc, hs.encodeWithin_eq_endless hsv hc⟩

/-- A list that is stored in the cell that it refers to, and what the cell held before. -/
theorem recursions_end_unless_reset :
    let r : Ref := ⟨0, "ref:0"⟩
    let l : Value := .list ⟨0, .window 0 0 1 #[.ref r]⟩
    let log : Log := [(.swap r l, .ok (.value .nil)), (.makeList [.ref r], .ok (.value l)),
      (.create .nil, .ok (.value (.ref r)))]
    ∃ s, History default s log ∧ (∃ n, ∀ d, n ≤ d →
        (∃ t, s.textWithin d .nil = some t) ∧ s.encodeWithin d .nil ≠ .error .endless) ∧
      (∀ d, s.textWithin d l = none) ∧ ∀ d, s.encodeWithin d l = .error .endless := by
  intro r l log
  have hlist : History default _ [(.makeList [.ref r], .ok (.value l)),
      (.create .nil, .ok (.value (.ref r)))] :=
    (History.start.ask (.create .nil) (by simpa [Request.operands] using .scalar rfl)).ask
      (.makeList [.ref r]) (by simpa [Request.operands] using .scalar rfl)
  have hl : Held [(.makeList [.ref r], .ok (.value l)), (.create .nil, .ok (.value (.ref r)))] l :=
    .replied (q := .makeList [.ref r]) (r := .value l) List.mem_cons_self (by simp [Reply.held])
  have hmade : History default _ log :=
    hlist.ask (.swap r l) (by simpa [Request.operands] using hl)
  generalize hs : ((Request.swap r l).perform ((Request.makeList [.ref r]).perform
    ((Request.create .nil).perform (.initial default)).2).2).2 = s at hmade
  have hcontent : s.content r = l := hs ▸ rfl
  have hnext (p : Value) (hp : Value.Leads s.shown s.content l p) : p = .ref r := by
    rw [Value.leads_iff_of_not_ref fun _ => Value.noConfusion] at hp
    exact List.mem_singleton.mp hp
  have hback : Value.Leads s.shown s.content (.ref r) l := hcontent ▸ .cell r
  have hforth : Value.Leads s.shown s.content l (.ref r) := .part (List.mem_singleton.mpr rfl)
  have hcircular : s.Circular l := ⟨r, .single hforth, .head hback (.single hforth)⟩
  have hnone : ¬ ∃ q, s.Occurs l q ∧ Wire.isRefused q = true := by
    have hboth {q : Value} (hq : s.Occurs l q) : q = l ∨ q = .ref r := by
      induction hq with
      | refl => exact .inl rfl
      | tail _ hp ih =>
        rcases ih with rfl | rfl
        · exact .inr (hnext _ hp.leads)
        · exact .inl ((Value.leads_ref_iff.mp hp.leads).trans hcontent)
    rintro ⟨q, hq, hr⟩
    rcases hboth hq with rfl | rfl <;> cases hr
  have hscalar : ¬ s.Circular .nil :=
    Value.not_circular_of_contents (fun _ => Value.noConfusion) rfl
  obtain ⟨htext, hencode⟩ := (recursions_end_unless_circular hmade (hl.cons _)).2 hcircular
  exact ⟨s, hmade, (recursions_end_unless_circular hmade (.scalar rfl)).1 hscalar, htext,
    hencode hnone⟩

end DynVal
