import DynVal.Proofs.Store.Coherence
import DynVal.Proofs.Wire.Canonical

/-!
# The encoded form of equal values

What encoding gives where it succeeds does not depend on the memo, so equal values are encoded in
one way if their plain forms are one. They need not be: the two zeros are equal and are written
`0` and `-0`, and references are equal when their paths are, whatever the cells hold. Apart from
these, equal values have one encoded form (`encode_eq_of_same`).
-/

namespace DynVal

open Memo

section Forms

variable {s : Store} {g : Stage} {v : Value} {ρ : Ranking} {c : Cirru}

/-- Encoding succeeds with the plain form under any ranking. -/
theorem Store.At.encode_ok_iff (hs : s.At g) (hv : v.Sound g) (hρ : g.numbering.Admits ρ) :
    (Wire.encode v s).1 = .ok c ↔ s.form ρ.rank v = .ok c := by
  obtain ⟨g', hext, hs', hform⟩ := hs.encode_eq hv
  obtain ⟨ρ', hρ'⟩ := hs'.exists_admitted
  have hadm := hext.numbering.admits hρ'
  have hcontent {ρ : Ranking} (hρ : g.numbering.Admits ρ) (r : Ref) :
      (s.content r).WellFormed ρ := (hs.content_sound r).wellFormed hρ
  rw [hform ρ' hρ']
  constructor
  · exact Wire.formAt_rank (hcontent hadm) (hcontent hρ) (hv.wellFormed hadm) (hv.wellFormed hρ)
  · exact Wire.formAt_rank (hcontent hρ) (hcontent hadm) (hv.wellFormed hρ) (hv.wellFormed hadm)

end Forms

/-- Equal values are encoded in one way, if all zeros in them are of one sign and all references at
a path lead to one cell. -/
theorem encode_eq_of_same {host : Host} {s : Store} {log : Log} (h : History host s log)
    {a b : Value} (ha : Held log a) (hb : Held log b) (hab : s.same a b = true) {c c' : Cirru}
    (hc : (Wire.encode a s).1 = .ok c) (hc' : (Wire.encode b s).1 = .ok c')
    {zero : Number} {cellOf : String → Nat}
    (hpa : a.Throughout s.shown (Wire.Plain zero cellOf))
    (hpb : b.Throughout s.shown (Wire.Plain zero cellOf)) : c = c' := by
  obtain ⟨g, hs, hk⟩ := h.exists_stage
  obtain ⟨ρ, hρ⟩ := hs.exists_admitted
  have hsa := hk.held ha
  have hsb := hk.held hb
  have hwa := hsa.wellFormed hρ
  have hwb := hsb.wellFormed hρ
  rw [hs.same_eq hsa hsb hρ] at hab
  have hfa := (hs.encode_ok_iff hsa hρ).mp hc
  have hfb := (hs.encode_ok_iff hsb hρ).mp hc'
  have hba := Wire.formAt_congr hfa (Value.order_eq_of_equal hwa hwb hab) hwa hwb
    (Wire.definite_of_formAt hfb) ((hs.throughout_shown_iff hsa hρ).mp hpa)
    ((hs.throughout_shown_iff hsb hρ).mp hpb)
  exact Wire.formAt_unique hba hfb

/-- Two lists with the same reference. -/
theorem encode_eq_of_same_lists :
    let zero : Number := .ofBits 0
    let r : Ref := ⟨0, "ref:0"⟩
    let a : Value := .list ⟨0, .window 0 0 1 #[.ref r]⟩
    let b : Value := .list ⟨1, .window 1 0 1 #[.ref r]⟩
    let log : Log := [(.makeList [.ref r], .ok (.value b)), (.makeList [.ref r], .ok (.value a)),
      (.create (.number zero), .ok (.value (.ref r)))]
    ∃ s c c', History default s log ∧ s.same a b = true ∧ (Wire.encode a s).1 = .ok c ∧
      (Wire.encode b s).1 = .ok c' ∧ c = c' := by
  intro zero r a b log
  have hmade : History default _ log :=
    ((History.start.ask (.create (.number zero))
        (by simpa [Request.operands] using .scalar rfl)).ask
      (.makeList [.ref r]) (by simpa [Request.operands] using .scalar rfl)).ask
      (.makeList [.ref r]) (by simpa [Request.operands] using .scalar rfl)
  have ha : Held log a := .replied (q := .makeList [.ref r]) (r := .value a)
    (List.mem_cons_of_mem _ List.mem_cons_self) (by simp [Reply.held])
  have hb : Held log b := .replied (q := .makeList [.ref r]) (r := .value b) List.mem_cons_self
    (by simp [Reply.held])
  have hplain (s : Store) (l : ListNode) (hl : l.body.shown.toList = [.ref r]) :
      Value.Throughout s.shown (Wire.Plain zero fun _ => 0) (.list l) := by
    refine .intro trivial fun p hp => ?_
    obtain rfl : p = .ref r := by simpa [Value.contents, Value.parts, hl] using hp
    exact .intro rfl fun q hq => absurd hq List.not_mem_nil
  let tree : Cirru := .list [.leaf "[]", .list [.leaf "atom", .leaf "0"]]
  refine ⟨_, tree, tree, hmade, rfl, ?_, ?_, ?_⟩
  · decide +kernel +zetaReduce
  · decide +kernel +zetaReduce
  refine encode_eq_of_same hmade ha hb rfl ?_ ?_ (hplain _ _ rfl) (hplain _ _ rfl)
  · decide +kernel +zetaReduce
  · decide +kernel +zetaReduce

/-- The two zeros are equal, and their encoded forms are not. -/
theorem encode_shows_sign :
    let a : Value := .number (.ofBits 0)
    let b : Value := .number (.ofBits 0x8000000000000000)
    ∃ s c c', History default s [] ∧ s.same a b = true ∧
      (Wire.encode a s).1 = .ok c ∧ (Wire.encode b s).1 = .ok c' ∧ c ≠ c' := by
  intro a b
  exact ⟨.initial default, .leaf "0", .leaf "-0", .start, rfl, rfl, rfl, by decide⟩

end DynVal
