import DynVal.Proofs.Store.Descents
import DynVal.Proofs.Store.Encoding
import DynVal.Proofs.Wire.Outcomes

/-!
# From values to trees and back

Encoding has a result just if descents come to nothing without an encoded form and to no reference
that leads back to itself (`Store.At.exists_encode_iff`). The tree is then decoded, and the value
that comes out is the one that the tree describes, with a new cell for each `atom` node
(`Store.At.exists_decoded`).
-/

namespace DynVal

open Op Relation

namespace Store

variable {s : Store} {g : Stage} {v p : Value}

/-- Descents come to references and to scalars and collections with an encoded form. -/
def Encodable (s : Store) (v : Value) : Prop :=
  ∀ p, ReflTransGen (Value.Leads s.shown s.content) v p →
    (∃ r, p = .ref r) ∨ Wire.isEncodable p = true

/-- Just what is encodable and does not lead back to itself is encoded. -/
theorem At.exists_encode_iff (hs : s.At g) (hv : v.Sound g) :
    (∃ c, (Wire.encode v s).1 = .ok c) ↔ s.Encodable v ∧ ¬ s.Circular v := by
  obtain ⟨ρ, hρ⟩ := hs.exists_admitted
  have hencodable : s.Encodable v ↔
      ∀ p, ReflTransGen (Value.Leads (Value.entriesUnder ρ.rank) s.content) v p →
        (∃ r, p = .ref r) ∨ Wire.isEncodable p = true :=
    forall_congr' fun p => imp_congr_left (hs.reaches_iff hv hρ)
  have hends : ¬ s.Circular v ↔ v.EndsWithin (Value.entriesUnder ρ.rank) s.content (s.reach v) := by
    rw [hs.circular_iff hv hρ]
    exact ⟨hs.endsWithin_reach hv, Value.EndsWithin.not_circular⟩
  rw [hencodable, hends, and_comm, ← Wire.exists_formAt_iff]
  exact exists_congr fun c => hs.encode_ok_iff hv hρ

/-- A tree that a value has down to some depth is the one that encoding gives. -/
theorem At.encode_of_formAt (hs : s.At g) (hv : v.Sound g) {ρ : Ranking}
    (hρ : g.numbering.Admits ρ) {text : Value → OptionT Id String} {d : Nat} {c : Cirru}
    (h : Wire.formAt ρ.rank s.content text d v = .ok c) : (Wire.encode v s).1 = .ok c := by
  obtain ⟨hends, he⟩ := Wire.exists_formAt_iff.mp ⟨c, h⟩
  have hcircular := mt (hs.circular_iff hv hρ).mp hends.not_circular
  obtain ⟨c', hc'⟩ := (hs.exists_encode_iff hv).mpr
    ⟨fun p hp => he p ((hs.reaches_iff hv hρ).mp hp), hcircular⟩
  -- the text of what is refused makes no difference
  have hcontent (r : Ref) := (hs.content_sound r).wellFormed hρ
  have hwf := hv.wellFormed hρ
  have hform := (hs.encode_ok_iff hv hρ).mp hc'
  rwa [Wire.formAt_unique h (Wire.formAt_rank hcontent hcontent hwf hwf hform)]

/-- What holds throughout a value and of no reference holds of all that descents come to. -/
theorem reaches_throughout {P : Value → Prop} (hP : ∀ r, ¬ P (.ref r)) (hv : v.Throughout s.shown P)
    (h : ReflTransGen (Value.Leads s.shown s.content) v p) : p.Throughout s.shown P := by
  induction h with
  | refl => exact hv
  | tail _ hp ih =>
    cases hp with
    | part hp => exact ih.contents _ hp
    | cell r => exact absurd ih.here (hP r)

/-- A value without references does not lead back to itself. -/
theorem encodable_of_throughout (hv : v.Throughout s.shown fun p => Wire.isEncodable p = true) :
    s.Encodable v ∧ ¬ s.Circular v := by
  have hreaches {p : Value} (hp : ReflTransGen (Value.Leads s.shown s.content) v p) :
      Wire.isEncodable p = true := (reaches_throughout (fun _ => Bool.false_ne_true) hv hp).here
  refine ⟨fun p hp => .inr (hreaches hp), ?_⟩
  rintro ⟨r, hr, -⟩
  exact Bool.false_ne_true (hreaches hr)

/-- What strict decoding gives is what the tree describes, with a new cell for each `atom` node. -/
theorem At.decoded (hs : s.At g) {c : Cirru} {s' : Store}
    (h : Wire.decode .strict c s = (.ok v, s')) :
    ∃ made g', s.Creates made s' ∧ made.length = Wire.atoms c ∧ g.Extends g' ∧ s'.At g' ∧
      Wire.Decoded .strict c g' v made := by
  obtain ⟨g', hext, hs', htraced⟩ := @Wire.traces_decode .strict c g s hs
  rw [h] at hs' htraced
  obtain ⟨made, hmade, hdecoded⟩ := htraced v rfl
  obtain ⟨ρ, hρ⟩ := hs'.exists_admitted
  exact ⟨made, g', hmade, (hdecoded.2 ρ hρ).length_eq, hext, hs', hdecoded⟩

/-- Encoding and then decoding has a result, which the tree describes, and creates a cell for each
`atom` node. -/
theorem At.exists_decoded (hs : s.At g) (hv : v.Sound g)
    (he : s.Encodable v) (hc : ¬ s.Circular v) :
    ∃ c s₁ w s₂ made g₂, Wire.encode v s = (.ok c, s₁) ∧
      Wire.decode .strict c s₁ = (.ok w, s₂) ∧ s.Creates made s₂ ∧ made.length = Wire.atoms c ∧
      g.Extends g₂ ∧ s₂.At g₂ ∧ Wire.Decoded .strict c g₂ w made := by
  -- the tree
  obtain ⟨ρ, hρ⟩ := hs.exists_admitted
  obtain ⟨c, hencode⟩ := (hs.exists_encode_iff hv).mpr ⟨he, hc⟩
  have hform := (hs.encode_ok_iff hv hρ).mp hencode
  have hgrammatical : Wire.Grammatical c := Wire.grammatical_of_formAt
    (fun r => (hs.content_sound r).wellFormed hρ) (hv.wellFormed hρ) hform
  -- what it is decoded to
  obtain ⟨g₁, hext₁, hs₁, -⟩ := hs.encode_eq hv
  obtain ⟨w, hw⟩ : ∃ w, (Wire.decode .strict c (Wire.encode v s).2).1 = .ok w := by
    cases hr : (Wire.decode .strict c (Wire.encode v s).2).1 with
    | ok w => exact ⟨w, rfl⟩
    | error e => exact ((Wire.accepts_decode hgrammatical _).2 e hr).elim
  have hdecode : Wire.decode .strict c (Wire.encode v s).2 = (.ok w, _) := Prod.ext hw rfl
  obtain ⟨made, g₂, hmade, hlen, hext₂, hs₂, hdecoded⟩ := hs₁.decoded hdecode
  exact ⟨c, _, w, _, made, g₂, Prod.ext hencode rfl, hdecode,
    (moves_encode basics_createsNothing v s).trans hmade, hlen, hext₁.trans hext₂, hs₂, hdecoded⟩

end Store
end DynVal
