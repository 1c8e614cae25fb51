import DynVal.Proofs.Store.Decoding
import DynVal.Proofs.Wire.Modes

/-!
# Encoding what was decoded

Whatever a tree is decoded to is encoded in the store that decoding leaves, as the new cells have
what was decoded for them. The tree that comes out is a normal form if no cells were made: a value
without references comes back from its tree with that tree (`Store.At.returned`). So encoding what
was decoded makes a normal form of every tree without `atom` nodes (`encode_decoded`).
-/

namespace DynVal

open Value

namespace Store

variable {s s₁ s₂ : Store} {g g₁ g₂ : Stage} {v w : Value} {c : Cirru} {made : List (Ref × Value)}

/-- The new cells have the contents that they were made with, if their paths were free. -/
theorem Creates.content_eq (h : s.Creates made s₁)
    (hfree : ∀ n, s.paths ≤ n → s.refAt? (countedPath n) = none) :
    ∀ p ∈ made, s₁.content p.1 = p.2 := by
  rintro ⟨r, w⟩ hp
  obtain ⟨i, hi⟩ := List.mem_iff_getElem?.mp hp
  obtain ⟨-, -, -, -, hcell⟩ := h.fresh hfree hi
  have hread : s₁.cells[r.cell]? = _ := hcell
  simp only [content, hread]

/-- A value without references comes back from its tree as an equal value with the same tree. -/
theorem At.returned (hs : s.At g) (hv : v.Sound g)
    (he : v.Throughout s.shown fun p => Wire.isEncodable p = true)
    (hc : (Wire.encode v s).1 = .ok c) (hext : g.Extends g₂) (hs₂ : s₂.At g₂)
    (hw : Wire.Decoded .strict c g₂ w made) :
    s₂.same w v = true ∧ (Wire.encode w s₂).1 = .ok c := by
  obtain ⟨ρ, hρ⟩ := hs₂.exists_admitted
  have hadm := hext.numbering.admits hρ
  have hwv := hv.wellFormed hadm
  have hform := (hs.encode_ok_iff hv hadm).mp hc
  have hev := (hs.throughout_shown_iff hv hadm).mp he
  obtain ⟨horder, hformw, -⟩ := @Wire.returns_formAt ρ s.content s₂.content _ (fun _ => failure) v
    hwv hev _ c w hform ⟨made, hw.2 ρ hρ⟩
  refine ⟨?_, hs₂.encode_of_formAt hw.1 hρ hformw⟩
  rw [hs₂.same_eq hw.1 (hv.extends hext) hρ]
  exact equal_of_order_eq (hw.1.wellFormed hρ) hwv (Wire.definite_of_formAt hformw)
    (Wire.definite_of_formAt hform) (Std.OrientedCmp.eq_symm horder)

end Store

/-- Whatever a tree is decoded to, in either mode, is encoded again where the paths that are counted
from then on are free. If the tree has no `atom` nodes, bare words aside, then what comes out is a
normal form: it is decoded to an equal value, which is encoded in the same way. -/
theorem encode_decoded {host : Host} {s : Store} {log : Log} (h : History host s log)
    {mode : Wire.Mode} {c : Cirru} {v : Value} {s₁ : Store}
    (hd : Wire.decode mode c s = (.ok v, s₁))
    (hfree : ∀ n, s.paths ≤ n → s.refAt? (countedPath n) = none) :
    ∃ i s₂, Wire.encode v s₁ = (.ok i, s₂) ∧
      (Wire.atoms (Wire.markWords c) = 0 → ∃ w s₃ s₄, Wire.decode mode i s₂ = (.ok w, s₃) ∧
        s₃.same w v = true ∧ Wire.encode w s₃ = (.ok i, s₄)) := by
  obtain ⟨g, hs, -⟩ := h.exists_stage
  obtain ⟨made, g₁, hmade, hlen, -, hs₁, hv, hdecodes⟩ := hs.decoded (Wire.strict_of_decode hd)
  obtain ⟨ρ, hρ⟩ := hs₁.exists_admitted
  -- the tree
  obtain ⟨d, i, hform⟩ : ∃ d i, Wire.formAt ρ.rank s₁.content (fun _ => failure) d v = .ok i :=
    (hdecodes ρ hρ).exists_formAt (hmade.content_eq hfree)
  have hencode := hs₁.encode_of_formAt hv hρ hform
  refine ⟨i, _, Prod.ext hencode rfl, fun hatoms => ?_⟩
  -- its value
  obtain rfl : made = [] := List.length_eq_zero_iff.mp (hlen.trans hatoms)
  have he := (hs₁.throughout_shown_iff hv hρ).mpr (hdecodes ρ hρ).encodable
  obtain ⟨hencodable, hcircular⟩ := Store.encodable_of_throughout he
  obtain ⟨i', s₂, w, s₃, made, g₃, hencode', hdecode, -, -, hext, hs₃, hw⟩ :=
    hs₁.exists_decoded hv hencodable hcircular
  obtain rfl : i = i' := Except.ok.inj (hencode.symm.trans (congrArg Prod.fst hencode'))
  obtain rfl : (Wire.encode v s₁).2 = s₂ := congrArg Prod.snd hencode'
  obtain ⟨hsame, hagain⟩ := hs₁.returned hv he hencode hext hs₃ hw
  exact ⟨w, s₃, _, Wire.decode_of_strict hdecode, hsame, Prod.ext hagain rfl⟩

/-- Elements that are bare words, out of order and repeated. -/
theorem encode_decoded_unsorted :
    let c : Cirru := .list [.leaf "#\x7b\x7d", .leaf "b", .list [.leaf "do", .leaf "a"], .leaf "b"]
    let i : Cirru := .list [.leaf "#\x7b\x7d", .leaf "|a", .leaf "|b"]
    ∃ s v s₁ s₂ w s₃ s₄, History default s [] ∧ Wire.decode .permissive c s = (.ok v, s₁) ∧
      Wire.encode v s₁ = (.ok i, s₂) ∧ Wire.decode .permissive i s₂ = (.ok w, s₃) ∧
      s₃.same w v = true ∧ Wire.encode w s₃ = (.ok i, s₄) := by
  intro c i
  have hd : Wire.decode .permissive c (.initial default) =
      (.ok (.set ⟨0, ⟨.slice [(.str "b", ()), (.str "a", ())]⟩⟩), _) :=
    Prod.ext (by rfl) rfl
  obtain ⟨j, s₂, hencode, hnormal⟩ := encode_decoded .start hd fun _ _ => rfl
  obtain rfl : j = i := Except.ok.inj ((congrArg Prod.fst hencode).symm.trans (by rfl))
  obtain ⟨w, s₃, s₄, hdecode, hsame, hagain⟩ := hnormal (by decide +kernel)
  exact ⟨_, _, _, s₂, w, s₃, s₄, .start, hd, hencode, hdecode, hsame, hagain⟩

end DynVal
