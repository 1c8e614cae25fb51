import DynVal.Proofs.Store.Decoding

/-!
# Encoding and decoding in a store

A value that shows neither references nor functions, recur markers or numbers that are not finite is
encoded, and decoding gives an equal value that is encoded in the same way (`decode_encode`). Both
operations change the store, so the value, the decoded one and the trees of both are compared under
one ranking with all the numbers drawn until the end.
-/

namespace DynVal

/-- Encoding a value that can be encoded succeeds, and decoding what came out succeeds with an equal
value, which is encoded in the same way. -/
theorem decode_encode {host : Host} {s : Store} {log : Log} (h : History host s log) {v : Value}
    (hv : Held log v) (he : v.Throughout s.shown fun p => Wire.isEncodable p = true) :
    ∃ c w s₁ s₂ s₃, Wire.encode v s = (.ok c, s₁) ∧ Wire.decode .strict c s₁ = (.ok w, s₂) ∧
      s₂.same w v = true ∧ Wire.encode w s₂ = (.ok c, s₃) := by
  obtain ⟨g, hs, hk⟩ := h.exists_stage
  have hsv := hk.held hv
  obtain ⟨hencodable, hcircular⟩ := Store.encodable_of_throughout he
  obtain ⟨c, s₁, w, s₂, made, g₂, hencode, hdecode, -, -, hext, hs₂, hsw, hdecodes⟩ :=
    hs.exists_decoded hsv hencodable hcircular
  -- one ranking for all
  obtain ⟨σ, hσ⟩ := hs₂.exists_admitted
  have hadm := hext.numbering.admits hσ
  have hwv := hsv.wellFormed hadm
  have hww := hsw.wellFormed hσ
  have hev := (hs.throughout_shown_iff hsv hadm).mp he
  have hcv := (hs.encode_ok_iff hsv hadm).mp (congrArg Prod.fst hencode)
  obtain ⟨horder, hcw, hew⟩ := Wire.returns_formAt hwv hev _ c w hcv ⟨made, hdecodes σ hσ⟩
  have hagain : (Wire.encode w s₂).1 = .ok c := by
    have hencodable := Store.encodable_of_throughout ((hs₂.throughout_shown_iff hsw hσ).mpr hew)
    obtain ⟨c', hc'⟩ := (hs₂.exists_encode_iff hsw).mpr hencodable
    obtain rfl := Wire.formAt_unique hcw ((hs₂.encode_ok_iff hsw hσ).mp hc')
    exact hc'
  refine ⟨c, w, s₁, s₂, _, hencode, hdecode, ?_, Prod.ext hagain rfl⟩
  rw [hs₂.same_eq hsw (hsv.extends hext) hσ]
  exact Value.equal_of_order_eq hww hwv (Wire.definite_of_formAt hcw)
    (Wire.definite_of_formAt hcv) (Std.OrientedCmp.eq_symm horder)

/-- A map from a tag without text to a list of a string without text. -/
theorem decode_encode_empty_texts :
    let l : Value := .list ⟨0, .window 0 0 1 #[.str ""]⟩
    let m : Value := .map ⟨1, .flat (.slice [(.tag ⟨""⟩, l)])⟩
    let log : Log := [(.makeMap [(.tag ⟨""⟩, l)], .ok (.value m)),
      (.makeList [.str ""], .ok (.value l))]
    ∃ s c w s₁ s₂ s₃, History default s log ∧ Wire.encode m s = (.ok c, s₁) ∧
      Wire.decode .strict c s₁ = (.ok w, s₂) ∧ s₂.same w m = true ∧
      Wire.encode w s₂ = (.ok c, s₃) := by
  intro l m log
  have hlist : History default _ [(.makeList [.str ""], .ok (.value l))] :=
    History.start.ask (.makeList [.str ""]) (by simpa [Request.operands] using .scalar rfl)
  have hl : Held [(.makeList [.str ""], .ok (.value l))] l :=
    .replied (q := .makeList [.str ""]) (r := .value l) List.mem_cons_self (by simp [Reply.held])
  have hmade : History default _ log := hlist.ask (.makeMap [(.tag ⟨""⟩, l)]) (by
    simpa [Request.operands] using ⟨.scalar rfl, hl⟩)
  have hm : Held log m := .replied (q := .makeMap [(.tag ⟨""⟩, l)]) (r := .value m)
    List.mem_cons_self (by simp [Reply.held])
  obtain ⟨c, w, s₁, s₂, s₃, h⟩ := decode_encode hmade hm <| .intro rfl fun p hp => by
    have hp : p ∈ [.tag ⟨""⟩, l] := hp
    rcases List.mem_pair.mp hp with rfl | rfl
    · exact .intro rfl fun q hq => absurd hq List.not_mem_nil
    · refine .intro rfl fun q hq => ?_
      obtain rfl : q = .str "" := List.mem_singleton.mp hq
      exact .intro rfl fun q hq => absurd hq List.not_mem_nil
  exact ⟨_, c, w, s₁, s₂, s₃, hmade, h⟩

end DynVal
