import DynVal.Proofs.Store.Decoding
import DynVal.Proofs.Store.References
import DynVal.Proofs.Wire.Copies

/-!
# Encoding and decoding references

A value with references is encoded unless it is circular or something without an encoded form is
behind it, and decoding gives a copy of it with cells of its own (`decode_encode_copies`). The new
references are unequal to all that were handed out before if their paths were never named. That
these are free does not suffice, as a path may have been given up again (`decode_at_former_path`).
-/

namespace DynVal

open Op Relation Value

/-! ## Copies in a store -/

namespace Wire

variable {entries entries' shown shown' : MapNode → List (Value × Value)} {content : Ref → Value}
  {R R' : Value → Value → List (Ref × Value) → Prop} {v w : Value} {tr : List (Ref × Value)}

/-- Maps may be read in other ways that show the same entries, and contents be copied otherwise. -/
theorem CopyBy.congr (h : CopyBy entries entries' content R v w tr)
    (hx : ∀ x, v = .map x → (entries x).Perm (shown x))
    (hy : ∀ y, w = .map y → (entries' y).Perm (shown' y))
    (hR : ∀ p, v.Leads entries content p → ∀ q, q ∈ w.contents entries' ∨ q ∈ tr.map Prod.snd →
      ∀ t, t.Sublist tr → R p q t → R' p q t) : CopyBy shown shown' content R' v w tr := by
  cases h with
  | scalar hl he => exact .scalar hl he
  | @ref q r w tr h =>
    exact .ref (hR _ (.cell q) w (.inr (by simp)) tr (List.sublist_append_left _ _) h)
  | list h => exact .list (h.mono fun p hp q hq t ht => hR p (.part hp) q (.inl hq) t ht)
  | tuple h => exact .tuple (h.mono fun p hp q hq t ht => hR p (.part hp) q (.inl hq) t ht)
  | set hs ht h =>
    refine .set hs ht (h.mono fun p hp q hq t => hR p (.part ?_) q (.inl ?_) t)
    · exact hs.mem_iff.mp hp
    · exact ht.mem_iff.mp hq
  | map hes hfs h =>
    refine .map (hes.trans (hx _ rfl)) (hfs.trans (hy _ rfl)) (h.mono fun e he f hf t ht => ?_)
    rintro ⟨tk, tv, rfl, hk, hv⟩
    have hxs := mem_contents_map (hes.mem_iff.mp he)
    have hys := mem_contents_map (hfs.mem_iff.mp hf)
    exact ⟨tk, tv, rfl,
      hR _ (.part hxs.1) _ (.inl hys.1) tk ((List.sublist_append_left _ _).trans ht) hk,
      hR _ (.part hxs.2) _ (.inl hys.2) tv ((List.sublist_append_right _ _).trans ht) hv⟩
  | record hn hr hq h =>
    refine .record hn hr hq (h.mono fun f hf g hg t ht hfg => ⟨hfg.1, ?_⟩)
    refine hR _ (.part ?_) _ (.inl ?_) t ht hfg.2
    · exact List.mem_map_of_mem (hr.mem_iff.mp hf)
    · exact List.mem_map_of_mem (hq.mem_iff.mp hg)

theorem CopyAt.congr {S S' : Value → Prop} {d : Nat}
    (hS : ∀ v, S v → ∀ p, v.Leads entries content p → S p)
    (hS' : ∀ w, S' w → ∀ q ∈ w.contents entries', S' q)
    (hx : ∀ x, S (.map x) → (entries x).Perm (shown x))
    (hy : ∀ y, S' (.map y) → (entries' y).Perm (shown' y))
    (hv : S v) (hw : S' w) (htr : ∀ p ∈ tr, S' p.2) (h : CopyAt entries entries' content d v w tr) :
    CopyAt shown shown' content d v w tr := by
  induction d generalizing v w tr with
  | zero => cases h
  | succ d ih =>
    refine CopyBy.congr h (fun x h => hx x (h ▸ hv)) (fun y h => hy y (h ▸ hw))
      fun p hp q hq t ht => ih (hS v hv p hp) ?_ fun u hu => htr u (ht.subset hu)
    rcases hq with hq | hq
    · exact hS' w hw q hq
    · obtain ⟨u, hu, rfl⟩ := List.mem_map.mp hq
      exact htr u hu

end Wire

/-- A copy of a value, where maps are read in the store and in a later one. -/
def Store.Copies (s s' : Store) (v w : Value) (made : List (Ref × Value)) : Prop :=
  ∃ d, Wire.CopyAt s.shown s'.shown s.content d v w made

section Copies

variable {s s' : Store} {g g' : Stage} {v w : Value} {ρ : Ranking} {made : List (Ref × Value)}

theorem Store.At.copies (hs : s.At g) (hs' : s'.At g') (hv : v.Sound g) (hw : w.Sound g')
    (hρ : g.numbering.Admits ρ) (hρ' : g'.numbering.Admits ρ) (hmade : ∀ p ∈ made, p.2.Sound g')
    {d : Nat} (h : Wire.CopyUnder ρ s.content d v w made) : s.Copies s' v w made := by
  refine ⟨d, Wire.CopyAt.congr ?_ ?_ ?_ ?_ hv hw hmade h⟩
  · exact fun v hv p => hs.sound_of_leads contents_subset_parts hv
  · exact fun w hw q hq => hw.parts q (contents_subset_parts hq)
  · exact fun x hx => (hs.shown_perm hx hρ).symm
  · exact fun y hy => (hs'.shown_perm hy hρ').symm

end Copies

/-! ## There and back -/

/-- A new reference is unequal to all that were handed out before unless its path was named. -/
theorem Store.Creates.unequal_iff {host : Host} {s s' : Store} {made : List (Ref × Value)}
    {handed : List Ref} {named : List String} (h : s.Creates made s')
    (hh : Cells.History host s handed named) :
    (∀ p ∈ made, ∀ q ∈ handed, s'.same (.ref q) (.ref p.1) = false) ↔
      ∀ i, i < made.length → countedPath (s.paths + i) ∉ named := by
  have hacc := hh.accounted
  constructor
  · intro hne i hi hn
    obtain ⟨q, hq, hpath⟩ := hacc.found _ hn
    have := hne _ (List.getElem_mem hi) q hq
    rw [Cells.same_ref, hpath, h.path_getElem hi, beq_self_eq_true] at this
    cases this
  · intro hn p hp q hq
    obtain ⟨i, hi, rfl⟩ := List.getElem_of_mem hp
    rw [Cells.same_ref, h.path_getElem hi]
    refine beq_eq_false_iff_ne.mpr fun heq => ?_
    rcases hacc.used q hq with hnamed | ⟨n, hlt, hcounted⟩
    · exact hn i hi (heq ▸ hnamed)
    · have := countedPath_injective (hcounted.symm.trans heq)
      omega

theorem decode_encode_copies {host : Host} {s : Store} {log : Log} (h : History host s log)
    {v : Value} (hv : Held log v) (he : s.Encodable v) (hc : ¬ s.Circular v)
    (hfree : ∀ n, s.paths ≤ n → s.refAt? (countedPath n) = none) :
    ∃ c s₁ w s₂ made, Wire.encode v s = (.ok c, s₁) ∧ Wire.decode .strict c s₁ = (.ok w, s₂) ∧
      -- for each `atom` node there is a new cell with what was decoded in it
      made.length = Wire.atoms c ∧ s₂.paths = s.paths + made.length ∧
      (∀ i r u, made[i]? = some (r, u) → r.path = countedPath (s.paths + i) ∧
        s.refAt? r.path = none ∧ s₂.refAt? r.path = some r ∧ s.cells.size ≤ r.cell ∧
        s₂.cell? r = some ⟨r.path, u, []⟩) ∧
      -- cells that were there before are as they were, and nothing else is registered
      (∀ (i : Nat) (cell : Cell), s.cells[i]? = some cell → s₂.cells[i]? = some cell) ∧
      (∀ path, (∀ p ∈ made, p.1.path ≠ path) → s₂.refAt? path = s.refAt? path) ∧
      -- the result is a copy, with the new references
      s.Copies s₂ v w made ∧
      -- which are unequal to all earlier ones unless their paths were named
      ∀ handed named, Cells.History host s handed named →
        ((∀ p ∈ made, ∀ q ∈ handed, s₂.same (.ref q) (.ref p.1) = false) ↔
          ∀ i, i < made.length → countedPath (s.paths + i) ∉ named) := by
  obtain ⟨g, hs, hk⟩ := h.exists_stage
  have hsv := hk.held hv
  obtain ⟨c, s₁, w, s₂, made, g₂, hencode, hdecode, hmade, hlen, hext, hs₂, hsw, hdecodes⟩ :=
    hs.exists_decoded hsv he hc
  have hcontents : ∀ p ∈ made, p.2.Sound g₂ := by
    rintro ⟨r, u⟩ hp
    obtain ⟨i, hi⟩ := List.mem_iff_getElem?.mp hp
    obtain ⟨-, -, -, -, hcell⟩ := hmade.fresh hfree hi
    exact hs₂.cells _ (Array.mem_toList_iff.mpr (Array.mem_of_getElem? hcell))
  -- under one ranking what is decoded is a copy of what was encoded
  obtain ⟨ρ, hρ⟩ := hs₂.exists_admitted
  have hadm := hext.numbering.admits hρ
  have hform := (hs.encode_ok_iff hsv hadm).mp (congrArg Prod.fst hencode)
  have hcopy := Wire.copyAt_of_formAt (fun r => (hs.content_sound r).wellFormed hadm)
    (hsv.wellFormed hadm) c w made hform (hdecodes ρ hρ) hmade.distinct
  exact ⟨c, s₁, w, s₂, made, hencode, hdecode, hlen, hmade.paths,
    fun _ _ _ => hmade.fresh hfree, hmade.cells, fun _ => hmade.refAt?_eq,
    hs.copies hs₂ hsv hsw hadm hρ hcontents hcopy, fun _ _ => hmade.unequal_iff⟩

/-- A reference with a truth value. -/
theorem decode_encode_copies_bool :
    let r : Ref := ⟨0, "ref:0"⟩
    ∃ s c s₁ w s₂ made, History default s [(.create (.bool true), .ok (.value (.ref r)))] ∧
      Wire.encode (.ref r) s = (.ok c, s₁) ∧ Wire.decode .strict c s₁ = (.ok w, s₂) ∧
      s.Copies s₂ (.ref r) w made ∧ ∀ p ∈ made, s₂.same (.ref r) (.ref p.1) = false := by
  intro r
  have hmade : History default _ [(.create (.bool true), .ok (.value (.ref r)))] :=
    History.start.ask (.create (.bool true)) (by simpa [Request.operands] using .scalar rfl)
  have hhanded : Cells.History default _ [r] [] := Cells.History.start.create (.bool true) rfl
  generalize hs : ((Request.create (.bool true)).perform (.initial default)).2 = s at hmade
  have hcontent : s.content r = .bool true := hs ▸ rfl
  have hleads (p : Value) (hp : Leads s.shown s.content (.ref r) p) : p = .bool true :=
    (leads_ref_iff.mp hp).trans hcontent
  have hends (p : Value) : ¬ Leads s.shown s.content (.bool true) p := by
    rw [leads_iff_of_not_ref fun _ => Value.noConfusion]
    exact List.not_mem_nil
  have hencodable : s.Encodable (.ref r) := by
    intro p hp
    rcases ReflTransGen.cases_head hp with rfl | ⟨q, hq, hqp⟩
    · exact .inl ⟨r, rfl⟩
    · obtain rfl := hleads q hq
      rcases ReflTransGen.cases_head hqp with rfl | ⟨u, hu, -⟩
      · exact .inr rfl
      · exact absurd hu (hends u)
  have hcircular : ¬ s.Circular (.ref r) := by
    have hwithin : EndsWithin s.shown s.content 2 (.ref r) := fun p hp q hq =>
      absurd (hleads p hp ▸ hq) (hends q)
    exact hwithin.not_circular
  have hfree (n : Nat) (hn : s.paths ≤ n) : s.refAt? (countedPath n) = none := by
    have hpaths : s.paths = 1 := hs ▸ rfl
    have href : s.refAt? (countedPath n) =
        if countedPath 0 = countedPath n then some ⟨0, countedPath n⟩ else none :=
      hs ▸ refAt?_addCell _ _ _
    rw [href, if_neg fun h => ?_]
    have := countedPath_injective h
    omega
  obtain ⟨c, s₁, w, s₂, made, hencode, hdecode, -, -, -, -, -, hcopies, hunequal⟩ :=
    decode_encode_copies hmade (.scalar rfl) hencodable hcircular hfree
  refine ⟨s, c, s₁, w, s₂, made, hmade, hencode, hdecode, hcopies, fun p hp => ?_⟩
  exact (hunequal [r] [] (hs ▸ hhanded)).mpr (fun _ _ => List.not_mem_nil) p hp r List.mem_cons_self

/-- The path of a cell that was taken out of the registry is handed out again, and the new reference
is equal to the old one. -/
theorem decode_at_former_path :
    let d : Ref := ⟨0, "ref:0"⟩
    ∃ s c s₁ r s₂, History default s [(.define "ref:0" .nil, .ok (.value (.ref d)))] ∧
      Cells.History default s [d] ["ref:0"] ∧
      (∀ n, s.paths ≤ n → s.refAt? (countedPath n) = none) ∧
      Wire.encode (.ref d) s = (.ok c, s₁) ∧ Wire.decode .strict c s₁ = (.ok (.ref r), s₂) ∧
      s₂.same (.ref d) (.ref r) = true := by
  intro d
  let added : Store := (Store.initial default).addCell ⟨"ref:0", .nil, []⟩
  let s : Store := { added with registry := (Registry.empty.put "ref:0" 0).erase "ref:0" }
  have hdefine : Cells.define "ref:0" .nil (.initial default) = (.ok d, added) :=
    Cells.define_unregistered rfl .nil
  have hdefined : History default s [(.define "ref:0" .nil, .ok (.value (.ref d)))] := by
    have hasked := (@History.start default).ask (.define "ref:0" .nil)
      (by simpa [Request.operands] using .scalar rfl)
    have hrun : (Request.define "ref:0" .nil).perform (.initial default) =
        (.ok (.value (.ref d)), added) := by
      have hperform : (Request.define "ref:0" .nil).perform =
          (Cells.define "ref:0" .nil >>= fun r => pure (Reply.value (.ref r)) : Op Reply) := rfl
      rw [hperform, bind_ok (congrArg Prod.fst hdefine), hdefine]
      rfl
    rw [hrun] at hasked
    exact hasked.elsewhere ⟨rfl, rfl, rfl, rfl⟩
  have hhanded : Cells.History default s [d] ["ref:0"] := by
    have hnamed := (@Cells.History.start default).define "ref:0" .nil (congrArg Prod.fst hdefine)
    rw [hdefine] at hnamed
    exact hnamed.remove "ref:0"
  have hfree (path : String) : s.refAt? path = none := by
    have hget : s.registry.get? path = none := by
      rw [Registry.get?_erase]
      split
      · rfl
      · rw [Registry.get?_put, if_neg ‹_›]
        rfl
    rw [Store.refAt?, hget]
    rfl
  have hencode : (Wire.encode (.ref d) s).1 = .ok (.list [.leaf "atom", .leaf "nil"]) := rfl
  have hpaths : (Wire.encode (.ref d) s).2.paths = 0 :=
    (moves_encode basics_createsNothing (.ref d) s).paths
  obtain ⟨r, s₂, hcreate, hmade⟩ := Cells.creates_create .nil (Wire.encode (.ref d) s).2
  have hdecode : Wire.decode .strict (.list [.leaf "atom", .leaf "nil"])
      (Wire.encode (.ref d) s).2 = (.ok (.ref r), s₂) := by
    have hnil : Wire.decodeLeaf .strict "nil" = .ok .nil := rfl
    have hatom : Wire.decode .strict (.list [.leaf "atom", .leaf "nil"]) =
        (Cells.create .nil >>= fun r => pure (.ref r) : Op Value) := by
      rw [Wire.decode_atom, Wire.decode_leaf, hnil]
      rfl
    rw [hatom, bind_ok (congrArg Prod.fst hcreate), hcreate]
    rfl
  have hsame : s₂.same (.ref d) (.ref r) = true := by
    rw [Cells.same_ref, (hmade.made 0 r .nil rfl).1, hpaths]
    rfl
  exact ⟨s, _, _, r, s₂, hdefined, hhanded, fun n _ => hfree _, Prod.ext hencode rfl, hdecode,
    hsame⟩

end DynVal
