import DynVal.Proofs.Wire.RoundTrip
import DynVal.Proofs.Wire.Surveys

/-!
# What decoding gives

Decoding makes nothing that has no encoded form: its scalars are encodable, and the references that
it makes lead to what was decoded before them. So what holds of encodable values made of such as it
holds of, and of references to such, holds of all that a tree describes (`Wire.Decodes.closed`). A
tree has as many references as `atom` nodes (`Wire.Decodes.length_eq`).
-/

namespace DynVal.Wire

open Memo Value

section Closed

variable {ρ : Ranking} {mode : Mode} {P : Value → Prop}

theorem isEncodable_of_decodeLeaf {s : String} {v : Value} (h : decodeLeaf mode s = .ok v) :
    isEncodable v = true :=
  of_decodeLeaf (P := fun v => isEncodable v = true) rfl (fun _ => rfl) (fun _ h => h)
    (fun _ => rfl) (fun _ => rfl) (fun _ => rfl) h

/-- A set holds nothing but what it was made of. -/
theorem forall_elements_ofList {xs : List Value} (hxs : ∀ x ∈ xs, P x) :
    ∀ p ∈ (Id.run (Set.ofList (keysUnder ρ) xs)).elements, P p :=
  Tracking.members_elements
    (Tracking.gives_ofList (Tracking.plain_keys (keysUnder ρ)) hxs).1

/-- Nor does a map. -/
theorem forall_entries_ofPairs {x : MapNode} {ps : List (Value × Value)}
    (hx : x.body = Id.run (Map.ofPairs (keysUnder ρ) ps)) (hps : ∀ e ∈ ps, P e.1 ∧ P e.2) :
    ∀ p ∈ contents (entriesUnder ρ.rank) (.map x), P p := by
  have hall : x.body.All P := hx ▸
    (Tracking.gives_mapOfPairs (Tracking.plain_keys (keysUnder ρ)) hps).1
  exact fun p hp => Map.all_iff.mp hall p (contents_subset_parts hp)

/-- What holds of encodable values made of such, and of the references of the tree to such. -/
theorem Decodes.closed
    (hvalue : ∀ v, isEncodable v = true → (∀ p ∈ v.contents (entriesUnder ρ.rank), P p) → P v)
    {c : Cirru} {v : Value} {tr : List (Ref × Value)} (h : Decodes ρ mode c v tr)
    (href : ∀ r w, (r, w) ∈ tr → P w → P (.ref r)) : P v := by
  induction c using node_induction generalizing v tr with
  | leaf s =>
    obtain ⟨hs, -⟩ := decodes_leaf h
    have hlevel := level_of_decodeLeaf hs
    refine hvalue v (isEncodable_of_decodeLeaf hs) fun p hp => ?_
    cases v <;> first | exact absurd hp List.not_mem_nil | cases hlevel
  | list cs ih =>
    obtain ⟨l, rfl, hparts⟩ := decodes_list h
    refine hvalue _ rfl fun p hp => ?_
    obtain ⟨c, hc, t, ht, hcp⟩ := hparts.exists_left hp
    exact ih c hc hcp fun r w hr => href r w (ht.subset hr)
  | set cs ih =>
    obtain ⟨s, xs, rfl, hparts, hbody⟩ := decodes_set h
    refine hvalue _ rfl ?_
    have hxs : ∀ p ∈ xs, P p := by
      intro p hp
      obtain ⟨c, hc, t, ht, hcp⟩ := hparts.exists_left hp
      exact ih c hc hcp fun r w hr => href r w (ht.subset hr)
    exact (hbody ▸ forall_elements_ofList hxs : ∀ p ∈ s.body.elements, P p)
  | map cs ih =>
    obtain ⟨x, ps, rfl, hparts, hbody⟩ := decodes_map h
    refine hvalue _ rfl (forall_entries_ofPairs hbody fun e he => ?_)
    obtain ⟨c, hc, t, ht, k, v, trk, trv, rfl, rfl, hk, hv⟩ := hparts.exists_left he
    obtain ⟨ihk, ihv⟩ := ih k v hc
    exact ⟨ihk hk fun r w hr => href r w (ht.subset (List.mem_append_left _ hr)),
      ihv hv fun r w hr => href r w (ht.subset (List.mem_append_right _ hr))⟩
  | record name cs ih =>
    obtain ⟨r, t, fs, rfl, -, hparts, hbody⟩ := decodes_record h
    refine hvalue _ rfl fun p hp => ?_
    obtain ⟨f, hf, rfl⟩ := List.mem_map.mp hp
    have hmem : f ∈ fs := by
      rw [Record.fields_ofPairs hbody] at hf
      exact (Record.sortBy_perm fs).mem_iff.mp hf
    obtain ⟨c, hc, t, ht, k, v, rfl, -, hv⟩ := hparts.exists_left hmem
    exact ih k v hc hv fun r w hr => href r w (ht.subset hr)
  | tuple head cs ihh ih =>
    obtain ⟨t, rfl, hparts⟩ := decodes_tuple h
    refine hvalue _ rfl fun p hp => ?_
    obtain ⟨c, hc, t', ht, hcp⟩ := hparts.exists_left hp
    rcases List.mem_cons.mp hc with rfl | hc
    · exact ihh hcp fun r w hr => href r w (ht.subset hr)
    · exact ih c hc hcp fun r w hr => href r w (ht.subset hr)
  | quote c =>
    obtain ⟨rfl, -⟩ := decodes_quote h
    exact hvalue _ rfl fun p hp => absurd hp List.not_mem_nil
  | atom c ih =>
    obtain ⟨r, w, tr', rfl, rfl, hw⟩ := decodes_atom h
    refine href r w (List.mem_append_right _ List.mem_cons_self) ?_
    exact ih hw fun q u hq => href q u (List.mem_append_left _ hq)
  | inner c ih => exact ih (decodes_inner h) href
  | other c hn => exact absurd h.node hn

/-- Where some values have trees down to depths of their own, one depth is enough for all. -/
theorem exists_depth {content : Ref → Value} {text : Value → OptionT Id String} {vs : List Value}
    (h : ∀ p ∈ vs, ∃ d i, formAt ρ.rank content text d p = .ok i) :
    ∃ d, ∀ p ∈ vs, ∃ i, formAt ρ.rank content text d p = .ok i := by
  induction vs with
  | nil => exact ⟨0, by simp⟩
  | cons p vs ih =>
    obtain ⟨d, i, hi⟩ := h p List.mem_cons_self
    obtain ⟨d', hd'⟩ := ih fun q hq => h q (List.mem_cons_of_mem _ hq)
    refine ⟨max d d', List.forall_mem_cons.mpr ⟨⟨i, formAt_mono (Nat.le_max_left d d') hi⟩, ?_⟩⟩
    intro q hq
    obtain ⟨j, hj⟩ := hd' q hq
    exact ⟨j, formAt_mono (Nat.le_max_right d d') hj⟩

/-- What was decoded has a tree where the new cells have what was decoded for them. -/
theorem Decodes.exists_formAt {content : Ref → Value} {text : Value → OptionT Id String} {c : Cirru}
    {v : Value} {tr : List (Ref × Value)} (h : Decodes ρ mode c v tr)
    (hcontent : ∀ p ∈ tr, content p.1 = p.2) : ∃ d i, formAt ρ.rank content text d v = .ok i := by
  refine h.closed (P := fun v => ∃ d i, formAt ρ.rank content text d v = .ok i)
    (fun v he hparts => ?_) fun r w hr => ?_
  · obtain ⟨d, hd⟩ := exists_depth hparts
    obtain ⟨i, hi⟩ := exists_formBy he hd
    exact ⟨d + 1, i, formAt_succ_iff.mpr hi⟩
  · rintro ⟨d, i, hi⟩
    have hw : content r = w := hcontent _ hr
    exact ⟨d + 1, _, formAt_succ_iff.mpr (.ref (hw ▸ hi))⟩

/-- What was decoded holds neither NaN nor recur markers. -/
theorem Decodes.definite {c : Cirru} {v : Value} {tr : List (Ref × Value)}
    (h : Decodes ρ mode c v tr) :
    v.Throughout (entriesUnder ρ.rank) fun p => p.isDefinite = true :=
  h.closed (fun _ he hparts => .intro (isDefinite_of_isEncodable he) hparts) fun _ _ _ _ =>
    .intro rfl fun _ hp => absurd hp List.not_mem_nil

/-- What was decoded without making cells holds nothing but encodable values. -/
theorem Decodes.encodable {c : Cirru} {v : Value} (h : Decodes ρ mode c v []) :
    Encodable ρ.rank v :=
  h.closed (fun _ he hparts => .intro he hparts) fun _ _ hr => absurd hr List.not_mem_nil

end Closed

/-! ## How many references there are -/

section Length

variable {ρ : Ranking} {c : Cirru} {cs : List Cirru} {tr : List (Ref × Value)}

/-- The markers that count otherwise are no leaves that strict decoding knows. -/
theorem Decodes.atoms_pair {k v : Cirru} {p : Value} (h : Decodes ρ .strict k p tr) :
    atoms (.list [k, v]) = atoms k + atoms v := by
  refine atoms_list [v] ?_ ?_ <;>
  · rintro rfl
    cases (decodes_leaf h).1

theorem length_along {β : Type} {D : Cirru → β → List (Ref × Value) → Prop} {bs : List β}
    (h : Along D cs bs tr) (hD : ∀ c ∈ cs, ∀ b t, D c b t → t.length = atoms c) :
    tr.length = atomsAll cs := by
  induction h with
  | nil => rfl
  | cons h _ ih =>
    rw [List.length_append, atomsAll, hD _ List.mem_cons_self _ _ h,
      ih fun c hc => hD c (List.mem_cons_of_mem _ hc)]

theorem Decodes.length_eq {v : Value} (h : Decodes ρ .strict c v tr) : tr.length = atoms c := by
  induction c using node_induction generalizing v tr with
  | leaf s =>
    obtain ⟨-, rfl⟩ := decodes_leaf h
    rfl
  | list cs ih =>
    obtain ⟨l, -, hparts⟩ := decodes_list h
    rw [atoms_marker _ (by decide) (by decide)]
    exact length_along hparts fun c hc _ _ => ih c hc
  | set cs ih =>
    obtain ⟨s, xs, -, hparts, -⟩ := decodes_set h
    rw [atoms_marker _ (by decide) (by decide)]
    exact length_along hparts fun c hc _ _ => ih c hc
  | map cs ih =>
    obtain ⟨x, ps, -, hparts, -⟩ := decodes_map h
    rw [atoms_marker _ (by decide) (by decide)]
    refine length_along hparts ?_
    rintro c hc e t ⟨k, v, trk, trv, rfl, rfl, hk, hv⟩
    rw [hk.atoms_pair, List.length_append, (ih k v hc).1 hk, (ih k v hc).2 hv]
  | record name cs ih =>
    obtain ⟨r, t, fs, -, ht, hparts, -⟩ := decodes_record h
    rw [atoms_marker _ (by decide) (by decide), atomsAll, atoms_of_tagOf? (by rw [ht]; rfl),
      Nat.zero_add]
    refine length_along hparts ?_
    rintro c hc f t ⟨k, v, rfl, hk, hv⟩
    rw [atoms_field (by rw [hk]; rfl), ih k v hc hv]
  | tuple head cs ihh ih =>
    obtain ⟨t, -, hparts⟩ := decodes_tuple h
    rw [atoms_marker _ (by decide) (by decide)]
    refine length_along hparts fun c hc _ _ hd => ?_
    rcases List.mem_cons.mp hc with rfl | hc
    · exact ihh hd
    · exact ih c hc hd
  | quote c =>
    obtain ⟨-, rfl⟩ := decodes_quote h
    rfl
  | atom c ih =>
    obtain ⟨r, w, t, -, rfl, hw⟩ := decodes_atom h
    have hatoms : atoms (.list [.leaf "atom", c]) = 0 + (atoms c + 0) + 1 := rfl
    rw [hatoms, List.length_append, ih hw, Nat.zero_add, Nat.add_zero]
    rfl
  | inner c ih =>
    rw [atoms_marker _ (by decide) (by decide)]
    exact ih (decodes_inner h)
  | other c hn => exact absurd h.node hn

theorem DecodesPair.length_eq {f : Value × Value} (h : DecodesPair ρ .strict c f tr) :
    tr.length = atoms c := by
  obtain ⟨k, v, trk, trv, rfl, rfl, hk, hv⟩ := h
  rw [hk.atoms_pair, List.length_append, hk.length_eq, hv.length_eq]

theorem DecodesField.length_eq {f : Tag × Value} (h : DecodesField ρ .strict c f tr) :
    tr.length = atoms c := by
  obtain ⟨k, v, rfl, hk, hv⟩ := h
  rw [atoms_field (by rw [hk]; rfl), hv.length_eq]

end Length

end DynVal.Wire
