import DynVal.Proofs.Relations.Along
import DynVal.Proofs.Store.Cells
import DynVal.Proofs.Store.Creating
import DynVal.Proofs.Store.Lists
import DynVal.Proofs.Store.Records

/-!
# What a tree describes

`Wire.Decodes` says which value a tree describes, under a ranking by which the elements of sets and
the keys of maps are told apart, and which references it has, each with the content of its cell.
These stand in the order in which their `atom` nodes end. Decoding keeps values sound and gives such
a value where it succeeds, and the cells that it creates are those of the references
(`traces_decode`).
-/

namespace DynVal

open Op

/-! ## Operations that create cells -/

namespace Op

variable {α β : Type} {g : Stage} {P Q : Stage → α → List (Ref × Value) → Prop}

/-- The operation keeps values sound, and its result, if it has one, is as stated together with the
cells that were created. -/
def Traces (g : Stage) (op : Op α) (Q : Stage → α → List (Ref × Value) → Prop) : Prop :=
  ∀ s : Store, s.At g → ∃ g', g.Extends g' ∧ Store.At (op s).2 g' ∧
    ∀ a, (op s).1 = Except.ok a → ∃ made, s.Creates made (op s).2 ∧ Q g' a made

theorem Traces.keeps {op : Op α} (h : Traces g op Q) :
    Keeps g op fun g' a => ∃ made, Q g' a made := by
  intro s hs
  obtain ⟨g', hext, hs', hq⟩ := h s hs
  refine ⟨g', hext, hs', fun a ha => ?_⟩
  obtain ⟨made, -, hmade⟩ := hq a ha
  exact ⟨made, hmade⟩

theorem Traces.mono {op : Op α} (h : Traces g op P) (hq : ∀ g' a made, P g' a made → Q g' a made) :
    Traces g op Q := by
  intro s hs
  obtain ⟨g', hext, hs', hp⟩ := h s hs
  refine ⟨g', hext, hs', fun a ha => ?_⟩
  obtain ⟨made, hmade, hpa⟩ := hp a ha
  exact ⟨made, hmade, hq g' a made hpa⟩

theorem traces_of_keeps {op : Op α} (h : Keeps g op fun g' a => Q g' a [])
    (hc : op.CreatesNothing) : Traces g op Q := by
  intro s hs
  obtain ⟨g', hext, hs', hq⟩ := h s hs
  exact ⟨g', hext, hs', fun a ha => ⟨[], hc s, hq a ha⟩⟩

theorem traces_pure {a : α} (h : Q g a []) : Traces g (pure a) Q :=
  traces_of_keeps (yields_pure h).keeps (moves_pure a)

theorem traces_throw (h : Halt) : Traces g (throw h : Op α) Q :=
  traces_of_keeps (keeps_throw h) (moves_throw h)

theorem traces_bind {op : Op α} {next : α → Op β} {R : Stage → β → List (Ref × Value) → Prop}
    (h : Traces g op P) (hn : ∀ g' a made, g.Extends g' → P g' a made →
      Traces g' (next a) fun g'' b made' => R g'' b (made ++ made')) :
    Traces g (op >>= next) R := by
  intro s hs
  obtain ⟨g₁, hg₁, hs₁, hp⟩ := h s hs
  cases hr : (op s).1 with
  | ok a =>
    rw [bind_ok hr]
    obtain ⟨made, hmade, ha⟩ := hp a hr
    obtain ⟨g₂, hg₂, hs₂, hq⟩ := hn g₁ a made hg₁ ha (op s).2 hs₁
    refine ⟨g₂, hg₁.trans hg₂, hs₂, fun b hb => ?_⟩
    obtain ⟨made', hmade', hb'⟩ := hq b hb
    exact ⟨made ++ made', hmade.trans hmade', hb'⟩
  | error e =>
    rw [bind_error hr]
    exact ⟨g₁, hg₁, hs₁, nofun⟩

/-- A step that creates nothing, after the others. -/
theorem traces_then {op : Op α} {next : α → Op β} {R : Stage → β → List (Ref × Value) → Prop}
    (h : Traces g op P) (hc : ∀ a, (next a).CreatesNothing)
    (hn : ∀ g' a made, g.Extends g' → P g' a made → Keeps g' (next a) fun g'' b => R g'' b made) :
    Traces g (op >>= next) R := by
  refine traces_bind h fun g' a made hext ha => traces_of_keeps ?_ (hc a)
  simp only [List.append_nil]
  exact hn g' a made hext ha

end Op

theorem Cells.traces_create {g : Stage} {v : Value} (hv : v.Sound g) :
    Traces g (create v) fun _ r made => made = [(r, v)] := by
  intro s hs
  obtain ⟨g', r, hext, hs', hr, -⟩ := yields_create hv s hs
  refine ⟨g', hext, hs', fun q hq => ?_⟩
  obtain ⟨r', s', hrun, hmade⟩ := creates_create v s
  rw [hrun] at hq ⊢
  cases hq
  exact ⟨_, hmade, rfl⟩

namespace Wire

open Memo

/-! ## The values of a tree -/

mutual

/-- The value is one that the tree describes, with these references. -/
inductive Decodes (ρ : Ranking) (mode : Mode) : Cirru → Value → List (Ref × Value) → Prop where
  | leaf {s : String} {v : Value} (h : decodeLeaf mode s = .ok v) : Decodes ρ mode (.leaf s) v []
  | list {cs : List Cirru} {l : ListNode} {tr : List (Ref × Value)}
    (h : DecodesAll ρ mode cs l.body.shown.toList tr) :
    Decodes ρ mode (.list (.leaf "[]" :: cs)) (.list l) tr
  | set {cs : List Cirru} {xs : List Value} {s : SetNode} {tr : List (Ref × Value)}
    (h : DecodesAll ρ mode cs xs tr) (hs : s.body = Id.run (Set.ofList (keysUnder ρ) xs)) :
    Decodes ρ mode (.list (.leaf "#\x7b\x7d" :: cs)) (.set s) tr
  | map {cs : List Cirru} {ps : List (Value × Value)} {m : MapNode} {tr : List (Ref × Value)}
    (h : DecodesPairs ρ mode cs ps tr) (hm : m.body = Id.run (Map.ofPairs (keysUnder ρ) ps)) :
    Decodes ρ mode (.list (.leaf "\x7b\x7d" :: cs)) (.map m) tr
  | record {name : Cirru} {cs : List Cirru} {t : Tag} {fs : List (Tag × Value)} {r : RecordNode}
    {tr : List (Ref × Value)} (ht : tagOf? name = some t) (h : DecodesFields ρ mode cs fs tr)
    (hr : Record.ofPairs t fs = .ok r.body) :
    Decodes ρ mode (.list (.leaf "%\x7b\x7d" :: name :: cs)) (.record r) tr
  | tuple {head : Cirru} {cs : List Cirru} {t : TupleNode} {tr tr' : List (Ref × Value)}
    (ht : Decodes ρ mode head t.body.tag tr) (h : DecodesAll ρ mode cs t.body.extra tr') :
    Decodes ρ mode (.list (.leaf "::" :: head :: cs)) (.tuple t) (tr ++ tr')
  | quote {c : Cirru} : Decodes ρ mode (.list [.leaf "quote", c]) (.quote c) []
  | atom {c : Cirru} {r : Ref} {w : Value} {tr : List (Ref × Value)} (h : Decodes ρ mode c w tr) :
    Decodes ρ mode (.list [.leaf "atom", c]) (.ref r) (tr ++ [(r, w)])
  | inner {c : Cirru} {v : Value} {tr : List (Ref × Value)} (h : Decodes ρ mode c v tr) :
    Decodes ρ mode (.list [.leaf "do", c]) v tr

inductive DecodesAll (ρ : Ranking) (mode : Mode) :
    List Cirru → List Value → List (Ref × Value) → Prop where
  | nil : DecodesAll ρ mode [] [] []
  | cons {c : Cirru} {cs : List Cirru} {v : Value} {vs : List Value} {tr tr' : List (Ref × Value)}
    (h : Decodes ρ mode c v tr) (hs : DecodesAll ρ mode cs vs tr') :
    DecodesAll ρ mode (c :: cs) (v :: vs) (tr ++ tr')

inductive DecodesPairs (ρ : Ranking) (mode : Mode) :
    List Cirru → List (Value × Value) → List (Ref × Value) → Prop where
  | nil : DecodesPairs ρ mode [] [] []
  | cons {k v : Cirru} {cs : List Cirru} {e : Value × Value} {es : List (Value × Value)}
    {trk trv tr : List (Ref × Value)} (hk : Decodes ρ mode k e.1 trk)
    (hv : Decodes ρ mode v e.2 trv) (hs : DecodesPairs ρ mode cs es tr) :
    DecodesPairs ρ mode (.list [k, v] :: cs) (e :: es) (trk ++ trv ++ tr)

inductive DecodesFields (ρ : Ranking) (mode : Mode) :
    List Cirru → List (Tag × Value) → List (Ref × Value) → Prop where
  | nil : DecodesFields ρ mode [] [] []
  | cons {k v : Cirru} {cs : List Cirru} {f : Tag × Value} {fs : List (Tag × Value)}
    {trv tr : List (Ref × Value)} (ht : tagOf? k = some f.1) (hv : Decodes ρ mode v f.2 trv)
    (hs : DecodesFields ρ mode cs fs tr) :
    DecodesFields ρ mode (.list [k, v] :: cs) (f :: fs) (trv ++ tr)

end

/-! ## What a tree describes, by its marker -/

section Describe

variable {ρ : Ranking} {mode : Mode} {cs : List Cirru} {v : Value} {tr : List (Ref × Value)}

/-- The entry of a map that two trees describe. -/
def DecodesPair (ρ : Ranking) (mode : Mode) (c : Cirru) (e : Value × Value)
    (tr : List (Ref × Value)) : Prop :=
  ∃ k v trk trv, c = .list [k, v] ∧ tr = trk ++ trv ∧ Decodes ρ mode k e.1 trk ∧
    Decodes ρ mode v e.2 trv

/-- The field of a record that a leaf and a tree describe. -/
def DecodesField (ρ : Ranking) (mode : Mode) (c : Cirru) (f : Tag × Value)
    (tr : List (Ref × Value)) : Prop :=
  ∃ k v, c = .list [k, v] ∧ tagOf? k = some f.1 ∧ Decodes ρ mode v f.2 tr

theorem DecodesAll.along {vs : List Value} (h : DecodesAll ρ mode cs vs tr) :
    Along (Decodes ρ mode) cs vs tr := by
  induction cs generalizing vs tr with
  | nil =>
    cases h
    exact .nil
  | cons c cs ih =>
    cases h with
    | cons h hs => exact .cons h (ih hs)

theorem DecodesPairs.along {es : List (Value × Value)} (h : DecodesPairs ρ mode cs es tr) :
    Along (DecodesPair ρ mode) cs es tr := by
  induction cs generalizing es tr with
  | nil =>
    cases h
    exact .nil
  | cons c cs ih =>
    cases h with
    | cons hk hv hs => exact .cons ⟨_, _, _, _, rfl, rfl, hk, hv⟩ (ih hs)

theorem DecodesFields.along {fs : List (Tag × Value)} (h : DecodesFields ρ mode cs fs tr) :
    Along (DecodesField ρ mode) cs fs tr := by
  induction cs generalizing fs tr with
  | nil =>
    cases h
    exact .nil
  | cons c cs ih =>
    cases h with
    | cons ht hv hs => exact .cons ⟨_, _, rfl, ht, hv⟩ (ih hs)

theorem decodes_leaf {s : String} (h : Decodes ρ mode (.leaf s) v tr) :
    decodeLeaf mode s = .ok v ∧ tr = [] := by
  cases h
  exact ⟨‹_›, rfl⟩

theorem decodes_list (h : Decodes ρ mode (.list (.leaf "[]" :: cs)) v tr) :
    ∃ l, v = .list l ∧ Along (Decodes ρ mode) cs l.body.shown.toList tr := by
  generalize hc : Cirru.list (.leaf "[]" :: cs) = c at h
  cases h <;> simp at hc
  case list l h =>
    subst hc
    exact ⟨l, rfl, h.along⟩

theorem decodes_set (h : Decodes ρ mode (.list (.leaf "#\x7b\x7d" :: cs)) v tr) :
    ∃ s xs, v = .set s ∧ Along (Decodes ρ mode) cs xs tr ∧
      s.body = Id.run (Set.ofList (keysUnder ρ) xs) := by
  generalize hc : Cirru.list (.leaf "#\x7b\x7d" :: cs) = c at h
  cases h <;> simp at hc
  case set xs s hs h =>
    subst hc
    exact ⟨s, xs, rfl, h.along, hs⟩

theorem decodes_map (h : Decodes ρ mode (.list (.leaf "\x7b\x7d" :: cs)) v tr) :
    ∃ m ps, v = .map m ∧ Along (DecodesPair ρ mode) cs ps tr ∧
      m.body = Id.run (Map.ofPairs (keysUnder ρ) ps) := by
  generalize hc : Cirru.list (.leaf "\x7b\x7d" :: cs) = c at h
  cases h <;> simp at hc
  case map ps m hm h =>
    subst hc
    exact ⟨m, ps, rfl, h.along, hm⟩

theorem decodes_record {name : Cirru}
    (h : Decodes ρ mode (.list (.leaf "%\x7b\x7d" :: name :: cs)) v tr) :
    ∃ r t fs, v = .record r ∧ tagOf? name = some t ∧ Along (DecodesField ρ mode) cs fs tr ∧
      Record.ofPairs t fs = .ok r.body := by
  generalize hc : Cirru.list (.leaf "%\x7b\x7d" :: name :: cs) = c at h
  cases h <;> simp at hc
  case record t fs r ht hr h =>
    obtain ⟨rfl, rfl⟩ := hc
    exact ⟨r, t, fs, rfl, ht, h.along, hr⟩

theorem decodes_tuple (h : Decodes ρ mode (.list (.leaf "::" :: cs)) v tr) :
    ∃ t, v = .tuple t ∧ Along (Decodes ρ mode) cs t.body.items tr := by
  generalize hc : Cirru.list (.leaf "::" :: cs) = c at h
  cases h <;> simp at hc
  case tuple t _ _ ht h =>
    subst hc
    exact ⟨t, rfl, .cons ht h.along⟩

theorem decodes_quote {c : Cirru} (h : Decodes ρ mode (.list [.leaf "quote", c]) v tr) :
    v = .quote c ∧ tr = [] := by
  generalize hc : Cirru.list [.leaf "quote", c] = t at h
  cases h <;> simp at hc
  case quote => exact ⟨by rw [hc], rfl⟩

theorem decodes_atom {c : Cirru} (h : Decodes ρ mode (.list [.leaf "atom", c]) v tr) :
    ∃ r w tr', v = .ref r ∧ tr = tr' ++ [(r, w)] ∧ Decodes ρ mode c w tr' := by
  generalize hc : Cirru.list [.leaf "atom", c] = t at h
  cases h <;> simp at hc
  case atom r w tr' h =>
    subst hc
    exact ⟨r, w, tr', rfl, rfl, h⟩

theorem decodes_inner {c : Cirru} (h : Decodes ρ mode (.list [.leaf "do", c]) v tr) :
    Decodes ρ mode c v tr := by
  generalize hc : Cirru.list [.leaf "do", c] = t at h
  cases h <;> simp at hc
  case inner h =>
    subst hc
    exact h

/-- Only nodes describe values. -/
theorem Decodes.node {c : Cirru} (h : Decodes ρ mode c v tr) : Node c := by
  cases h <;> constructor

end Describe

/-! ## Decoding gives what is described -/

variable {g : Stage} {mode : Mode}

/-- What holds of all scalars that a leaf may describe. -/
theorem of_decodeLeaf {P : Value → Prop} (nil : P .nil) (bool : ∀ b, P (.bool b))
    (number : ∀ n : Number, n.isFinite = true → P (.number n)) (str : ∀ s, P (.str s))
    (tag : ∀ t, P (.tag t)) (symbol : ∀ s, P (.symbol s)) {s : String} {v : Value}
    (h : decodeLeaf mode s = .ok v) : P v := by
  have hbare {s : String} (h : decodeBare mode s = .ok v) : P v := by
    unfold decodeBare at h
    split at h
    · split at h
      · cases h
        exact number _ ‹_›
      · cases h
    · split at h
      · cases h
        exact str _
      · cases h
  unfold decodeLeaf at h
  split at h
  · cases h; exact nil
  split at h
  · cases h; exact bool _
  split at h
  · cases h; exact bool _
  split at h
  · cases h
  · cases h; exact str _
  · cases h; exact str _
  · cases h; exact tag _
  · cases h; exact symbol _
  · exact hbare h

theorem level_of_decodeLeaf {s : String} {v : Value} (h : decodeLeaf mode s = .ok v) :
    v.level = 0 :=
  of_decodeLeaf (P := fun v => v.level = 0) rfl (fun _ => rfl) (fun _ _ => rfl) (fun _ => rfl)
    (fun _ => rfl) (fun _ => rfl) h

/-- Sound, and described by the tree under all rankings with the numbers drawn. -/
def Decoded (mode : Mode) (c : Cirru) (g : Stage) (v : Value) (tr : List (Ref × Value)) : Prop :=
  v.Sound g ∧ ∀ ρ : Ranking, g.numbering.Admits ρ → Decodes ρ mode c v tr

theorem traces_expectTag (node : Cirru) (what : String) (c : Cirru) :
    Traces g (expectTag node what c) fun _ t tr => tagOf? c = some t ∧ tr = [] := by
  unfold expectTag
  split
  · rename_i t ht
    exact traces_pure ⟨ht, rfl⟩
  · exact traces_throw _

theorem traces_decodeAll {cs : List Cirru} {g : Stage}
    (h : ∀ c ∈ cs, ∀ g, Traces g (decode mode c) (Decoded mode c)) :
    Traces g (decodeAll mode cs) fun g' vs tr => (∀ v ∈ vs, v.Sound g') ∧
      ∀ ρ : Ranking, g'.numbering.Admits ρ → DecodesAll ρ mode cs vs tr := by
  induction cs generalizing g with
  | nil => exact traces_pure ⟨by simp, fun _ _ => .nil⟩
  | cons c cs ih =>
    refine traces_bind (h c (by simp) g) fun g₁ v tr _ hv => ?_
    refine traces_then (ih fun d hd => h d (by simp [hd])) (fun _ => moves_pure _)
      fun g₂ vs tr' hext hvs => (yields_pure ⟨?_, fun ρ ha => ?_⟩).keeps
    · exact List.forall_mem_cons.mpr ⟨hv.1.extends hext, hvs.1⟩
    · exact .cons (hv.2 ρ (hext.numbering.admits ha)) (hvs.2 ρ ha)

theorem traces_decodePairs {node : Cirru} {cs : List Cirru} {g : Stage}
    (h : ∀ k v, .list [k, v] ∈ cs → (∀ g, Traces g (decode mode k) (Decoded mode k)) ∧
      ∀ g, Traces g (decode mode v) (Decoded mode v)) :
    Traces g (decodePairs mode node cs) fun g' es tr => (∀ e ∈ es, e.1.Sound g' ∧ e.2.Sound g') ∧
      ∀ ρ : Ranking, g'.numbering.Admits ρ → DecodesPairs ρ mode cs es tr := by
  induction cs generalizing g with
  | nil => exact traces_pure ⟨by simp, fun _ _ => .nil⟩
  | cons c cs ih =>
    match c with
    | .list [k, v] =>
      obtain ⟨hk, hv⟩ := h k v (by simp)
      refine traces_bind (hk g) fun g₁ a trk _ ha => traces_bind (hv g₁) fun g₂ b trv hext₂ hb => ?_
      refine traces_then (ih fun k v hd => h k v (by simp [hd])) (fun _ => moves_pure _)
        fun g₃ es tr hext₃ hes => (yields_pure ⟨?_, fun ρ hρ => ?_⟩).keeps
      · have ha' := (ha.1.extends hext₂).extends hext₃
        exact List.forall_mem_cons.mpr ⟨⟨ha', hb.1.extends hext₃⟩, hes.1⟩
      · have hρ' := hext₃.numbering.admits hρ
        rw [← List.append_assoc]
        exact .cons (ha.2 ρ (hext₂.numbering.admits hρ')) (hb.2 ρ hρ') (hes.2 ρ hρ)
    | .leaf _ | .list [] | .list [_] | .list (_ :: _ :: _ :: _) => exact traces_throw _

theorem traces_decodeFields {node : Cirru} {cs : List Cirru} {g : Stage}
    (h : ∀ k v, .list [k, v] ∈ cs → ∀ g, Traces g (decode mode v) (Decoded mode v)) :
    Traces g (decodeFields mode node cs) fun g' fs tr => (∀ f ∈ fs, f.2.Sound g') ∧
      ∀ ρ : Ranking, g'.numbering.Admits ρ → DecodesFields ρ mode cs fs tr := by
  induction cs generalizing g with
  | nil => exact traces_pure ⟨by simp, fun _ _ => .nil⟩
  | cons c cs ih =>
    match c with
    | .list [k, v] =>
      refine traces_bind (traces_expectTag _ _ k) ?_
      rintro g₁ t - - ⟨ht, rfl⟩
      simp only [List.nil_append]
      refine traces_bind (h k v (by simp) g₁) fun g₂ b trv hext₂ hb => ?_
      refine traces_then (ih fun k v hd => h k v (by simp [hd])) (fun _ => moves_pure _)
        fun g₃ fs tr hext₃ hfs => (yields_pure ⟨?_, fun ρ hρ => ?_⟩).keeps
      · exact List.forall_mem_cons.mpr ⟨hb.1.extends hext₃, hfs.1⟩
      · exact .cons ht (hb.2 ρ (hext₃.numbering.admits hρ)) (hfs.2 ρ hρ)
    | .leaf _ | .list [] | .list [_] | .list (_ :: _ :: _ :: _) => exact traces_throw _

theorem traces_decode (c : Cirru) (g : Stage) : Traces g (decode mode c) (Decoded mode c) := by
  induction c using node_induction generalizing g with
  | leaf s =>
    rw [decode_leaf]
    refine traces_of_keeps (keeps_ofExcept fun v hv => ⟨?_, fun ρ _ => .leaf hv⟩) (moves_ofExcept _)
    exact Value.sound_of_level_eq_zero (level_of_decodeLeaf hv)
  | list cs ih =>
    rw [decode_list]
    refine traces_then (traces_decodeAll ih) (moves_ofList basics_createsNothing)
      fun g₁ xs tr _ hxs => ?_
    refine keeps_bind (ListNode.yields_make hxs.1).keeps fun g₂ l hext hl => (yields_pure ?_).keeps
    refine ⟨hl.1, fun ρ ha => .list ?_⟩
    rw [hl.2]
    exact hxs.2 ρ (hext.numbering.admits ha)
  | set cs ih =>
    rw [decode_set]
    refine traces_then (traces_decodeAll ih) (moves_ofElements basics_createsNothing)
      fun g₁ xs tr _ hxs => ?_
    refine keeps_bind (SetNode.yields_make hxs.1).keeps fun g₂ l hext hl => (yields_pure ?_).keeps
    exact ⟨hl.1, fun ρ ha => .set (hxs.2 ρ (hext.numbering.admits ha)) (hl.2 ρ ha)⟩
  | map cs ih =>
    rw [decode_map]
    refine traces_then (traces_decodePairs ih) (moves_ofPairs basics_createsNothing)
      fun g₁ ps tr _ hps => ?_
    refine keeps_bind (MapNode.yields_make hps.1).keeps fun g₂ l hext hl => (yields_pure ?_).keeps
    exact ⟨hl.1, fun ρ ha => .map (hps.2 ρ (hext.numbering.admits ha)) (hl.2 ρ ha)⟩
  | record name cs ih =>
    rw [decode_record]
    refine traces_bind (traces_expectTag _ _ name) ?_
    rintro g₁ t - - ⟨ht, rfl⟩
    refine traces_then (traces_decodeFields ih)
      (fun fs => moves_bind (moves_makeRecord basics_createsNothing t fs) fun _ => moves_pure _)
      fun g₂ fs tr _ hfs => ?_
    refine keeps_bind (RecordNode.keeps_make hfs.1) fun g₃ r hext hr => (yields_pure ?_).keeps
    exact ⟨hr.1, fun ρ ha => .record ht (hfs.2 ρ (hext.numbering.admits ha)) hr.2⟩
  | tuple head cs ihh ih =>
    rw [decode_tuple]
    refine traces_bind (ihh g) fun g₁ v tr _ hv => ?_
    refine traces_then (traces_decodeAll ih) (fun xs => moves_ofTuple basics_createsNothing v xs [])
      fun g₂ xs tr' hext hxs => ?_
    refine keeps_bind (TupleNode.yields_make (hv.1.extends hext) hxs.1).keeps
      fun g₃ t hext' ht => (yields_pure ⟨ht.1, fun ρ ha => ?_⟩).keeps
    have ha' := hext'.numbering.admits ha
    refine .tuple ?_ ?_ <;> rw [ht.2]
    · exact hv.2 ρ (hext.numbering.admits ha')
    · exact hxs.2 ρ ha'
  | quote c =>
    rw [decode_quote]
    exact traces_pure ⟨Value.sound_of_level_eq_zero rfl, fun _ _ => .quote⟩
  | atom c ih =>
    rw [decode_atom]
    refine traces_bind (ih g) fun g₁ v tr _ hv => ?_
    refine traces_then (Cells.traces_create hv.1) (fun _ => moves_pure _) ?_
    rintro g₂ r - hext rfl
    refine (yields_pure ⟨Value.sound_of_level_eq_zero rfl, fun ρ ha => .atom ?_⟩).keeps
    exact hv.2 ρ (hext.numbering.admits ha)
  | inner c ih =>
    rw [decode_inner]
    exact (ih g).mono fun g' v tr hv => ⟨hv.1, fun ρ ha => .inner (hv.2 ρ ha)⟩
  | other c hn =>
    obtain ⟨node, reason, h⟩ := decode_of_not_node hn mode
    rw [h]
    exact traces_throw _

theorem keeps_decode (c : Cirru) (g : Stage) :
    Keeps g (decode mode c) fun g' v => ∃ tr, Decoded mode c g' v tr := (traces_decode c g).keeps

end Wire
end DynVal
