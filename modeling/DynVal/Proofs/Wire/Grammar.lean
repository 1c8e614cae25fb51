import DynVal.Proofs.Store.Keeping
import DynVal.Proofs.Store.Moves
import DynVal.Proofs.Values.Records

/-!
# The trees that decoding accepts

A grammar of trees (`Wire.Grammatical`), with the leaves that describe a value (`Wire.LeafForm`) and
the composite trees that start with each of the eight markers. It is stated without the decoder, in
which the order of tests matters.

* `Op.Ends`: what an operation can end with, in any store.
* `Wire.ends_decode`: by induction on the tree, whatever decodes is grammatical, and every failure
  is that some tree cannot be decoded, or that a record node repeats a field.
* `Wire.accepts_decode`: by induction on the grammar, whatever is grammatical decodes.
* `Wire.decode_ok_iff`: the two put together.
-/

namespace DynVal

/-! ## How operations end -/

namespace Op

variable {α β : Type} {P Q : α → Prop} {R : β → Prop} {E F : Halt → Prop}

/-- In any store the operation ends with such a result or with such a failure. -/
def Ends (op : Op α) (Q : α → Prop) (E : Halt → Prop) : Prop :=
  ∀ s, (∀ a, (op s).1 = Except.ok a → Q a) ∧ ∀ h, (op s).1 = Except.error h → E h

theorem ends_pure {a : α} (h : Q a) : (pure a : Op α).Ends Q E := by
  intro s
  refine ⟨fun b hb => ?_, fun h hh => (by cases hh)⟩
  cases hb
  exact h

theorem ends_throw {h : Halt} (he : E h) : (throw h : Op α).Ends Q E := by
  intro s
  refine ⟨fun b hb => (by cases hb), fun h' hh => ?_⟩
  cases hh
  exact he

theorem ends_bind {op : Op α} {next : α → Op β} (h : op.Ends Q E)
    (hn : ∀ a, Q a → (next a).Ends R E) : (op >>= next).Ends R E := by
  intro s
  cases hr : (op s).1 with
  | ok a =>
    rw [bind_ok hr]
    exact hn a ((h s).1 a hr) _
  | error e =>
    rw [bind_error hr]
    refine ⟨fun b hb => (by cases hb), fun h' hh => ?_⟩
    cases hh
    exact (h s).2 e hr

theorem Ends.mono {op : Op α} (h : op.Ends P E) (hq : ∀ a, P a → Q a) (he : ∀ h, E h → F h) :
    op.Ends Q F :=
  fun s => ⟨fun a ha => hq a ((h s).1 a ha), fun e hh => he e ((h s).2 e hh)⟩

theorem ends_ofExcept {r : Except Error α} (hq : ∀ a, r = .ok a → Q a)
    (he : ∀ e, r = .error e → E (.error e)) : (ofExcept r).Ends Q E := by
  cases r with
  | ok a => exact ends_pure (hq a rfl)
  | error e => exact ends_throw (he e rfl)

/-- A step on the store that always has a result. -/
theorem ends_modifyGet (f : Store → α × Store) :
    (modifyGet f : Op α).Ends (fun _ => True) E := by
  intro s
  exact ⟨fun _ _ => trivial, fun h hh => (by cases hh)⟩

theorem ends_share (body : α) : (share body).Ends (fun _ => True) E := by
  intro s
  exact ⟨fun _ _ => trivial, fun h hh => (by cases hh)⟩

end Op

/-- A tree cannot be decoded. -/
def Error.IsUndecodable (e : Error) : Prop := ∃ node reason, e = .undecodable node reason

/-- A field is named twice. -/
def Error.IsDuplicate (e : Error) : Prop := ∃ context field, e = .duplicateField context field

namespace Wire

open Op

/-! ## Leaves -/

/-- A digit comes first, or a minus sign and a digit. -/
def StartsNumeric (cs : List Char) : Prop :=
  ∃ d ds, d.isDigit = true ∧ (cs = d :: ds ∨ cs = '-' :: d :: ds)

/-- The leaves that describe a value. -/
inductive LeafForm (s : String) : Prop where
  | word (h : s ∈ ["nil", "true", "false"])
  | marked {mark : Char} {cs : List Char} (hm : mark ∈ ['|', '\"', ':', '\''])
    (h : s.toList = mark :: cs)
  | number {n : Number} (h : StartsNumeric s.toList) (hp : Number.parse? s.toList = some n)
    (hf : n.isFinite = true)

theorem looksNumeric_iff (cs : List Char) : looksNumeric cs = true ↔ StartsNumeric cs := by
  unfold looksNumeric StartsNumeric
  split
  · rename_i c ds
    constructor
    · exact fun h => ⟨c, ds, h, .inr rfl⟩
    · rintro ⟨d, es, hd, h | h⟩
      · -- a minus sign is no digit
        obtain ⟨rfl, -⟩ := List.cons.inj h
        cases hd
      · obtain ⟨-, h⟩ := List.cons.inj h
        obtain ⟨rfl, -⟩ := List.cons.inj h
        exact hd
  · rename_i c ds hminus
    constructor
    · exact fun h => ⟨c, ds, h, .inl rfl⟩
    · rintro ⟨d, es, hd, h | h⟩
      · obtain ⟨rfl, -⟩ := List.cons.inj h
        exact hd
      · obtain ⟨rfl, rfl⟩ := List.cons.inj h
        exact absurd rfl (hminus d es rfl)
  · simp

theorem decodeBare_ok_iff (s : String) : (∃ v, decodeBare .strict s = .ok v) ↔
    looksNumeric s.toList = true ∧ ∃ n, Number.parse? s.toList = some n ∧ n.isFinite = true := by
  unfold decodeBare
  by_cases hl : looksNumeric s.toList = true
  · rw [if_pos hl]
    cases Number.parse? s.toList with
    | none => simp
    | some n =>
      by_cases hf : n.isFinite = true
      · simp [hl, hf]
      · simp [hf]
  · rw [if_neg hl]
    simp [hl]

/-- A leaf that starts with a mark is no word, and looks like no number. -/
theorem LeafForm.of_bare {s : String} (hword : s ∉ ["nil", "true", "false"])
    (hmark : ∀ c cs, s.toList = c :: cs → c ∉ ['|', '\"', ':', '\'']) (h : LeafForm s) :
    looksNumeric s.toList = true ∧ ∃ n, Number.parse? s.toList = some n ∧ n.isFinite = true := by
  cases h with
  | word h => exact absurd h hword
  | marked hm h => exact absurd hm (hmark _ _ h)
  | number h hp hf => exact ⟨(looksNumeric_iff _).mpr h, _, hp, hf⟩

theorem decodeLeaf_ok_iff (s : String) : (∃ v, decodeLeaf .strict s = .ok v) ↔ LeafForm s := by
  unfold decodeLeaf
  by_cases hnil : s = "nil"
  · rw [if_pos hnil]
    exact ⟨fun _ => .word (by simp [hnil]), fun _ => ⟨_, rfl⟩⟩
  by_cases htrue : s = "true"
  · rw [if_neg hnil, if_pos htrue]
    exact ⟨fun _ => .word (by simp [htrue]), fun _ => ⟨_, rfl⟩⟩
  by_cases hfalse : s = "false"
  · rw [if_neg hnil, if_neg htrue, if_pos hfalse]
    exact ⟨fun _ => .word (by simp [hfalse]), fun _ => ⟨_, rfl⟩⟩
  rw [if_neg hnil, if_neg htrue, if_neg hfalse]
  have hword : s ∉ ["nil", "true", "false"] := by simp [hnil, htrue, hfalse]
  split
  · rename_i hempty
    refine ⟨fun ⟨v, hv⟩ => (by cases hv), fun h => ?_⟩
    obtain ⟨hl, -⟩ := h.of_bare hword fun c cs hs => by rw [hempty] at hs; cases hs
    rw [hempty] at hl
    cases hl
  · rename_i cs hs
    exact ⟨fun _ => .marked (by simp) hs, fun _ => ⟨_, rfl⟩⟩
  · rename_i cs hs
    exact ⟨fun _ => .marked (by simp) hs, fun _ => ⟨_, rfl⟩⟩
  · rename_i cs hs
    exact ⟨fun _ => .marked (by simp) hs, fun _ => ⟨_, rfl⟩⟩
  · rename_i cs hs
    exact ⟨fun _ => .marked (by simp) hs, fun _ => ⟨_, rfl⟩⟩
  · rename_i hbar hquote hcolon hmark
    rw [decodeBare_ok_iff]
    refine ⟨fun ⟨hl, n, hp, hf⟩ => .number ((looksNumeric_iff _).mp hl) hp hf, ?_⟩
    refine LeafForm.of_bare hword fun c cs hs hm => ?_
    simp only [List.mem_cons, List.not_mem_nil, or_false] at hm
    rcases hm with rfl | rfl | rfl | rfl
    · exact hbar cs hs
    · exact hquote cs hs
    · exact hcolon cs hs
    · exact hmark cs hs

instance (s : String) : Decidable (LeafForm s) :=
  decidable_of_iff ((decodeLeaf .strict s).toOption.isSome = true) (by
    rw [← decodeLeaf_ok_iff]
    cases decodeLeaf .strict s <;> simp [Except.toOption])

theorem isUndecodable_of_decodeLeaf {mode : Mode} {s : String} {e : Error}
    (h : decodeLeaf mode s = .error e) : e.IsUndecodable := by
  unfold decodeLeaf at h
  repeat' split at h
  all_goals first | (cases h; done) | skip
  · cases h
    exact ⟨_, _, rfl⟩
  · unfold decodeBare at h
    repeat' split at h
    all_goals first | (cases h; done) | (cases h; exact ⟨_, _, rfl⟩)

/-! ## Trees -/

/-- A node with entries of two trees. -/
def mapTree (es : List (Cirru × Cirru)) : Cirru :=
  .list (.leaf "\x7b\x7d" :: es.map fun e => .list [e.1, e.2])

/-- A node with a name and entries of a field and a tree. -/
def recordTree (name : String) (es : List (String × Cirru)) : Cirru :=
  .list (.leaf "%\x7b\x7d" :: .leaf (":" ++ name) ::
    es.map fun e => .list [.leaf (":" ++ e.1), e.2])

/-- The trees that describe a value. -/
inductive Grammatical : Cirru → Prop where
  | leaf {s : String} (h : LeafForm s) : Grammatical (.leaf s)
  | list {cs : List Cirru} (h : ∀ c ∈ cs, Grammatical c) : Grammatical (.list (.leaf "[]" :: cs))
  | set {cs : List Cirru} (h : ∀ c ∈ cs, Grammatical c) :
    Grammatical (.list (.leaf "#\x7b\x7d" :: cs))
  | map {es : List (Cirru × Cirru)} (hk : ∀ e ∈ es, Grammatical e.1)
    (hv : ∀ e ∈ es, Grammatical e.2) : Grammatical (mapTree es)
  | record {name : String} {es : List (String × Cirru)} (hv : ∀ e ∈ es, Grammatical e.2)
    (hd : (es.map Prod.fst).Nodup) : Grammatical (recordTree name es)
  | tuple {tag : Cirru} {cs : List Cirru} (ht : Grammatical tag) (h : ∀ c ∈ cs, Grammatical c) :
    Grammatical (.list (.leaf "::" :: tag :: cs))
  | quote {c : Cirru} : Grammatical (.list [.leaf "quote", c])
  | atom {c : Cirru} (h : Grammatical c) : Grammatical (.list [.leaf "atom", c])
  | inner {c : Cirru} (h : Grammatical c) : Grammatical (.list [.leaf "do", c])

/-- Some record node in the tree names a field twice. -/
inductive RepeatsField : Cirru → Prop where
  | here {name : String} {es : List (String × Cirru)} (h : ¬(es.map Prod.fst).Nodup) :
    RepeatsField (recordTree name es)
  | within {c : Cirru} {cs : List Cirru} (hc : c ∈ cs) (h : RepeatsField c) :
    RepeatsField (.list cs)

/-- How decoding may fail. -/
def Refusal (c : Cirru) (h : Halt) : Prop :=
  ∃ e, h = .error e ∧ (e.IsUndecodable ∨ (e.IsDuplicate ∧ RepeatsField c))

/-- What a part is refused for, the whole may be refused for. -/
theorem Refusal.within {c : Cirru} {cs : List Cirru} {h : Halt} (hr : Refusal c h) (hc : c ∈ cs) :
    Refusal (.list cs) h := by
  obtain ⟨e, rfl, he⟩ := hr
  refine ⟨e, rfl, he.imp_right fun ⟨hd, hrep⟩ => ⟨hd, .within hc hrep⟩⟩

theorem refusal_undecodable (c : Cirru) (node reason : String) :
    Refusal c (.error (.undecodable node reason)) := ⟨_, rfl, .inl ⟨_, _, rfl⟩⟩

theorem tagOf?_eq_some_iff {c : Cirru} {t : Tag} : tagOf? c = some t ↔ c = .leaf t.text := by
  constructor
  · intro h
    unfold tagOf? at h
    split at h
    · split at h
      · rename_i s cs hs
        cases h
        refine congrArg Cirru.leaf (String.toList_injective ?_)
        simp [Tag.text, hs]
      · cases h
    · cases h
  · rintro rfl
    simp [tagOf?, Tag.text]

/-! ## Whatever decodes is grammatical -/

variable {α : Type} {Q : α → Prop}

theorem ends_undecodable (c node : Cirru) (reason : String) :
    (undecodable node reason : Op α).Ends Q (Refusal c) :=
  ends_throw (refusal_undecodable c _ _)

theorem ends_expectTag (c node : Cirru) (what : String) (t : Cirru) :
    (expectTag node what t).Ends (fun tag => t = .leaf tag.text) (Refusal c) := by
  unfold expectTag
  split
  · rename_i tag ht
    exact ends_pure (tagOf?_eq_some_iff.mp ht)
  · exact ends_undecodable _ _ _

theorem ends_decodeAll {root : Cirru} {cs : List Cirru}
    (h : ∀ c ∈ cs, (decode .strict c).Ends (fun _ => Grammatical c) (Refusal root)) :
    (decodeAll .strict cs).Ends (fun _ => ∀ c ∈ cs, Grammatical c) (Refusal root) := by
  induction cs with
  | nil => exact ends_pure (by simp)
  | cons c cs ih =>
    refine ends_bind (h c (by simp)) fun v hv => ?_
    refine ends_bind (ih fun d hd => h d (by simp [hd])) fun vs hvs => ends_pure ?_
    exact List.forall_mem_cons.mpr ⟨hv, hvs⟩

theorem ends_decodePairs {root node : Cirru} {cs : List Cirru}
    (h : ∀ k v, .list [k, v] ∈ cs →
      (decode .strict k).Ends (fun _ => Grammatical k) (Refusal root) ∧
      (decode .strict v).Ends (fun _ => Grammatical v) (Refusal root)) :
    (decodePairs .strict node cs).Ends (fun _ => ∃ es : List (Cirru × Cirru),
      cs = es.map (fun e => .list [e.1, e.2]) ∧ (∀ e ∈ es, Grammatical e.1) ∧
      ∀ e ∈ es, Grammatical e.2) (Refusal root) := by
  induction cs with
  | nil => exact ends_pure ⟨[], rfl, by simp, by simp⟩
  | cons c cs ih =>
    unfold decodePairs
    split
    · rename_i hnil
      cases hnil
    · rename_i k v rest heq
      obtain ⟨rfl, rfl⟩ := List.cons.inj heq
      obtain ⟨hk, hv⟩ := h k v (by simp)
      refine ends_bind hk fun a ha => ends_bind hv fun b hb => ?_
      refine ends_bind (ih fun k v hd => h k v (by simp [hd])) fun _ ⟨es, hes, hks, hvs⟩ =>
        ends_pure ⟨(k, v) :: es, by rw [hes]; rfl, ?_, ?_⟩
      · exact List.forall_mem_cons.mpr ⟨ha, hks⟩
      · exact List.forall_mem_cons.mpr ⟨hb, hvs⟩
    · exact ends_undecodable _ _ _

theorem ends_decodeFields {root node : Cirru} {cs : List Cirru}
    (h : ∀ k v, .list [k, v] ∈ cs →
      (decode .strict v).Ends (fun _ => Grammatical v) (Refusal root)) :
    (decodeFields .strict node cs).Ends (fun fs => ∃ es : List (String × Cirru),
      cs = es.map (fun e => .list [.leaf (":" ++ e.1), e.2]) ∧
      fs.map (·.1.name) = es.map Prod.fst ∧ ∀ e ∈ es, Grammatical e.2) (Refusal root) := by
  induction cs with
  | nil => exact ends_pure ⟨[], rfl, rfl, by simp⟩
  | cons c cs ih =>
    unfold decodeFields
    split
    · rename_i hnil
      cases hnil
    · rename_i k v rest heq
      obtain ⟨rfl, rfl⟩ := List.cons.inj heq
      refine ends_bind (ends_expectTag root _ _ k) fun t ht => ?_
      refine ends_bind (h k v (by simp)) fun b hb => ?_
      refine ends_bind (ih fun k v hd => h k v (by simp [hd])) fun _ ⟨es, hes, hfs, hvs⟩ =>
        ends_pure ⟨(t.name, v) :: es, by rw [hes, ht]; rfl, by simp [hfs], ?_⟩
      exact List.forall_mem_cons.mpr ⟨hb, hvs⟩
    · exact ends_undecodable _ _ _

theorem nodup_names_iff {fs : List (Tag × Value)} :
    (fs.map (·.1.name)).Nodup ↔ (fs.map Prod.fst).Nodup := by
  have hinj : Function.Injective Tag.name := by
    rintro ⟨s⟩ ⟨t⟩ rfl
    rfl
  rw [← List.nodup_map_iff hinj, List.map_map]
  rfl

/-- A record is refused only if a field is repeated. -/
theorem ends_makeRecord (name : Tag) (fs : List (Tag × Value)) :
    (RecordNode.make name fs).Ends (fun _ => (fs.map (·.1.name)).Nodup)
      fun h => ∃ e, h = .error e ∧ e.IsDuplicate ∧ ¬(fs.map (·.1.name)).Nodup := by
  have hmake : (ofExcept (Record.ofPairs name fs)).Ends (fun _ => (fs.map (·.1.name)).Nodup)
      fun h => ∃ e, h = .error e ∧ e.IsDuplicate ∧ ¬(fs.map (·.1.name)).Nodup := by
    refine ends_ofExcept (fun r hr => ?_) fun e he => ?_
    · exact nodup_names_iff.mpr (Record.ofPairs_ok_iff.mp ⟨r, hr⟩)
    · refine ⟨e, rfl, Record.ofPairs_error he, fun hd => ?_⟩
      obtain ⟨r, hr⟩ := Record.ofPairs_ok_iff.mpr (nodup_names_iff.mp hd)
      rw [he] at hr
      cases hr
  exact ends_bind hmake fun r hr => (ends_share r).mono (fun _ _ => hr) fun _ h => h

section Made

variable {E : Halt → Prop} {P : Prop} (hp : P)
include hp

/-- Making a value of others ends with one. -/
theorem ends_made {op : Op α} {wrap : α → Value} (h : op.Ends (fun _ => True) E) :
    (op >>= fun a => pure (wrap a)).Ends (fun _ => P) E :=
  ends_bind h fun _ _ => ends_pure hp

theorem ends_ofList (xs : List Value) : (Value.ofList xs).Ends (fun _ => P) E :=
  ends_made hp (ends_bind (ends_modifyGet _) fun _ _ => ends_share _)

theorem ends_ofElements (xs : List Value) : (Value.ofElements xs).Ends (fun _ => P) E :=
  ends_made hp (ends_bind (ends_modifyGet _) fun _ _ => ends_share _)

theorem ends_ofPairs (ps : List (Value × Value)) : (Value.ofPairs ps).Ends (fun _ => P) E :=
  ends_made hp (ends_bind (ends_modifyGet _) fun _ _ => ends_share _)

theorem ends_ofTuple (tag : Value) (extra : List Value) :
    (Value.ofTuple tag extra []).Ends (fun _ => P) E := ends_made hp (ends_share _)

theorem ends_ofCell (v : Value) :
    (Cells.create v >>= fun r => pure (Value.ref r)).Ends (fun _ => P) E :=
  ends_made hp (ends_bind (ends_modifyGet fun s =>
    (countedPath s.paths, { s with paths := s.paths + 1 })) fun _ _ => ends_modifyGet _)

end Made

theorem ends_decode (c : Cirru) :
    (decode .strict c).Ends (fun _ => Grammatical c) (Refusal c) := by
  -- a part of a tree is refused for what the tree may be refused for
  have each {h : Cirru} {cs : List Cirru}
      (ih : ∀ c ∈ cs, (decode .strict c).Ends (fun _ => Grammatical c) (Refusal c)) :
      ∀ c ∈ cs, (decode .strict c).Ends (fun _ => Grammatical c) (Refusal (.list (h :: cs))) :=
    fun c hc => (ih c hc).mono (fun _ h => h) fun _ h => h.within (List.mem_cons_of_mem _ hc)
  have inPair {k v c : Cirru} {cs : List Cirru} (hkv : .list [k, v] ∈ cs) (hc : c ∈ [k, v])
      (ih : (decode .strict c).Ends (fun _ => Grammatical c) (Refusal c)) :
      (decode .strict c).Ends (fun _ => Grammatical c) (Refusal (.list cs)) :=
    ih.mono (fun _ h => h) fun _ h => (h.within hc).within hkv
  induction c using node_induction with
  | leaf s =>
    rw [decode_leaf]
    refine ends_ofExcept (fun v hv => .leaf ((decodeLeaf_ok_iff s).mp ⟨v, hv⟩)) fun e he => ?_
    exact ⟨e, rfl, .inl (isUndecodable_of_decodeLeaf he)⟩
  | list cs ih =>
    rw [decode_list]
    exact ends_bind (ends_decodeAll (each ih)) fun xs hxs => ends_ofList (.list hxs) xs
  | set cs ih =>
    rw [decode_set]
    exact ends_bind (ends_decodeAll (each ih)) fun xs hxs => ends_ofElements (.set hxs) xs
  | map cs ih =>
    rw [decode_map]
    refine ends_bind (ends_decodePairs fun k v hkv => ?_) ?_
    · have hkv' := List.mem_cons_of_mem (.leaf "\x7b\x7d") hkv
      exact ⟨inPair hkv' (by simp) (ih k v hkv).1, inPair hkv' (by simp) (ih k v hkv).2⟩
    · rintro ps ⟨es, rfl, hks, hvs⟩
      exact ends_ofPairs (.map hks hvs) ps
  | record name cs ih =>
    rw [decode_record]
    refine ends_bind (ends_expectTag _ _ _ name) fun tag htag => ?_
    refine ends_bind (ends_decodeFields fun k v hkv => ?_) ?_
    · have hkv' := List.mem_cons_of_mem (.leaf "%\x7b\x7d") (List.mem_cons_of_mem name hkv)
      exact inPair hkv' (by simp) (ih k v hkv)
    rintro fs ⟨es, rfl, hfs, hvs⟩
    subst htag
    refine ends_bind ((ends_makeRecord tag fs).mono (fun _ hd => hd) ?_) fun r hd => ends_pure ?_
    · rintro h ⟨e, rfl, he, hd⟩
      exact ⟨e, rfl, .inr ⟨he, .here (hfs ▸ hd)⟩⟩
    · exact .record hvs (hfs ▸ hd)
  | tuple head cs ihh ih =>
    rw [decode_tuple]
    have hall := @each (.leaf "::") (head :: cs) (List.forall_mem_cons.mpr ⟨ihh, ih⟩)
    obtain ⟨hhead, hrest⟩ := List.forall_mem_cons.mp hall
    refine ends_bind hhead fun t ht => ends_bind (ends_decodeAll hrest) fun xs hxs => ?_
    exact ends_ofTuple (.tuple ht hxs) t xs
  | quote c =>
    rw [decode_quote]
    exact ends_pure .quote
  | atom c ih =>
    rw [decode_atom]
    refine ends_bind (ih.mono (fun _ h => h) fun _ h => h.within (by simp)) fun v hv => ?_
    exact ends_ofCell (.atom hv) v
  | inner c ih =>
    rw [decode_inner]
    exact ih.mono (fun _ hv => .inner hv) fun _ h => h.within (by simp)
  | other c hn =>
    obtain ⟨node, reason, h⟩ := decode_of_not_node hn .strict
    rw [h]
    exact ends_throw (refusal_undecodable _ _ _)

/-! ## Whatever is grammatical decodes -/

/-- In any store the operation has a result. -/
abbrev Accepts (op : Op α) : Prop := op.Ends (fun _ => True) fun _ => False

theorem accepts_decodeAll {cs : List Cirru} (h : ∀ c ∈ cs, Accepts (decode .strict c)) :
    Accepts (decodeAll .strict cs) := by
  induction cs with
  | nil => exact ends_pure trivial
  | cons c cs ih =>
    refine ends_bind (h c (by simp)) fun _ _ => ?_
    exact ends_bind (ih fun d hd => h d (by simp [hd])) fun _ _ => ends_pure trivial

theorem accepts_decodePairs {node : Cirru} {es : List (Cirru × Cirru)}
    (hk : ∀ e ∈ es, Accepts (decode .strict e.1)) (hv : ∀ e ∈ es, Accepts (decode .strict e.2)) :
    Accepts (decodePairs .strict node (es.map fun e => .list [e.1, e.2])) := by
  induction es with
  | nil => exact ends_pure trivial
  | cons e es ih =>
    refine ends_bind (hk e (by simp)) fun _ _ => ends_bind (hv e (by simp)) fun _ _ => ?_
    exact ends_bind (ih (fun f hf => hk f (by simp [hf])) fun f hf => hv f (by simp [hf]))
      fun _ _ => ends_pure trivial

theorem expectTag_text (node : Cirru) (what name : String) :
    expectTag node what (.leaf (":" ++ name)) = pure ⟨name⟩ := by
  have htag : tagOf? (.leaf (":" ++ name)) = some ⟨name⟩ := tagOf?_eq_some_iff.mpr rfl
  simp only [expectTag, htag]

theorem accepts_decodeFields {node : Cirru} {es : List (String × Cirru)}
    (hv : ∀ e ∈ es, Accepts (decode .strict e.2)) :
    (decodeFields .strict node (es.map fun e => .list [.leaf (":" ++ e.1), e.2])).Ends
      (fun fs => fs.map (·.1.name) = es.map Prod.fst) fun _ => False := by
  induction es with
  | nil => exact ends_pure rfl
  | cons e es ih =>
    rw [List.map_cons, decodeFields, expectTag_text, pure_bind]
    refine ends_bind (hv e (by simp)) fun _ _ => ?_
    refine ends_bind (ih fun f hf => hv f (by simp [hf])) fun fs hfs => ends_pure ?_
    simp [hfs]

theorem accepts_decode {c : Cirru} (h : Grammatical c) : Accepts (decode .strict c) := by
  induction h with
  | @leaf s h =>
    obtain ⟨v, hv⟩ := (decodeLeaf_ok_iff s).mpr h
    exact ends_ofExcept (fun _ _ => trivial) fun e he => by rw [hv] at he; cases he
  | @list cs _ ih =>
    rw [decode_list]
    exact ends_bind (accepts_decodeAll ih) fun xs _ => ends_ofList trivial xs
  | @set cs _ ih =>
    rw [decode_set]
    exact ends_bind (accepts_decodeAll ih) fun xs _ => ends_ofElements trivial xs
  | @map es _ _ ihk ihv =>
    rw [mapTree, decode_map]
    exact ends_bind (accepts_decodePairs ihk ihv) fun ps _ => ends_ofPairs trivial ps
  | @record name es _ hd ihv =>
    rw [recordTree, decode_record, expectTag_text, pure_bind]
    refine ends_bind (accepts_decodeFields ihv) fun fs hfs => ?_
    refine ends_bind ((ends_makeRecord ⟨name⟩ fs).mono (fun _ _ => trivial) ?_) fun _ _ =>
      ends_pure trivial
    rintro h ⟨e, -, -, hrep⟩
    exact hrep (hfs ▸ hd)
  | @tuple tag cs _ _ iht ih =>
    rw [decode_tuple]
    refine ends_bind iht fun t _ => ends_bind (accepts_decodeAll ih) fun xs _ => ?_
    exact ends_ofTuple trivial t xs
  | quote =>
    rw [decode_quote]
    exact ends_pure trivial
  | atom _ ih =>
    rw [decode_atom]
    exact ends_bind ih fun v _ => ends_ofCell trivial v
  | inner _ ih =>
    rw [decode_inner]
    exact ih

/-- Strict decoding accepts exactly the grammatical trees. Whatever else it is given, it refuses as
undecodable, or, if some record node names a field twice, for the repeated field. -/
theorem decode_ok_iff (c : Cirru) (s : Store) :
    ((∃ v, (decode .strict c s).1 = .ok v) ↔ Grammatical c) ∧
    (¬Grammatical c → ∃ e, (decode .strict c s).1 = .error (.error e) ∧
      (e.IsUndecodable ∨ (e.IsDuplicate ∧ RepeatsField c))) := by
  obtain ⟨hok, herror⟩ := ends_decode c s
  cases hr : (decode .strict c s).1 with
  | ok v => exact ⟨⟨fun _ => hok v hr, fun _ => ⟨v, rfl⟩⟩, fun hn => absurd (hok v hr) hn⟩
  | error h =>
    obtain ⟨e, rfl, he⟩ := herror h hr
    have hn : ¬Grammatical c := fun hg => (accepts_decode hg s).2 _ hr
    exact ⟨⟨fun ⟨v, hv⟩ => (by cases hv), fun hg => absurd hg hn⟩, fun _ => ⟨e, rfl, he⟩⟩

end Wire
end DynVal
