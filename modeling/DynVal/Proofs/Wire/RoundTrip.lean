import DynVal.Proofs.Numbers.Text
import DynVal.Proofs.Wire.Canonical
import DynVal.Proofs.Wire.Decoding
import DynVal.Proofs.Wire.Grammar

/-!
# Decoding what was encoded

Every tree that encoding gives is grammatical (`Wire.grammatical_of_formAt`), and what it decodes to
is the value that was encoded, as far as the order tells, with the same tree
(`Wire.returns_formAt`).

The leaves come back as they are. A set or map is made anew of elements or entries that stand in
strictly increasing order, so none is dropped and sorting finds them where they were; the same holds
of the fields of a record.
-/

namespace DynVal.Wire

open Std Value Memo

/-! ## Leaves -/

section Leaves

variable {mode : Mode} {s : String} {c : Char} {cs : List Char}

/-- The words start with letters of their own. -/
theorem not_word (h : s.toList = c :: cs) (hc : c ∉ ['n', 't', 'f']) :
    s ≠ "nil" ∧ s ≠ "true" ∧ s ≠ "false" := by
  refine ⟨?_, ?_, ?_⟩ <;>
  · rintro rfl
    simp only [String.reduceToList, List.cons.injEq] at h
    simp [← h.1] at hc

theorem decodeLeaf_str (s : String) : decodeLeaf mode ("|" ++ s) = .ok (.str s) := by
  have hs : ("|" ++ s).toList = '|' :: s.toList := String.toList_append
  obtain ⟨hnil, htrue, hfalse⟩ := not_word hs (by decide)
  simp [decodeLeaf, hnil, htrue, hfalse, hs]

theorem decodeLeaf_tag (t : Tag) : decodeLeaf mode t.text = .ok (.tag t) := by
  have ht : t.text.toList = ':' :: t.name.toList := String.toList_append
  obtain ⟨hnil, htrue, hfalse⟩ := not_word ht (by decide)
  simp [decodeLeaf, hnil, htrue, hfalse, ht]

theorem decodeLeaf_symbol (s : Symbol) : decodeLeaf mode s.text = .ok (.symbol s) := by
  have hs : s.text.toList = '\'' :: s.name.toList := String.toList_append
  obtain ⟨hnil, htrue, hfalse⟩ := not_word hs (by decide)
  simp [decodeLeaf, hnil, htrue, hfalse, hs]

theorem startsNumeric_text {n : Number} (h : n.isFinite = true) : StartsNumeric n.text.toList := by
  obtain ⟨d, ds, hds, hd⟩ := n.exists_digits_eq
  refine ⟨d, ds, hd, ?_⟩
  rw [Number.text_toList h, hds]
  split
  · exact .inr rfl
  · exact .inl rfl

/-- A leaf that starts like a number is decoded as one. -/
theorem decodeLeaf_of_startsNumeric (h : StartsNumeric s.toList) :
    decodeLeaf mode s = decodeBare mode s := by
  obtain ⟨c, cs, hc, hs⟩ : ∃ c cs, (c.isDigit = true ∨ c = '-') ∧ s.toList = c :: cs := by
    obtain ⟨d, ds, hd, hs | hs⟩ := h
    · exact ⟨d, ds, .inl hd, hs⟩
    · exact ⟨'-', d :: ds, .inr rfl, hs⟩
  have hother : c ∉ ['n', 't', 'f', '|', '\"', ':', '\''] := by
    simp only [List.mem_cons, List.not_mem_nil, or_false]
    rcases hc with hc | rfl
    · rintro (rfl | rfl | rfl | rfl | rfl | rfl | rfl) <;> cases hc
    · decide
  obtain ⟨hnil, htrue, hfalse⟩ := not_word hs fun h => hother (by simp at h ⊢; tauto)
  rw [decodeLeaf, if_neg hnil, if_neg htrue, if_neg hfalse, hs]
  split
  · rename_i h
    cases h
  all_goals first | rfl | (rename_i h; cases h; simp at hother)

theorem decodeLeaf_number {n : Number} (h : n.isFinite = true) :
    decodeLeaf mode n.text = .ok (.number n) := by
  have hstart := startsNumeric_text h
  rw [decodeLeaf_of_startsNumeric hstart]
  simp [decodeBare, (looksNumeric_iff _).mpr hstart, Number.parse?_text h, h]

end Leaves

/-! ## Encoded forms are grammatical -/

section Grammatical

variable {ρ : Ranking} {content : Ref → Value} {text : Value → OptionT Id String} {d : Nat}
  {v : Value}
  {c : Cirru} {E : Value → Cirru → Prop}

theorem exists_entryTrees {es : List (Value × Value)} {cs : List Cirru}
    (hE : ∀ e ∈ es, ∀ c, (E e.1 c → Grammatical c) ∧ (E e.2 c → Grammatical c))
    (h : List.Forall₂ (EntryForm E) es cs) : ∃ ts : List (Cirru × Cirru),
      cs = ts.map (fun t => .list [t.1, t.2]) ∧ (∀ t ∈ ts, Grammatical t.1) ∧
      ∀ t ∈ ts, Grammatical t.2 := by
  induction h with
  | nil => exact ⟨[], rfl, by simp, by simp⟩
  | @cons e _ es _ he _ ih =>
    obtain ⟨k, v, hk, hv, rfl⟩ := he
    obtain ⟨ts, rfl, hks, hvs⟩ := ih fun e he => hE e (List.mem_cons_of_mem _ he)
    have hkv := hE e List.mem_cons_self
    exact ⟨(k, v) :: ts, rfl, List.forall_mem_cons.mpr ⟨(hkv k).1 hk, hks⟩,
      List.forall_mem_cons.mpr ⟨(hkv v).2 hv, hvs⟩⟩

theorem exists_fieldTrees {fs : List (Tag × Value)} {cs : List Cirru}
    (hE : ∀ f ∈ fs, ∀ c, E f.2 c → Grammatical c) (h : List.Forall₂ (FieldForm E) fs cs) :
    ∃ ts : List (String × Cirru), cs = ts.map (fun t => .list [.leaf (":" ++ t.1), t.2]) ∧
      ts.map Prod.fst = fs.map (·.1.name) ∧ ∀ t ∈ ts, Grammatical t.2 := by
  induction h with
  | nil => exact ⟨[], rfl, rfl, by simp⟩
  | @cons f _ fs _ hf _ ih =>
    obtain ⟨v, hv, rfl⟩ := hf
    obtain ⟨ts, rfl, hnames, hvs⟩ := ih fun f hf => hE f (List.mem_cons_of_mem _ hf)
    exact ⟨(f.1.name, v) :: ts, rfl, by simp [hnames],
      List.forall_mem_cons.mpr ⟨hE f List.mem_cons_self v hv, hvs⟩⟩

theorem grammatical_of_forall₂ {vs : List Value} {cs : List Cirru}
    (hE : ∀ p ∈ vs, ∀ c, E p c → Grammatical c) (h : List.Forall₂ E vs cs) :
    ∀ c ∈ cs, Grammatical c := by
  induction h with
  | nil => simp
  | cons hp _ ih =>
    exact List.forall_mem_cons.mpr ⟨hE _ List.mem_cons_self _ hp,
      ih fun p hp => hE p (List.mem_cons_of_mem _ hp)⟩

/-- The fields of a record are distinct, in whichever order they are encoded. -/
theorem nodup_sortedFields {r : RecordNode} (hr : r.body.Ordered) :
    ((sortedFields r).map (·.1.name)).Nodup := by
  rw [nodup_names_iff, ((sortedFields_perm r).map Prod.fst).nodup_iff]
  exact hr.nodup

/-- The tree of a value is grammatical if those of what it holds are. -/
theorem FormBy.grammatical (h : FormBy ρ.rank content E v c) (hv : Formed ρ.rank v)
    (hE : ∀ p ∈ v.contents (entriesUnder ρ.rank), ∀ i, E p i → Grammatical i)
    (hr : ∀ r i, E (content r) i → Grammatical i) : Grammatical c := by
  cases h with
  | nil => exact .leaf (.word (by simp))
  | bool b => cases b <;> exact .leaf (.word (by simp))
  | number h => exact .leaf ((decodeLeaf_ok_iff _).mp ⟨_, decodeLeaf_number h⟩)
  | str s => exact .leaf ((decodeLeaf_ok_iff _).mp ⟨_, decodeLeaf_str s⟩)
  | tag t => exact .leaf ((decodeLeaf_ok_iff _).mp ⟨_, decodeLeaf_tag t⟩)
  | symbol s => exact .leaf ((decodeLeaf_ok_iff _).mp ⟨_, decodeLeaf_symbol s⟩)
  | quote c => exact .quote
  | ref h => exact .atom (hr _ _ h)
  | list h => exact .list (grammatical_of_forall₂ hE h)
  | set h => exact .set (grammatical_of_forall₂ (fun p hp => hE p (mem_sortedElements hp)) h)
  | @map x cs h =>
    obtain ⟨ts, rfl, hks, hvs⟩ := exists_entryTrees (fun e he c =>
      ⟨hE _ (mem_sortedEntries he).1 c, hE _ (mem_sortedEntries he).2 c⟩) h
    exact .map hks hvs
  | @record r cs h =>
    obtain ⟨ts, rfl, hnames, hvs⟩ := exists_fieldTrees (fun f hf => hE _ (mem_sortedFields hf)) h
    exact .record hvs (hnames ▸ nodup_sortedFields hv)
  | @tuple t cs h =>
    cases h with
    | cons ht hs =>
      refine .tuple (hE _ (tag_mem_parts t) _ ht) (grammatical_of_forall₂ (fun p hp => ?_) hs)
      exact hE p (extra_mem_parts t hp)

theorem grammatical_of_formAt (hc : ∀ r, WellFormed ρ (content r)) (hv : WellFormed ρ v)
    (h : formAt ρ.rank content text d v = .ok c) : Grammatical c := by
  induction d generalizing v c with
  | zero => cases h
  | succ d ih =>
    exact (formAt_succ_iff.mp h).grammatical hv.here (fun p hp _ => ih (hv.contents p hp))
      fun r _ => ih (hc r)

end Grammatical

/-! ## Collections made of what is in order -/

section Made

variable {ρ : Ranking}

/-- Keys that the order tells apart are told apart when they are stored. -/
theorem test_of_order_ne {p q : Value} (h : order ρ.rank p q ≠ .eq) :
    (keysUnder ρ).test p q = false := by
  rw [Bool.eq_false_iff]
  intro ht
  obtain ⟨hp, hq, hequal⟩ : WellFormed ρ p ∧ WellFormed ρ q ∧ equal ρ.rank p q = true :=
    agree_iff.mp ht
  exact h (order_eq_of_equal hp hq hequal)

/-- A set made of distinct elements has them all. -/
theorem elements_ofList {xs : List Value} (h : xs.Pairwise fun p q => order ρ.rank p q ≠ .eq) :
    (Id.run (Set.ofList (keysUnder ρ) xs)).elements.Perm xs := by
  apply Set.perm_ofList (lawful_keysUnder ρ)
  exact List.pairwise_map.mpr (h.imp test_of_order_ne)

/-- A map made of entries with distinct keys shows them all. -/
theorem entriesUnder_ofPairs {m : MapNode} {ps : List (Value × Value)}
    (hm : m.body = Id.run (Map.ofPairs (keysUnder ρ) ps))
    (h : ps.Pairwise fun e f => order ρ.rank e.1 f.1 ≠ .eq) :
    (entriesUnder ρ.rank m).Perm ps := by
  have hentries : entriesUnder ρ.rank m =
      Storage.entries (Storage.ofPairs (m := Id) (keysUnder ρ) ps) := by
    rw [entriesUnder, hm]
    rfl
  rw [hentries]
  exact Storage.perm_ofPairs (lawful_keysUnder ρ) (h.imp test_of_order_ne)

end Made

/-! ## What comes back -/

/-- Whatever a tree of the value describes is equal to the value under the order, and has that
tree. -/
def Returns (ρ : Ranking) (E E' : Value → Cirru → Prop) (v : Value) : Prop :=
  ∀ c w, E v c → (∃ tr, Decodes ρ .strict c w tr) → order ρ.rank v w = .eq ∧ E' w c

theorem forall₂_return {α β γ : Type} {E : α → γ → Prop} {D : γ → β → Prop} {R : α → β → Prop}
    {E' : β → γ → Prop} {ps : List α} {cs : List γ} {qs : List β} (h : List.Forall₂ E ps cs)
    (hd : List.Forall₂ D cs qs) (ht : ∀ p ∈ ps, ∀ c q, E p c → D c q → R p q ∧ E' q c) :
    List.Forall₂ R ps qs ∧ List.Forall₂ E' qs cs := by
  induction h generalizing qs with
  | nil =>
    cases hd
    exact ⟨.nil, .nil⟩
  | cons hp _ ih =>
    cases hd with
    | cons hq hqs =>
      obtain ⟨hr, he⟩ := ht _ List.mem_cons_self _ _ hp hq
      obtain ⟨hrs, hes⟩ := ih hqs fun p hp => ht p (List.mem_cons_of_mem _ hp)
      exact ⟨.cons hr hrs, .cons he hes⟩

section Step

variable {ρ : Ranking} {content content' : Ref → Value} {E E' : Value → Cirru → Prop} {v w : Value}
  {c : Cirru}

/-- A scalar comes back as it is. -/
theorem FormBy.scalar (h : FormBy ρ.rank content E v c) (hv : v.level = 0)
    (he : isEncodable v = true) {tr : List (Ref × Value)} (hw : Decodes ρ .strict c w tr) :
    w = v ∧ tr = [] ∧ FormBy ρ.rank content' E' v c := by
  have hleaf {s : String} (hs : decodeLeaf .strict s = .ok v)
      (hw : Decodes ρ .strict (leaf s) w tr) : w = v ∧ tr = [] := by
    obtain ⟨hs', htr⟩ := decodes_leaf hw
    exact ⟨Except.ok.inj (hs'.symm.trans hs), htr⟩
  cases h with
  | nil => exact and_assoc.mp ⟨hleaf rfl hw, .nil⟩
  | bool b => cases b <;> exact and_assoc.mp ⟨hleaf rfl hw, .bool _⟩
  | number hn => exact and_assoc.mp ⟨hleaf (decodeLeaf_number hn) hw, .number hn⟩
  | str s => exact and_assoc.mp ⟨hleaf (decodeLeaf_str s) hw, .str s⟩
  | tag t => exact and_assoc.mp ⟨hleaf (decodeLeaf_tag t) hw, .tag t⟩
  | symbol s => exact and_assoc.mp ⟨hleaf (decodeLeaf_symbol s) hw, .symbol s⟩
  | quote c => exact and_assoc.mp ⟨decodes_quote hw, .quote c⟩
  | ref _ => cases he
  | _ => exact absurd hv (Nat.succ_ne_zero _)

/-- An entry comes back where its key and value do. -/
theorem return_entry {e f : Value × Value} (hk : Returns ρ E E' e.1) (hv : Returns ρ E E' e.2)
    (h : EntryForm E e c) (hd : ∃ tr, DecodesPair ρ .strict c f tr) :
    MatchEntry (fun p q => order ρ.rank p q = .eq) e f ∧ EntryForm E' f c := by
  obtain ⟨i, j, hi, hj, rfl⟩ := h
  obtain ⟨_, i', j', _, _, heq, -, hdi, hdj⟩ := hd
  simp only [Cirru.list.injEq, List.cons.injEq, and_true] at heq
  obtain ⟨rfl, rfl⟩ := heq
  obtain ⟨hkey, hi'⟩ := hk i f.1 hi ⟨_, hdi⟩
  obtain ⟨hvalue, hj'⟩ := hv j f.2 hj ⟨_, hdj⟩
  exact ⟨⟨hkey, hvalue⟩, i, j, hi', hj', rfl⟩

/-- A field comes back where its value does. -/
theorem return_field {f g : Tag × Value} (hv : Returns ρ E E' f.2) (h : FieldForm E f c)
    (hd : ∃ tr, DecodesField ρ .strict c g tr) :
    MatchField (fun p q => order ρ.rank p q = .eq) f g ∧ FieldForm E' g c := by
  obtain ⟨j, hj, rfl⟩ := h
  obtain ⟨_, k, j', heq, hdk, hdj⟩ := hd
  simp only [Cirru.list.injEq, List.cons.injEq, and_true] at heq
  obtain ⟨rfl, rfl⟩ := heq
  have hname : f.1 = g.1 := Option.some.inj ((tagOf?_eq_some_iff.mpr rfl).symm.trans hdk)
  obtain ⟨hvalue, hj'⟩ := hv j g.2 hj ⟨_, hdj⟩
  exact ⟨⟨hname, hvalue⟩, j, hj', by rw [hname]⟩

theorem returns_list {l : ListNode}
    (hE : ∀ p ∈ contents (entriesUnder ρ.rank) (.list l), Returns ρ E E' p) :
    Returns ρ (FormBy ρ.rank content E) (FormBy ρ.rank content' E') (.list l) := by
  rintro c w hc ⟨tr, hw⟩
  cases hc with
  | list hc =>
    obtain ⟨k, rfl, hparts⟩ := decodes_list hw
    obtain ⟨hmatch, hform⟩ := forall₂_return hc hparts.forall₂ hE
    exact ⟨order_eq_of_matches hmatch, .list hform⟩

theorem returns_tuple {t : TupleNode}
    (hE : ∀ p ∈ contents (entriesUnder ρ.rank) (.tuple t), Returns ρ E E' p) :
    Returns ρ (FormBy ρ.rank content E) (FormBy ρ.rank content' E') (.tuple t) := by
  rintro c w hc ⟨tr, hw⟩
  cases hc with
  | tuple hc =>
    obtain ⟨u, rfl, hparts⟩ := decodes_tuple hw
    obtain ⟨hmatch, hform⟩ := forall₂_return hc hparts.forall₂ hE
    exact ⟨order_eq_of_matches hmatch, .tuple hform⟩

theorem returns_set {s : SetNode} (hs : WellFormed ρ (.set s))
    (hd : (Value.set s).Throughout (entriesUnder ρ.rank) fun p => p.isDefinite = true)
    (hE : ∀ p ∈ contents (entriesUnder ρ.rank) (.set s), Returns ρ E E' p) :
    Returns ρ (FormBy ρ.rank content E) (FormBy ρ.rank content' E') (.set s) := by
  rintro c w hc ⟨tr, hw⟩
  cases hc with
  | set hc =>
    obtain ⟨t, xs, rfl, hparts, hbody⟩ := decodes_set hw
    obtain ⟨hmatch, hform⟩ :=
      forall₂_return hc hparts.forall₂ fun p hp => hE p (mem_sortedElements hp)
    have hlt := pairwise_lt_of_forall₂ (fun _ _ h => h) hmatch (pairwise_lt_sortedElements hs hd)
    have hperm : t.body.elements.Perm xs := hbody ▸ elements_ofList (hlt.imp fun h => by simp [h])
    constructor
    · have hrel : Multiset.Rel (fun p q => order ρ.rank p q = .eq)
          (s.body.elements : Multiset Value) (t.body.elements : Multiset Value) := by
        rw [← Multiset.coe_eq_coe.mpr (sortedElements_perm s), Multiset.coe_eq_coe.mpr hperm]
        exact rel_of_forall₂ hmatch
      exact order_eq_of_matches hrel
    · have hsorted : sortedElements ρ.rank t = xs := sorted_eq_of_perm .eight hperm hlt
      exact .set (hsorted ▸ hform)

theorem returns_map {x : MapNode} (hx : WellFormed ρ (.map x))
    (hd : (Value.map x).Throughout (entriesUnder ρ.rank) fun p => p.isDefinite = true)
    (hE : ∀ p ∈ contents (entriesUnder ρ.rank) (.map x), Returns ρ E E' p) :
    Returns ρ (FormBy ρ.rank content E) (FormBy ρ.rank content' E') (.map x) := by
  rintro c w hc ⟨tr, hw⟩
  cases hc with
  | map hc =>
    obtain ⟨m, ps, rfl, hparts, hbody⟩ := decodes_map hw
    obtain ⟨hmatch, hform⟩ := forall₂_return hc hparts.forall₂ fun e he c f =>
      return_entry (hE _ (mem_sortedEntries he).1) (hE _ (mem_sortedEntries he).2)
    have hkeys : (sortedEntries ρ.rank x).Pairwise fun e f => order ρ.rank e.1 f.1 ≠ .eq :=
      ((sortedEntries_perm x).pairwise_iff fun h heq => h (OrientedCmp.eq_symm heq)).mpr
        (pairwise_keys hx hd)
    have hdistinct : ps.Pairwise fun e f => order ρ.rank e.1 f.1 ≠ .eq := by
      refine pairwise_of_forall₂ (fun e f e' f' hef hef' hne => ?_) hmatch hkeys
      rw [← TransCmp.congr_left hef.1, ← TransCmp.congr_right hef'.1]
      exact hne
    have hperm : (entriesUnder ρ.rank m).Perm ps := entriesUnder_ofPairs hbody hdistinct
    constructor
    · have hrel : Multiset.Rel (MatchEntry fun p q => order ρ.rank p q = .eq)
          (entriesUnder ρ.rank x : Multiset (Value × Value))
          (entriesUnder ρ.rank m : Multiset (Value × Value)) := by
        rw [← Multiset.coe_eq_coe.mpr (sortedEntries_perm x), Multiset.coe_eq_coe.mpr hperm]
        exact rel_of_forall₂ hmatch
      exact order_eq_of_matches hrel
    · have hlt := pairwise_lt_of_forall₂ (fun _ _ => entryOrder_eq) hmatch
        (pairwise_lt_sortedEntries hx hd)
      have hsorted : sortedEntries ρ.rank m = ps := sorted_eq_of_perm .eight hperm hlt
      exact .map (hsorted ▸ hform)

/-- Fields that pair off with fields of their names pair off as they stand, as records have them in
order. -/
theorem forall₂_of_fields {R : Tag × Value → Tag × Value → Prop} {r s : RecordNode}
    (hr : r.body.Ordered) (hs : s.body.Ordered) (hR : ∀ f g, R f g → f.1 = g.1)
    (h : Multiset.Rel R (r.body.fields : Multiset (Tag × Value)) (s.body.fields)) :
    List.Forall₂ R r.body.fields s.body.fields := by
  have hordered {s : RecordNode} (hs : s.body.Ordered) :
      s.body.fields.Pairwise fun f g => f.1.compare g.1 = .lt := List.pairwise_map.mp hs
  refine forall₂_of_rel (fun f _ g _ hfg => ?_) (hordered hr) (hordered hs) h
  rw [hR f g hfg]
  exact @ReflCmp.compare_self _ Tag.compare _ _

theorem names_of_forall₂ {R : Tag × Value → Tag × Value → Prop} {r s : RecordNode}
    (hR : ∀ f g, R f g → f.1 = g.1) (h : List.Forall₂ R r.body.fields s.body.fields) :
    r.body.names = s.body.names := by
  have hnames : List.Forall₂ (· = ·) r.body.names s.body.names :=
    List.forall₂_map_left_iff.mpr (List.forall₂_map_right_iff.mpr (h.imp hR))
  rwa [List.forall₂_eq_eq_eq] at hnames

/-- Records with the same fields are equal under the order, as both have them in order. -/
theorem order_eq_of_fields {r s : RecordNode} (hr : r.body.Ordered) (hs : s.body.Ordered)
    (hname : r.body.name = s.body.name)
    (h : Multiset.Rel (MatchField fun p q => order ρ.rank p q = .eq)
      (r.body.fields : Multiset (Tag × Value)) (s.body.fields : Multiset (Tag × Value))) :
    order ρ.rank (.record r) (.record s) = .eq := by
  have hfields := forall₂_of_fields hr hs (fun _ _ h => h.1) h
  have hvalues : List.Forall₂ (fun p q => order ρ.rank p q = .eq) r.body.values s.body.values :=
    List.forall₂_map_left_iff.mpr (List.forall₂_map_right_iff.mpr (hfields.imp fun _ _ h => h.2))
  exact order_eq_of_matches ⟨hname, names_of_forall₂ (fun _ _ h => h.1) hfields, hvalues⟩

theorem returns_record {r : RecordNode} (hr : r.body.Ordered)
    (hE : ∀ p ∈ contents (entriesUnder ρ.rank) (.record r), Returns ρ E E' p) :
    Returns ρ (FormBy ρ.rank content E) (FormBy ρ.rank content' E') (.record r) := by
  rintro c w hc ⟨tr, hw⟩
  cases hc with
  | record hc =>
    obtain ⟨q, t, gs, rfl, ht, hparts, hbody⟩ := decodes_record hw
    obtain rfl : r.body.name = t := Option.some.inj ((tagOf?_eq_some_iff.mpr rfl).symm.trans ht)
    obtain ⟨hmatch, hform⟩ := forall₂_return hc hparts.forall₂ fun f hf c g =>
      return_field (hE _ (mem_sortedFields hf))
    have hfields := Record.fields_ofPairs hbody
    have hname : q.body.name = r.body.name := by rw [hfields]
    have hperm : q.body.fields.Perm gs := by
      rw [hfields]
      exact Record.sortBy_perm gs
    constructor
    · have hrel : Multiset.Rel (MatchField fun p q => order ρ.rank p q = .eq)
          (r.body.fields : Multiset (Tag × Value)) (q.body.fields : Multiset (Tag × Value)) := by
        rw [← Multiset.coe_eq_coe.mpr (sortedFields_perm r), Multiset.coe_eq_coe.mpr hperm]
        exact rel_of_forall₂ hmatch
      exact order_eq_of_fields hr (Record.ordered_ofPairs hbody) hname.symm hrel
    · have hlt := pairwise_lt_of_forall₂ (fun _ _ => compareFields_eq) hmatch
        (pairwise_lt_sortedFields hr)
      have hsorted : sortedFields q = gs := by
        rw [sortedFields, sortBy_eq_sorted]
        exact sorted_eq_of_perm .four hperm hlt
      rw [← hname]
      exact .record (hsorted ▸ hform)

/-- A value comes back if what it holds does. -/
theorem returns_formBy (hv : WellFormed ρ v) (he : isEncodable v = true)
    (hd : v.Throughout (entriesUnder ρ.rank) fun p => p.isDefinite = true)
    (hE : ∀ p ∈ v.contents (entriesUnder ρ.rank), Returns ρ E E' p) :
    Returns ρ (FormBy ρ.rank content E) (FormBy ρ.rank content' E') v := by
  cases v with
  | list l => exact returns_list hE
  | map x => exact returns_map hv hd hE
  | set s => exact returns_set hv hd hE
  | record r => exact returns_record hv.here hE
  | tuple t => exact returns_tuple hE
  | recur r => cases he
  | _ =>
    rintro c w hc ⟨tr, hw⟩
    obtain ⟨rfl, -, hform⟩ := hc.scalar rfl he hw
    exact ⟨ReflCmp.compare_self, hform⟩

/-- Values that the order does not tell apart are encodable together. -/
theorem isEncodable_of_order_eq (h : order ρ.rank v w = .eq) (hv : isEncodable v = true) :
    isEncodable w = true := by
  rw [order_def] at h
  have hk := kind_eq_of_compareBy_eq h
  cases v <;> cases w <;> first | (cases hk; done) | exact hv | skip
  case number.number m n =>
    rcases Number.place_eq_iff.mp (Number.compare_eq_iff.mp h) with rfl | ⟨-, hzero⟩
    · exact hv
    · have hn : n.magnitude = 0 := Number.isZero_iff.mp hzero
      simp [isEncodable, Number.isFinite, hn]

end Step

section Run

variable {ρ : Ranking} {content content' : Ref → Value} {text text' : Value → OptionT Id String}
  {v : Value}

/-- Down to any depth a value comes back from its form, as a value that is encodable again. -/
theorem returns_formAt (hv : WellFormed ρ v) (he : Encodable ρ.rank v) (d : Nat) :
    Returns ρ (fun p i => formAt ρ.rank content text d p = .ok i)
      (fun q i => formAt ρ.rank content' text' d q = .ok i ∧ Encodable ρ.rank q) v := by
  induction d generalizing v with
  | zero =>
    intro c w hc
    cases hc
  | succ d ih =>
    intro c w hc hw
    have hstep : Returns ρ (FormBy ρ.rank content fun p i => formAt ρ.rank content text d p = .ok i)
        (FormBy ρ.rank content' fun q i =>
          formAt ρ.rank content' text' d q = .ok i ∧ Encodable ρ.rank q) v :=
      returns_formBy hv he.here (definite_of_formAt hc) fun p hp =>
        ih (hv.contents p hp) (he.contents p hp)
    obtain ⟨horder, hform⟩ := hstep c w (formAt_succ_iff.mp hc) hw
    refine ⟨horder, formAt_succ_iff.mpr (hform.mono (fun _ _ _ h => h.1) fun _ _ h => h.1), ?_⟩
    refine .intro (isEncodable_of_order_eq horder he.here) fun p hp => ?_
    obtain ⟨i, hi⟩ := hform.contents p hp
    exact hi.2

end Run

end DynVal.Wire
