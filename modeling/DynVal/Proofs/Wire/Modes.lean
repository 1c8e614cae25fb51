import DynVal.Proofs.Wire.RoundTrip

/-!
# Strict and permissive decoding

Permissive decoding is strict decoding of another tree. Of the leaves that are decoded for a value
those that strict decoding has no use for (`Wire.BareWord`) get the mark of a string
(`Wire.markWords`). Markers, the names and fields of records and whatever is quoted are not decoded
for a value and stay as they are; so do an empty leaf and a number out of range, which both modes
refuse.

* `Wire.agrees_decode`: by induction on the tree, the two leave the same store and have the same
  results.
* `Wire.decode_bareWord`, `Wire.decode_unfit`: the leaves on which the modes differ, and those that
  neither takes.
* `Wire.decode_permissive_iff`: what this says of one run. What strict decoding accepts has no such
  leaf, so it is decoded alike.
-/

namespace DynVal

/-! ## Operations that agree -/

namespace Op

variable {α β : Type} {a b : Op α}

/-- In any store both have the same result, or both have none, and the same store is left. -/
def Agrees (a b : Op α) : Prop :=
  ∀ s, (a s).2 = (b s).2 ∧ ∀ x, (a s).1 = .ok x ↔ (b s).1 = .ok x

theorem agrees_refl (a : Op α) : a.Agrees a := fun _ => ⟨rfl, fun _ => Iff.rfl⟩

/-- Failures need not be the same. -/
theorem agrees_throw (h h' : Halt) : (throw h : Op α).Agrees (throw h') :=
  fun _ => ⟨rfl, fun _ => ⟨nofun, nofun⟩⟩

theorem agrees_bind {next next' : α → Op β} (h : a.Agrees b)
    (hn : ∀ x, (next x).Agrees (next' x)) : (a >>= next).Agrees (b >>= next') := by
  intro s
  obtain ⟨hs, hok⟩ := h s
  cases ha : (a s).1 with
  | ok x =>
    rw [bind_ok ha, bind_ok ((hok x).mp ha), hs]
    exact hn x _
  | error e =>
    cases hb : (b s).1 with
    | ok x =>
      rw [(hok x).mpr hb] at ha
      cases ha
    | error e' =>
      rw [bind_error ha, bind_error hb]
      exact ⟨hs, fun _ => ⟨nofun, nofun⟩⟩

theorem Agrees.run_eq_iff (h : a.Agrees b) (s s' : Store) (x : α) :
    a s = (.ok x, s') ↔ b s = (.ok x, s') := by
  rw [Prod.ext_iff, Prod.ext_iff]
  exact and_congr ((h s).2 x) (by rw [(h s).1])

end Op

namespace Wire

open Op

/-! ## Leaves -/

/-- A leaf that is taken as a string for want of anything else. -/
structure BareWord (s : String) : Prop where
  nonempty : s ≠ ""
  word : s ∉ ["nil", "true", "false"]
  unmarked : ∀ mark ∈ ['|', '\"', ':', '\''], s.toList.head? ≠ some mark
  number : looksNumeric s.toList = true → Number.parse? s.toList = none

theorem bareWord_iff (s : String) : BareWord s ↔ s ≠ "" ∧ s ∉ ["nil", "true", "false"] ∧
    (['|', '\"', ':', '\''].all fun mark => s.toList.head? ≠ some mark) = true ∧
    (looksNumeric s.toList = true → Number.parse? s.toList = none) := by
  simp only [List.all_eq_true, decide_eq_true_eq]
  exact ⟨fun ⟨h₁, h₂, h₃, h₄⟩ => ⟨h₁, h₂, h₃, h₄⟩, fun ⟨h₁, h₂, h₃, h₄⟩ => ⟨h₁, h₂, h₃, h₄⟩⟩

instance (s : String) : Decidable (BareWord s) := decidable_of_iff _ (bareWord_iff s).symm

def markLeaf (s : String) : String := if BareWord s then "|" ++ s else s

theorem decodeLeaf_of_bareWord {s : String} (h : BareWord s) :
    decodeLeaf .permissive s = .ok (.str s) := by
  have hword := h.word
  simp only [List.mem_cons, List.not_mem_nil, or_false, not_or] at hword
  rw [decodeLeaf, if_neg hword.1, if_neg hword.2.1, if_neg hword.2.2]
  have hhead (mark : Char) (cs : List Char) (hs : s.toList = mark :: cs) :
      mark ∉ ['|', '\"', ':', '\''] := fun hm => h.unmarked mark hm (by rw [hs, List.head?_cons])
  split
  · rename_i hs
    exact absurd (String.toList_eq_nil_iff.mp hs) h.nonempty
  · rename_i hs
    exact absurd (by simp) (hhead _ _ hs)
  · rename_i hs
    exact absurd (by simp) (hhead _ _ hs)
  · rename_i hs
    exact absurd (by simp) (hhead _ _ hs)
  · rename_i hs
    exact absurd (by simp) (hhead _ _ hs)
  · have hnone : (if looksNumeric s.toList = true then Number.parse? s.toList else none) =
        none := by
      split
      · exact h.number ‹_›
      · rfl
    rw [decodeBare, hnone]

/-- Other leaves are decoded alike in both modes. -/
theorem decodeLeaf_eq_of_not_bareWord {s : String} (h : ¬ BareWord s) :
    decodeLeaf .permissive s = decodeLeaf .strict s := by
  unfold decodeLeaf
  split
  · rfl
  split
  · rfl
  split
  · rfl
  split
  · rfl
  · rfl
  · rfl
  · rfl
  · rfl
  · rename_i hnil htrue hfalse _ hempty hbar hquote hcolon hmark
    -- what is left over is a number
    have hnumber : ¬(looksNumeric s.toList = true → Number.parse? s.toList = none) := by
      refine fun hn => h ⟨?_, by simp [hnil, htrue, hfalse], ?_, hn⟩
      · exact fun hs => hempty (String.toList_eq_nil_iff.mpr hs)
      · intro mark hm hhead
        obtain ⟨cs, hcs⟩ := List.head?_eq_some_iff.mp hhead
        simp only [List.mem_cons, List.not_mem_nil, or_false] at hm
        rcases hm with rfl | rfl | rfl | rfl
        · exact hbar cs hcs
        · exact hquote cs hcs
        · exact hcolon cs hcs
        · exact hmark cs hcs
    obtain ⟨hlooks, hparse⟩ := Classical.not_imp.mp hnumber
    obtain ⟨n, hn⟩ := Option.ne_none_iff_exists'.mp hparse
    rw [decodeBare, decodeBare, if_pos hlooks, hn]

theorem decodeLeaf_markLeaf (s : String) :
    decodeLeaf .strict (markLeaf s) = decodeLeaf .permissive s := by
  by_cases h : BareWord s
  · rw [markLeaf, if_pos h, decodeLeaf_str, decodeLeaf_of_bareWord h]
  · rw [markLeaf, if_neg h, decodeLeaf_eq_of_not_bareWord h]

/-- A leaf with a form of its own is no bare word. -/
theorem LeafForm.not_bareWord {s : String} (h : LeafForm s) : ¬ BareWord s := by
  intro hb
  cases h with
  | word h => exact hb.word h
  | marked hm h => exact hb.unmarked _ hm (by rw [h, List.head?_cons])
  | number h hp hf =>
    have hnone := hb.number ((looksNumeric_iff _).mpr h)
    rw [hp] at hnone
    cases hnone

theorem decode_leaf_refused {mode : Mode} {s : String} (h : ∀ v, decodeLeaf mode s ≠ .ok v)
    (st : Store) :
    ∃ e : Error, e.IsUndecodable ∧ decode mode (.leaf s) st = (.error (.error e), st) := by
  cases hs : decodeLeaf mode s with
  | ok v => exact absurd hs (h v)
  | error e =>
    refine ⟨e, isUndecodable_of_decodeLeaf hs, ?_⟩
    rw [decode_leaf, hs]
    rfl

/-- A bare word is a string in permissive mode, and is refused in strict mode. -/
theorem decode_bareWord {s : String} (h : BareWord s) (st : Store) :
    decode .permissive (.leaf s) st = (.ok (.str s), st) ∧
      ∃ e : Error, e.IsUndecodable ∧ decode .strict (.leaf s) st = (.error (.error e), st) := by
  constructor
  · rw [decode_leaf, decodeLeaf_of_bareWord h]
    rfl
  · refine decode_leaf_refused (fun v hv => ?_) st
    have hform : LeafForm s := (decodeLeaf_ok_iff s).mp ⟨v, hv⟩
    exact hform.not_bareWord h

example : BareWord "b" := by decide +kernel

/-- Neither mode takes a leaf that has no form of its own and is no bare word. -/
theorem decode_unfit {s : String} (hform : ¬ LeafForm s) (hbare : ¬ BareWord s) (mode : Mode)
    (st : Store) :
    ∃ e : Error, e.IsUndecodable ∧ decode mode (.leaf s) st = (.error (.error e), st) := by
  have hstrict (v : Value) : decodeLeaf .strict s ≠ .ok v := fun hv =>
    hform ((decodeLeaf_ok_iff s).mp ⟨v, hv⟩)
  cases mode with
  | strict => exact decode_leaf_refused hstrict st
  | permissive =>
    refine decode_leaf_refused (fun v => ?_) st
    rw [decodeLeaf_eq_of_not_bareWord hbare]
    exact hstrict v

/-- The empty leaf and a number out of range. -/
example : ∀ s ∈ ["", "1e999"], ¬ LeafForm s ∧ ¬ BareWord s := by decide +kernel

/-! ## Trees -/

mutual

/-- The tree with a mark before the bare words that are decoded for a value. -/
def markWords : Cirru → Cirru
  | .leaf s => .leaf (markLeaf s)
  | .list (.leaf "[]" :: cs) => .list (.leaf "[]" :: markAll cs)
  | .list (.leaf "#\x7b\x7d" :: cs) => .list (.leaf "#\x7b\x7d" :: markAll cs)
  | .list (.leaf "\x7b\x7d" :: cs) => .list (.leaf "\x7b\x7d" :: markPairs cs)
  | .list (.leaf "%\x7b\x7d" :: name :: cs) => .list (.leaf "%\x7b\x7d" :: name :: markFields cs)
  | .list (.leaf "::" :: head :: cs) => .list (.leaf "::" :: markWords head :: markAll cs)
  | .list [.leaf "quote", c] => .list [.leaf "quote", c]
  | .list [.leaf "atom", c] => .list [.leaf "atom", markWords c]
  | .list [.leaf "do", c] => .list [.leaf "do", markWords c]
  | .list cs => .list cs
termination_by structural c => c

def markAll : List Cirru → List Cirru
  | [] => []
  | c :: cs => markWords c :: markAll cs
termination_by structural cs => cs

/-- Entries of a map. -/
def markPairs : List Cirru → List Cirru
  | [] => []
  | .list [k, v] :: cs => .list [markWords k, markWords v] :: markPairs cs
  | c :: cs => c :: cs
termination_by structural cs => cs

/-- Entries of a record. -/
def markFields : List Cirru → List Cirru
  | [] => []
  | .list [k, v] :: cs => .list [k, markWords v] :: markFields cs
  | c :: cs => c :: cs
termination_by structural cs => cs

end

theorem markWords_of_not_node {c : Cirru} (h : ¬ Node c) : markWords c = c := by
  unfold markWords
  split
  · exact absurd (.leaf _) h
  · exact absurd (.list _) h
  · exact absurd (.set _) h
  · exact absurd (.map _) h
  · exact absurd (.record _ _) h
  · exact absurd (.tuple _ _) h
  · exact absurd (.quote _) h
  · exact absurd (.atom _) h
  · exact absurd (.inner _) h
  · rfl

/-! ## A grammatical tree has no bare words -/

theorem markAll_eq {cs : List Cirru} (h : ∀ c ∈ cs, markWords c = c) : markAll cs = cs := by
  induction cs with
  | nil => rfl
  | cons c cs ih => rw [markAll, h c (by simp), ih fun d hd => h d (by simp [hd])]

theorem markPairs_eq {es : List (Cirru × Cirru)} (hk : ∀ e ∈ es, markWords e.1 = e.1)
    (hv : ∀ e ∈ es, markWords e.2 = e.2) :
    markPairs (es.map fun e => .list [e.1, e.2]) = es.map fun e => .list [e.1, e.2] := by
  induction es with
  | nil => rfl
  | cons e es ih =>
    rw [List.map_cons, markPairs, hk e (by simp), hv e (by simp),
      ih (fun f hf => hk f (by simp [hf])) fun f hf => hv f (by simp [hf])]

theorem markFields_eq {es : List (String × Cirru)} (hv : ∀ e ∈ es, markWords e.2 = e.2) :
    markFields (es.map fun e => .list [.leaf (":" ++ e.1), e.2]) =
      es.map fun e => .list [.leaf (":" ++ e.1), e.2] := by
  induction es with
  | nil => rfl
  | cons e es ih =>
    rw [List.map_cons, markFields, hv e (by simp), ih fun f hf => hv f (by simp [hf])]

theorem markWords_of_grammatical {c : Cirru} (h : Grammatical c) : markWords c = c := by
  induction h with
  | leaf h => rw [markWords, markLeaf, if_neg h.not_bareWord]
  | list _ ih => rw [markWords, markAll_eq ih]
  | set _ ih => rw [markWords, markAll_eq ih]
  | map _ _ ihk ihv => rw [mapTree, markWords, markPairs_eq ihk ihv]
  | record _ _ ihv => rw [recordTree, markWords, markFields_eq ihv]
  | tuple _ _ iht ih => rw [markWords, iht, markAll_eq ih]
  | quote => rfl
  | atom _ ih => rw [markWords, ih]
  | inner _ ih => rw [markWords, ih]

/-! ## The two modes agree -/

theorem agrees_undecodable {α : Type} (node node' : Cirru) (reason reason' : String) :
    (undecodable node reason : Op α).Agrees (undecodable node' reason') := agrees_throw _ _

theorem agrees_expectTag (node node' : Cirru) (what : String) (c : Cirru) :
    (expectTag node what c).Agrees (expectTag node' what c) := by
  unfold expectTag
  split
  · exact agrees_refl _
  · exact agrees_undecodable _ _ _ _

/-- A tree, and how it is decoded in the two modes. -/
def ModesAgree (c : Cirru) : Prop :=
  (decode .permissive c).Agrees (decode .strict (markWords c))

theorem agrees_decodeAll {cs : List Cirru} (h : ∀ c ∈ cs, ModesAgree c) :
    (decodeAll .permissive cs).Agrees (decodeAll .strict (markAll cs)) := by
  induction cs with
  | nil => exact agrees_refl _
  | cons c cs ih =>
    refine agrees_bind (h c (by simp)) fun v => ?_
    exact agrees_bind (ih fun d hd => h d (by simp [hd])) fun vs => agrees_refl _

theorem agrees_decodePairs {node node' : Cirru} {cs : List Cirru}
    (h : ∀ k v, .list [k, v] ∈ cs → ModesAgree k ∧ ModesAgree v) :
    (decodePairs .permissive node cs).Agrees (decodePairs .strict node' (markPairs cs)) := by
  induction cs with
  | nil => exact agrees_refl _
  | cons c cs ih =>
    match c with
    | .list [k, v] =>
      obtain ⟨hk, hv⟩ := h k v (by simp)
      refine agrees_bind hk fun a => agrees_bind hv fun b => ?_
      exact agrees_bind (ih fun k v hd => h k v (by simp [hd])) fun es => agrees_refl _
    | .leaf _ | .list [] | .list [_] | .list (_ :: _ :: _ :: _) => exact agrees_undecodable _ _ _ _

theorem agrees_decodeFields {node node' : Cirru} {cs : List Cirru}
    (h : ∀ k v, .list [k, v] ∈ cs → ModesAgree v) :
    (decodeFields .permissive node cs).Agrees (decodeFields .strict node' (markFields cs)) := by
  induction cs with
  | nil => exact agrees_refl _
  | cons c cs ih =>
    match c with
    | .list [k, v] =>
      refine agrees_bind (agrees_expectTag _ _ _ k) fun t =>
        agrees_bind (h k v (by simp)) fun b => ?_
      exact agrees_bind (ih fun k v hd => h k v (by simp [hd])) fun fs => agrees_refl _
    | .leaf _ | .list [] | .list [_] | .list (_ :: _ :: _ :: _) => exact agrees_undecodable _ _ _ _

theorem agrees_decode (c : Cirru) : ModesAgree c := by
  unfold ModesAgree
  induction c using node_induction with
  | leaf s =>
    rw [markWords, decode_leaf, decode_leaf, decodeLeaf_markLeaf]
    exact agrees_refl _
  | list cs ih =>
    rw [markWords, decode_list, decode_list]
    exact agrees_bind (agrees_decodeAll ih) fun xs => agrees_refl _
  | set cs ih =>
    rw [markWords, decode_set, decode_set]
    exact agrees_bind (agrees_decodeAll ih) fun xs => agrees_refl _
  | map cs ih =>
    rw [markWords, decode_map, decode_map]
    exact agrees_bind (agrees_decodePairs ih) fun ps => agrees_refl _
  | record name cs ih =>
    rw [markWords, decode_record, decode_record]
    refine agrees_bind (agrees_expectTag _ _ _ name) fun t => ?_
    exact agrees_bind (agrees_decodeFields ih) fun fs => agrees_refl _
  | tuple head cs ihh ih =>
    rw [markWords, decode_tuple, decode_tuple]
    refine agrees_bind ihh fun t => ?_
    exact agrees_bind (agrees_decodeAll ih) fun xs => agrees_refl _
  | quote c =>
    rw [markWords, decode_quote, decode_quote]
    exact agrees_refl _
  | atom c ih =>
    rw [markWords, decode_atom, decode_atom]
    exact agrees_bind ih fun v => agrees_refl _
  | inner c ih =>
    rw [markWords, decode_inner, decode_inner]
    exact ih
  | other c hn =>
    -- such a tree is refused before anything in it is decoded
    obtain ⟨node, reason, h⟩ := decode_of_not_node hn .permissive
    obtain ⟨node', reason', h'⟩ := decode_of_not_node hn .strict
    rw [markWords_of_not_node hn, h, h']
    exact agrees_throw _ _

/-- What strict decoding accepts is decoded alike in both modes. -/
theorem decode_of_strict {mode : Mode} {c : Cirru} {s s' : Store} {v : Value}
    (h : decode .strict c s = (.ok v, s')) : decode mode c s = (.ok v, s') := by
  cases mode with
  | strict => exact h
  | permissive =>
    have hc : Grammatical c := (ends_decode c s).1 v (congrArg Prod.fst h)
    refine ((agrees_decode c).run_eq_iff s s' v).mpr ?_
    rwa [markWords_of_grammatical hc]

/-- In either mode decoding is strict decoding of the marked tree. -/
theorem strict_of_decode {mode : Mode} {c : Cirru} {s s' : Store} {v : Value}
    (h : decode mode c s = (.ok v, s')) : decode .strict (markWords c) s = (.ok v, s') := by
  cases mode with
  | permissive => exact ((agrees_decode c).run_eq_iff s s' v).mp h
  | strict =>
    have hc : Grammatical c := (ends_decode c s).1 v (congrArg Prod.fst h)
    rwa [markWords_of_grammatical hc]

/-- Permissive decoding succeeds, with a value and a store, exactly when strict decoding does once
the bare words have been marked. It leaves the same store where it fails, and decodes like strict
decoding whatever that accepts. -/
theorem decode_permissive_iff (c : Cirru) (s s' : Store) (v : Value) :
    (decode .permissive c s = (.ok v, s') ↔ decode .strict (markWords c) s = (.ok v, s')) ∧
    (decode .permissive c s).2 = (decode .strict (markWords c) s).2 ∧
    (decode .strict c s = (.ok v, s') → decode .permissive c s = (.ok v, s')) :=
  ⟨(agrees_decode c).run_eq_iff s s' v, (agrees_decode c s).1, decode_of_strict⟩

/-- Only the content of a field is decoded for a value. -/
example : markWords (.list [.leaf "%\x7b\x7d", .leaf ":p", .list [.leaf ":x", .leaf "y"]]) =
    .list [.leaf "%\x7b\x7d", .leaf ":p", .list [.leaf ":x", .leaf "|y"]] := by
  decide +kernel

end Wire
end DynVal
