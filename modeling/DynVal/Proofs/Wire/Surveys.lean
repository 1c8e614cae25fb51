import DynVal.Proofs.Store.Creating
import DynVal.Proofs.Wire.Grammar

/-!
# What decoding leaves behind

Decoding makes the cell of an `atom` node as soon as its content is decoded, and there is no way
back: the cells that were made before a fault is found stay registered. `Wire.survey` goes through a
tree in the same order without a store, counts these cells and says whether there is a fault.

* `Wire.surveys_decode`: in every store decoding makes as many cells as were counted, and it has a
  result where no fault was found.
* `Wire.decode_registers`: what is registered after decoding, whether or not it has a result.
-/

namespace DynVal

open Op

namespace Wire

/-- How many cells are made, and whether the end is reached. -/
structure Survey where
  cells : Nat
  whole : Bool

namespace Survey

/-- Nothing is made, and it may be that one does not go on. -/
def check (b : Bool) : Survey := ⟨0, b⟩

/-- One cell. -/
def cell : Survey := ⟨1, true⟩

/-- One after the other, if the end of the first is reached. -/
def andThen (a b : Survey) : Survey := if a.whole then ⟨a.cells + b.cells, b.whole⟩ else a

@[simp] theorem andThen_check_true (a : Survey) : a.andThen (check true) = a := by
  obtain ⟨cells, whole⟩ := a
  cases whole <;> rfl

end Survey

/-- The field that an entry of a record names. -/
def fieldOf? : Cirru → Option Tag
  | .list (k :: _) => tagOf? k
  | _ => none

mutual

/-- The cells that decoding a tree makes, up to the first fault. -/
def survey (mode : Mode) : Cirru → Survey
  | .leaf s => .check (decodeLeaf mode s).isOk
  | .list (.leaf "[]" :: cs) => surveyAll mode cs
  | .list (.leaf "#\x7b\x7d" :: cs) => surveyAll mode cs
  | .list (.leaf "\x7b\x7d" :: cs) => surveyPairs mode cs
  | .list (.leaf "%\x7b\x7d" :: name :: cs) =>
    (Survey.check (tagOf? name).isSome).andThen <| (surveyFields mode cs).andThen <|
      .check (cs.filterMap fieldOf?).Nodup
  | .list (.leaf "::" :: head :: cs) => (survey mode head).andThen (surveyAll mode cs)
  | .list [.leaf "quote", _] => .check true
  | .list [.leaf "atom", c] => (survey mode c).andThen .cell
  | .list [.leaf "do", c] => survey mode c
  | .list _ => .check false
termination_by structural c => c

def surveyAll (mode : Mode) : List Cirru → Survey
  | [] => .check true
  | c :: cs => (survey mode c).andThen (surveyAll mode cs)
termination_by structural cs => cs

/-- Entries of a map. -/
def surveyPairs (mode : Mode) : List Cirru → Survey
  | [] => .check true
  | .list [k, v] :: cs =>
    (survey mode k).andThen <| (survey mode v).andThen <| surveyPairs mode cs
  | _ :: _ => .check false
termination_by structural cs => cs

/-- Entries of a record. -/
def surveyFields (mode : Mode) : List Cirru → Survey
  | [] => .check true
  | .list [k, v] :: cs =>
    (Survey.check (tagOf? k).isSome).andThen <| (survey mode v).andThen <| surveyFields mode cs
  | _ :: _ => .check false
termination_by structural cs => cs

end

end Wire

/-! ## Operations and what they create -/

namespace Op

variable {α β : Type} {P : α → Prop} {Q : β → Prop} {σ τ : Wire.Survey}

/-- In any store the operation makes as many cells as are surveyed. It has such a result if the end
is reached, and fails otherwise. -/
def Surveys (op : Op α) (σ : Wire.Survey) (P : α → Prop) : Prop :=
  ∀ s, ∃ made, s.Creates made (op s).2 ∧ made.length = σ.cells ∧
    (∀ a, (op s).1 = .ok a → σ.whole = true ∧ P a) ∧ ∀ h, (op s).1 = .error h → σ.whole = false

/-- What makes no cells is surveyed by how it ends. -/
theorem surveys_of_ends {op : Op α} {b : Bool} (hc : op.CreatesNothing)
    (he : op.Ends (fun a => b = true ∧ P a) fun _ => b = false) : op.Surveys (.check b) P :=
  fun s => ⟨[], hc s, rfl, he s⟩

theorem surveys_pure {a : α} (h : P a) : (pure a : Op α).Surveys (.check true) P :=
  surveys_of_ends (moves_pure a) (ends_pure ⟨rfl, h⟩)

theorem surveys_throw (h : Halt) : (throw h : Op α).Surveys (.check false) P :=
  surveys_of_ends (moves_throw h) (ends_throw rfl)

theorem surveys_bind {op : Op α} {next : α → Op β} (h : op.Surveys σ P)
    (hn : ∀ a, P a → (next a).Surveys τ Q) : (op >>= next).Surveys (σ.andThen τ) Q := by
  intro s
  obtain ⟨made, hmade, hlen, hok, herror⟩ := h s
  cases hr : (op s).1 with
  | ok a =>
    obtain ⟨hwhole, ha⟩ := hok a hr
    obtain ⟨made', hmade', hlen', hends⟩ := hn a ha (op s).2
    rw [bind_ok hr, Wire.Survey.andThen, if_pos hwhole]
    exact ⟨made ++ made', hmade.trans hmade', by rw [List.length_append, hlen, hlen'], hends⟩
  | error e =>
    have hwhole := herror e hr
    rw [bind_error hr, Wire.Survey.andThen, hwhole, if_neg Bool.false_ne_true]
    refine ⟨made, hmade, hlen, fun a ha => (by cases ha), fun _ _ => hwhole⟩

/-- A step that always has a result, after the others. -/
theorem surveys_then {op : Op α} {next : α → Op β} (h : op.Surveys σ P)
    (hn : ∀ a, P a → (next a).Surveys (.check true) Q) : (op >>= next).Surveys σ Q := by
  have hbind := surveys_bind h hn
  rwa [Wire.Survey.andThen_check_true] at hbind

end Op

namespace Wire

variable {mode : Mode}

theorem surveys_made {α : Type} {op : Op α} (hc : op.CreatesNothing) (he : Accepts op) :
    op.Surveys (.check true) fun _ => True :=
  surveys_of_ends hc (he.mono (fun _ _ => ⟨rfl, trivial⟩) fun _ h => h.elim)

theorem surveys_expectTag (node : Cirru) (what : String) (c : Cirru) :
    (expectTag node what c).Surveys (.check (tagOf? c).isSome) fun t => tagOf? c = some t := by
  unfold expectTag
  cases h : tagOf? c with
  | some t => exact surveys_pure rfl
  | none => exact surveys_throw _

theorem surveys_create (v : Value) : (Cells.create v).Surveys .cell fun _ => True := by
  intro s
  obtain ⟨r, s', hrun, hc⟩ := Cells.creates_create v s
  rw [hrun]
  exact ⟨_, hc, rfl, fun _ _ => ⟨rfl, trivial⟩, fun h hh => by cases hh⟩

theorem surveys_decodeAll {cs : List Cirru}
    (h : ∀ c ∈ cs, (decode mode c).Surveys (survey mode c) fun _ => True) :
    (decodeAll mode cs).Surveys (surveyAll mode cs) fun _ => True := by
  induction cs with
  | nil => exact surveys_pure trivial
  | cons c cs ih =>
    refine surveys_bind (h c (by simp)) fun v _ => ?_
    exact surveys_then (ih fun d hd => h d (by simp [hd])) fun _ _ => surveys_pure trivial

theorem surveys_decodePairs {node : Cirru} {cs : List Cirru}
    (h : ∀ k v, .list [k, v] ∈ cs → (decode mode k).Surveys (survey mode k) (fun _ => True) ∧
      (decode mode v).Surveys (survey mode v) fun _ => True) :
    (decodePairs mode node cs).Surveys (surveyPairs mode cs) fun _ => True := by
  induction cs with
  | nil => exact surveys_pure trivial
  | cons c cs ih =>
    match c with
    | .list [k, v] =>
      obtain ⟨hk, hv⟩ := h k v (by simp)
      refine surveys_bind hk fun _ _ => surveys_bind hv fun _ _ => ?_
      exact surveys_then (ih fun k v hd => h k v (by simp [hd])) fun _ _ => surveys_pure trivial
    | .leaf _ | .list [] | .list [_] | .list (_ :: _ :: _ :: _) => exact surveys_throw _

/-- The fields that were read are those that the entries name. -/
theorem surveys_decodeFields {node : Cirru} {cs : List Cirru}
    (h : ∀ k v, .list [k, v] ∈ cs → (decode mode v).Surveys (survey mode v) fun _ => True) :
    (decodeFields mode node cs).Surveys (surveyFields mode cs)
      fun fs => fs.map Prod.fst = cs.filterMap fieldOf? := by
  induction cs with
  | nil => exact surveys_pure rfl
  | cons c cs ih =>
    match c with
    | .list [k, v] =>
      refine surveys_bind (surveys_expectTag _ _ k) fun t ht => ?_
      refine surveys_bind (h k v (by simp)) fun w _ => ?_
      refine surveys_then (ih fun k v hd => h k v (by simp [hd])) fun fs hfs => surveys_pure ?_
      rw [List.map_cons, hfs,
        List.filterMap_cons_some (show fieldOf? (.list [k, v]) = some t from ht)]
    | .leaf _ | .list [] | .list [_] | .list (_ :: _ :: _ :: _) => exact surveys_throw _

theorem surveys_makeRecord (name : Tag) (fs : List (Tag × Value)) :
    (RecordNode.make name fs).Surveys (.check (fs.map Prod.fst).Nodup) fun _ => True := by
  refine surveys_of_ends (moves_makeRecord basics_createsNothing name fs)
    ((ends_makeRecord name fs).mono ?_ ?_)
  · exact fun _ h => ⟨decide_eq_true (nodup_names_iff.mp h), trivial⟩
  · exact fun _ ⟨_, _, _, h⟩ => decide_eq_false fun hd => h (nodup_names_iff.mpr hd)

theorem survey_of_not_node {c : Cirru} (h : ¬ Node c) : survey mode c = .check false := by
  unfold survey
  split
  · exact absurd (.leaf _) h
  · exact absurd (.list _) h
  · exact absurd (.set _) h
  · exact absurd (.map _) h
  · exact absurd (.record _ _) h
  · exact absurd (.tuple _ _) h
  · exact absurd (.quote _) h
  · exact absurd (.atom _) h
  · exact absurd (.inner _) h
  · rfl

/-- In every store decoding makes the cells that were counted. -/
theorem surveys_decode (c : Cirru) : (decode mode c).Surveys (survey mode c) fun _ => True := by
  induction c using node_induction with
  | leaf s =>
    rw [decode_leaf, survey]
    cases decodeLeaf mode s with
    | ok v => exact surveys_pure trivial
    | error e => exact surveys_throw _
  | list cs ih =>
    rw [decode_list]
    exact surveys_then (surveys_decodeAll ih) fun xs _ =>
      surveys_made (moves_ofList basics_createsNothing xs) (ends_ofList trivial xs)
  | set cs ih =>
    rw [decode_set]
    exact surveys_then (surveys_decodeAll ih) fun xs _ =>
      surveys_made (moves_ofElements basics_createsNothing xs) (ends_ofElements trivial xs)
  | map cs ih =>
    rw [decode_map]
    exact surveys_then (surveys_decodePairs ih) fun ps _ =>
      surveys_made (moves_ofPairs basics_createsNothing ps) (ends_ofPairs trivial ps)
  | record name cs ih =>
    rw [decode_record]
    refine surveys_bind (surveys_expectTag _ _ name) fun t _ => ?_
    refine surveys_bind (surveys_decodeFields ih) fun fs hfs => ?_
    rw [← hfs]
    exact surveys_then (surveys_makeRecord t fs) fun _ _ => surveys_pure trivial
  | tuple head cs ihh ih =>
    rw [decode_tuple]
    refine surveys_bind ihh fun t _ => surveys_then (surveys_decodeAll ih) fun xs _ => ?_
    exact surveys_made (moves_ofTuple basics_createsNothing t xs []) (ends_ofTuple trivial t xs)
  | quote c =>
    rw [decode_quote]
    exact surveys_pure trivial
  | atom c ih =>
    rw [decode_atom]
    refine surveys_bind ih fun v _ => ?_
    exact surveys_then (surveys_create v) fun _ _ => surveys_pure trivial
  | inner c ih =>
    rw [decode_inner]
    exact ih
  | other c hn =>
    obtain ⟨node, reason, h⟩ := decode_of_not_node hn mode
    rw [h, survey_of_not_node hn]
    exact surveys_throw _

/-- What is registered after decoding, whether or not it has a result. -/
theorem decode_registers (mode : Mode) (c : Cirru) (s : Store) :
    ∃ r s', decode mode c s = (r, s') ∧
      -- it has a result unless there is a fault
      ((∃ v, r = .ok v) ↔ (survey mode c).whole = true) ∧
      -- nothing that was there is changed
      (∀ (i : Nat) (cell : Cell), s.cells[i]? = some cell → s'.cells[i]? = some cell) ∧
      (∀ path q, s.refAt? path = some q → s'.refAt? path = some q) ∧
      -- of the paths that were free, those that were counted are taken
      s'.paths = s.paths + (survey mode c).cells ∧
      (∀ path, s.refAt? path = none → ((s'.refAt? path).isSome ↔
        ∃ i, i < (survey mode c).cells ∧ path = countedPath (s.paths + i))) ∧
      -- nothing new is registered only if they were all taken before
      ((∀ path, s'.refAt? path = s.refAt? path) ↔
        ∀ i, i < (survey mode c).cells → (s.refAt? (countedPath (s.paths + i))).isSome) := by
  obtain ⟨made, hmade, hlen, hok, herror⟩ := @surveys_decode mode c s
  have hcounted := hmade.counted
  rw [hlen] at hcounted
  refine ⟨_, _, rfl, ⟨fun ⟨v, hv⟩ => (hok v hv).1, fun hwhole => ?_⟩, hmade.cells, hmade.registered,
    hlen ▸ hmade.paths, hcounted, fun hsame i hi => ?_, fun htaken path => ?_⟩
  · cases hr : (decode mode c s).1 with
    | ok v => exact ⟨v, rfl⟩
    | error h =>
      rw [herror h hr] at hwhole
      cases hwhole
  · by_contra hnone
    have hfree := Option.not_isSome_iff_eq_none.mp hnone
    have htaken := (hcounted _ hfree).mpr ⟨i, hi, rfl⟩
    rw [hsame, hfree] at htaken
    cases htaken
  · cases hs : s.refAt? path with
    | some q => exact hmade.registered path q hs
    | none =>
      rw [← Option.not_isSome_iff_eq_none, hcounted path hs]
      rintro ⟨i, hi, rfl⟩
      have := htaken i hi
      rw [hs] at this
      cases this

/-- An item that cannot be decoded is found after the cell of the `atom` node before it was made. -/
theorem decode_registers_refused :
    let c : Cirru := .list [.leaf "[]", .list [.leaf "atom", .leaf "nil"], .leaf "bad"]
    ∃ e s', decode .strict c (.initial default) = (.error (.error e), s') ∧
      (Store.initial default).refAt? "ref:0" = none ∧ s'.refAt? "ref:0" = some ⟨0, "ref:0"⟩ :=
  ⟨_, _, rfl, rfl, rfl⟩

/-! ## `atom` nodes -/

mutual

/-- The `atom` nodes of a tree that do not lie in quotes. -/
def atoms : Cirru → Nat
  | .leaf _ => 0
  | .list cs =>
    if cs.head? = some (.leaf "quote") then 0
    else if cs.head? = some (.leaf "atom") then atomsAll cs + 1
    else atomsAll cs
termination_by structural c => c

def atomsAll : List Cirru → Nat
  | [] => 0
  | c :: cs => atoms c + atomsAll cs
termination_by structural cs => cs

end

theorem atoms_list {c : Cirru} (cs : List Cirru) (hq : c ≠ .leaf "quote") (ha : c ≠ .leaf "atom") :
    atoms (.list (c :: cs)) = atoms c + atomsAll cs := by
  rw [atoms, List.head?_cons, if_neg (mt Option.some.inj hq), if_neg (mt Option.some.inj ha),
    atomsAll]

theorem atoms_marker {marker : String} (cs : List Cirru) (hq : marker ≠ "quote")
    (ha : marker ≠ "atom") : atoms (.list (.leaf marker :: cs)) = atomsAll cs := by
  rw [atoms_list cs (mt Cirru.leaf.inj hq) (mt Cirru.leaf.inj ha)]
  exact Nat.zero_add _

theorem atoms_of_tagOf? {c : Cirru} (h : (tagOf? c).isSome = true) : atoms c = 0 := by
  cases c with
  | leaf s => rfl
  | list cs => cases h

/-- A field is counted by its value. -/
theorem atoms_field {k v : Cirru} (h : (tagOf? k).isSome = true) :
    atoms (.list [k, v]) = atoms v := by
  have hpair : atoms (.list [k, v]) = atoms k + atoms v := by
    refine atoms_list [v] ?_ ?_ <;>
    · rintro rfl
      cases h
  rw [hpair, atoms_of_tagOf? h, Nat.zero_add]

end Wire
end DynVal
