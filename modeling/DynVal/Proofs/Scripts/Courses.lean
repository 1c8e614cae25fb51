import DynVal.Proofs.Scripts.Moves
import DynVal.Proofs.Scripts.Recording
import DynVal.Proofs.Store.Creating

/-!
# Cells in the course of a program

A cell changes where a value is stored in it and where watchers are added to it or taken away.
Whatever else is done leaves it alone, so what it holds can be read off the steps since it was made.

* `Course`: stores with the steps between them.
* `Course.cell?`: a cell holds the value that was stored last, and its watchers are those that were
  registered in the meantime.
* `Course.exists_origin`: a cell that was not there at first was made by one of the steps.
* `Script.course_record`: the steps of a run, those in calls included, lead from the store that it
  found to the one that it left.
-/

namespace DynVal

open Op

/-! ## Cells that stay as they are -/

/-- Cells are only added, and nobody watches the new ones. -/
structure Store.Adds (s s' : Store) : Prop where
  kept : ∀ r c, s.cell? r = some c → s'.cell? r = some c
  unwatched : ∀ r c, s.cell? r = none → s'.cell? r = some c → c.watchers = []

namespace Store

variable {s s' s'' : Store} {r q : Ref} {c : Cell}

namespace Adds

theorem of_eq (h : s'.cells = s.cells) : s.Adds s' where
  kept r c hc := by rwa [cell?, h]
  unwatched r c hnone hc := by
    rw [cell?, h, ← cell?, hnone] at hc
    cases hc

theorem trans (h : s.Adds s') (h' : s'.Adds s'') : s.Adds s'' where
  kept r c hc := h'.kept r c (h.kept r c hc)
  unwatched r c hnone hc := by
    cases hs' : s'.cell? r with
    | none => exact h'.unwatched r c hs' hc
    | some d =>
      rw [h'.kept r d hs'] at hc
      cases hc
      exact h.unwatched r _ hnone hs'

end Adds

theorem cell?_modifyCell (f : Cell → Cell) :
    (s.modifyCell q f).cell? r = if q.cell = r.cell then (s.cell? r).map f else s.cell? r :=
  Array.getElem?_modify

theorem cell?_addCell_of_some (h : s.cell? r = some c) (d : Cell) :
    (s.addCell d).cell? r = some c := by
  obtain ⟨hlt, heq⟩ := Array.getElem?_eq_some_iff.mp h
  exact (Array.getElem?_push_lt hlt).trans (congrArg some heq)

theorem eq_of_cell?_addCell {d : Cell} (hnone : s.cell? r = none)
    (h : (s.addCell d).cell? r = some c) : c = d := by
  have hle : s.cells.size ≤ r.cell := Array.getElem?_eq_none_iff.mp hnone
  obtain ⟨hlt, heq⟩ := Array.getElem?_eq_some_iff.mp h
  have hlast : r.cell = s.cells.size := by
    have hsize : (s.addCell d).cells.size = s.cells.size + 1 := Array.size_push d
    omega
  simpa only [addCell, hlast, Array.getElem_push_eq] using heq.symm

end Store

instance refl_adds : Std.Refl Store.Adds := ⟨fun _ => .of_eq rfl⟩

instance trans_adds : IsTrans Store Store.Adds := ⟨fun _ _ _ => .trans⟩

namespace Cells

variable {s : Store} {r : Ref} {c : Cell} {path : String} {v : Value}

theorem eq_of_cell?_define (hnone : s.cell? r = none)
    (h : (define path v s).2.cell? r = some c) : c = ⟨path, v, []⟩ := by
  cases href : s.refAt? path with
  | some q =>
    rw [define_registered href, hnone] at h
    cases h
  | none =>
    rw [define_unregistered href] at h
    exact Store.eq_of_cell?_addCell hnone h

theorem adds_define (path : String) (v : Value) : (define path v).Moves Store.Adds := by
  intro s
  refine ⟨fun r c hc => ?_, fun r c hnone hc => ?_⟩
  · cases href : s.refAt? path with
    | some q => rwa [define_registered href]
    | none =>
      rw [define_unregistered href]
      exact Store.cell?_addCell_of_some hc _
  · rw [eq_of_cell?_define hnone hc]

end Cells

namespace Action

/-- The value of a cell that is made. -/
def initial? : Action → Option Value
  | .create v | .define _ v => some v
  | _ => none

/-- What becomes of the cell that is the target. -/
def change : Action → Cell → Cell
  | .swap _ v, c => { c with content := v }
  | .watch _ key f, c => { c with watchers := Assoc.put key f c.watchers }
  | .unwatch _ key, c => { c with watchers := Assoc.erase c.watchers key }
  | _, c => c

theorem store_of_target {a : Action} {q : Ref} {s : Store} (h : a.target? = some q) :
    (a.perform s).2 = s.modifyCell q a.change := by
  cases a with
  | swap r v =>
    cases h
    change (q.swap v s).2 = _
    rw [Ref.swap, modifyGet_run]
    dsimp only
    split <;> rfl
  | watch r key f =>
    cases h
    rfl
  | unwatch r key =>
    cases h
    change (q.unwatch key s).2 = _
    rw [Ref.unwatch, modifyGet_run]
    dsimp only
    split <;> rfl
  | _ => cases h

theorem basics_adds : Basics Store.Adds where
  share _ _ := .of_eq rfl
  memo _ _ := .of_eq rfl
  backing _ _ := .of_eq rfl
  freshPath _ := .of_eq rfl
  define := Cells.adds_define
  log _ _ := .of_eq rfl
  asked _ _ := .of_eq rfl

end Action

/-! ## Steps -/

namespace Step

/-- A step that a program can take. -/
inductive Taken : Step → Prop where
  | act (a : Action) (s : Store) : Taken ⟨some a, s, (a.perform s).2⟩
  | elsewhere {s s' : Store} (h : s.Adds s') : Taken ⟨none, s, s'⟩

/-- The value that is stored in a cell. -/
def stored? (r : Ref) : Step → Option Value
  | ⟨some (.swap q v), _, _⟩ => if q.cell = r.cell then some v else none
  | _ => none

/-- The watchers of a cell after the step. -/
def register (r : Ref) (ws : List (Tag × Fn)) : Step → List (Tag × Fn)
  | ⟨some (.watch q key f), _, _⟩ => if q.cell = r.cell then Assoc.put key f ws else ws
  | ⟨some (.unwatch q key), _, _⟩ => if q.cell = r.cell then Assoc.erase ws key else ws
  | _ => ws

/-- The step makes a cell, with its initial value and without watchers. -/
structure Makes (r : Ref) (p : Step) (initial : Value) : Prop where
  absent : p.before.cell? r = none
  present : ∃ path, p.after.cell? r = some ⟨path, initial, []⟩
  given : ∀ a v, p.action = some a → a.initial? = some v → initial = v

namespace Taken

variable {p : Step} {r : Ref} {c : Cell}

/-- Just what is stored in the cell and done to its watchers changes it. -/
theorem cell? (hp : p.Taken) (h : p.before.cell? r = some c) : p.after.cell? r =
    some { c with
      content := (p.stored? r).getD c.content, watchers := p.register r c.watchers } := by
  cases hp with
  | elsewhere hadds => exact hadds.kept r c h
  | act a s =>
    cases a with
    | swap q v | watch q key f | unwatch q key =>
      rw [Action.store_of_target rfl, Store.cell?_modifyCell, h]
      simp only [stored?, register]
      split <;> rfl
    | _ => exact (Action.moves_perform Action.basics_adds rfl s).kept r c h

/-- Where there was no cell, a new one has no watchers and the value that it was made with. -/
theorem makes (hp : p.Taken) (hnone : p.before.cell? r = none) (h : p.after.cell? r = some c) :
    p.Makes r c.content := by
  cases hp with
  | elsewhere hadds =>
    refine ⟨hnone, ⟨c.path, by rw [h, ← hadds.unwatched r c hnone h]⟩, fun a v ha => ?_⟩
    cases ha
  | act a s =>
    cases htarget : a.target? with
    | some q =>
      rw [Action.store_of_target htarget, Store.cell?_modifyCell, hnone] at h
      split at h <;> cases h
    | none =>
      have hadds := Action.moves_perform Action.basics_adds htarget s
      refine ⟨hnone, ⟨c.path, by rw [h, ← hadds.unwatched r c hnone h]⟩, ?_⟩
      rintro _ v ⟨⟩ hv
      cases a with
      | create w =>
        cases hv
        rw [Cells.eq_of_cell?_define (s := (Cells.freshPath s).2) hnone h]
      | define path w =>
        cases hv
        rw [Cells.eq_of_cell?_define hnone h]
      | _ => cases hv

end Taken
end Step

/-! ## Keys of watchers -/

namespace Assoc

variable {κ ν : Type} [BEq κ] {es : List (κ × ν)}

theorem map_fst_put (k : κ) (v : ν) : (put k v es).map (·.1) =
    if contains es k then es.map (·.1) else es.map (·.1) ++ [k] := by
  induction es with
  | nil => rfl
  | cons e es ih => grind [put, contains]

theorem nodup_put [LawfulBEq κ] (h : (es.map (·.1)).Nodup) (k : κ) (v : ν) :
    ((put k v es).map (·.1)).Nodup := by
  rw [map_fst_put]
  split
  · exact h
  · rename_i hk
    refine List.nodup_append.mpr ⟨h, List.nodup_singleton k, ?_⟩
    simp only [contains, List.any_eq_true, not_exists, not_and, beq_iff_eq] at hk
    grind

theorem nodup_erase (h : (es.map (·.1)).Nodup) (k : κ) : ((erase es k).map (·.1)).Nodup :=
  h.sublist (List.filter_sublist.map _)

end Assoc

namespace Step

/-- The watchers of a cell after a number of steps. -/
def registered (r : Ref) (ws : List (Tag × Fn)) (ps : List Step) : List (Tag × Fn) :=
  ps.foldl (register r) ws

variable {r : Ref} {ws : List (Tag × Fn)}

theorem nodup_register (h : (ws.map (·.1)).Nodup) (p : Step) :
    ((p.register r ws).map (·.1)).Nodup := by
  unfold register
  split
  · split
    · exact Assoc.nodup_put h _ _
    · exact h
  · split
    · exact Assoc.nodup_erase h _
    · exact h
  · exact h

/-- A key has one place among the watchers. -/
theorem nodup_registered (h : (ws.map (·.1)).Nodup) (ps : List Step) :
    ((registered r ws ps).map (·.1)).Nodup := by
  induction ps generalizing ws with
  | nil => exact h
  | cons p ps ih => exact ih (nodup_register h p)

end Step

/-! ## Courses -/

/-- Steps that lead from one store to another. -/
inductive Course : Store → List Step → Store → Prop where
  | refl (s : Store) : Course s [] s
  | step {p : Step} {ps : List Step} {t : Store} (hp : p.Taken) (h : Course p.after ps t) :
    Course p.before (p :: ps) t

/-- The value that was stored last in a cell. -/
def Step.lastStored? (r : Ref) (ps : List Step) : Option Value :=
  (ps.filterMap (stored? r)).getLast?

theorem Step.lastStored?_cons (r : Ref) (p : Step) (ps : List Step) :
    lastStored? r (p :: ps) = (lastStored? r ps).or (p.stored? r) := by
  simp only [lastStored?, List.filterMap_cons]
  cases p.stored? r with
  | none => simp
  | some v => simp [List.getLast?_cons]

namespace Course

variable {s t u : Store} {ps qs : List Step} {r : Ref} {c : Cell}

theorem act (a : Action) (s : Store) : Course s [⟨some a, s, (a.perform s).2⟩] (a.perform s).2 :=
  .step (.act a s) (.refl _)

theorem trans (h : Course s ps t) (h' : Course t qs u) : Course s (ps ++ qs) u := by
  induction h with
  | refl s => exact h'
  | step hp h ih => exact .step hp (ih h')

/-- A step of a course finds a store that the steps before it led to. -/
theorem before {p : Step} (h : Course s (ps ++ p :: qs) u) : Course s ps p.before := by
  induction ps generalizing s with
  | nil =>
    cases h
    exact .refl _
  | cons q ps ih =>
    cases h with
    | step hq h => exact .step hq (ih h)

theorem cell? (h : Course s ps t) (hc : s.cell? r = some c) : t.cell? r =
    some { c with
      content := (Step.lastStored? r ps).getD c.content
      watchers := Step.registered r c.watchers ps } := by
  induction h generalizing c with
  | refl s => exact hc
  | @step p ps t hp h ih =>
    rw [ih (hp.cell? hc), Step.lastStored?_cons, Option.getD_or]
    rfl

/-- A cell that was not there at first was made by one of the steps. Since then it was changed by
what was stored in it and by what was done to its watchers. -/
theorem exists_origin (h : Course s ps t) (hnone : s.cell? r = none) (hc : t.cell? r = some c) :
    ∃ earlier made since initial, ps = earlier ++ made :: since ∧ made.Makes r initial ∧
      c.content = (Step.lastStored? r since).getD initial ∧
      c.watchers = Step.registered r [] since := by
  induction h with
  | refl s =>
    rw [hnone] at hc
    cases hc
  | @step p ps t hp h ih =>
    cases hnew : p.after.cell? r with
    | none =>
      obtain ⟨earlier, made, since, initial, rfl, hmade, hcell⟩ := ih hnew hc
      exact ⟨p :: earlier, made, since, initial, rfl, hmade, hcell⟩
    | some d =>
      have hmakes := hp.makes hnone hnew
      obtain ⟨path, hd⟩ := hmakes.present
      rw [h.cell? hd] at hc
      cases hc
      exact ⟨[], p, ps, d.content, rfl, hmakes, rfl, rfl⟩

end Course

/-! ## Recorded runs -/

namespace Script

variable {α : Type} {recorder : Fn → List Value → Store → Recording Value}

theorem course_recordBy
    (h : ∀ f args s, Course s (recorder f args s).steps (recorder f args s).store)
    (script : Script α) (s : Store) :
    Course s (recordBy recorder script s).steps (recordBy recorder script s).store := by
  induction script generalizing s with
  | done a => exact .refl s
  | halt h => exact .refl s
  | act a next ih =>
    unfold recordBy
    dsimp only
    split
    · exact .step (.act a s) (ih _ _)
    · exact .act a s
  | call f args next ih =>
    unfold recordBy
    dsimp only
    have hinner := h f args s
    split
    · exact hinner.trans (ih _ _)
    · exact hinner.trans (ih _ _)
    · simpa [Recording.steps, Event.stepsAll, Event.steps] using hinner

theorem course_recordWithin (bodies : Fn → Body) (depth : Nat) (f : Fn) (args : List Value)
    (s : Store) : Course s (recordWithin bodies depth f args s).steps
      (recordWithin bodies depth f args s).store := by
  induction depth generalizing f args s with
  | zero => exact .refl s
  | succ depth ih => exact course_recordBy ih (bodies f args) s

theorem course_record (bodies : Fn → Body) (depth : Nat) (script : Script α) (s : Store) :
    Course s (record bodies depth script s).steps (record bodies depth script s).store :=
  course_recordBy (course_recordWithin bodies depth) script s

end Script
end DynVal
