import DynVal.Native
import DynVal.Proofs.Scripts.Courses

/-!
# Watchers of cells

Setting a cell calls the functions that watch it at that moment, whatever they do to it, to its
watchers or to other cells (`reset_notifies`).

* `Notified`: functions are called in turn, up to the first that fails.
* `Notified.ok_iff`, `Notified.error_iff`: how that ends.
-/

namespace DynVal

open Script

/-! ## Calls in turn -/

/-- Functions are called in turn with the same arguments, each in the store that the one before
left, up to the first that has no value. -/
inductive Notified (recorder : Fn → List Value → Store → Recording Value) (args : List Value) :
    List Fn → Store → Recording Unit → Prop where
  | done (s : Store) : Notified recorder args [] s ⟨.ok (), s, []⟩
  | ok {f : Fn} {fs : List Fn} {s : Store} {v : Value} {x : Recording Unit}
    (hv : (recorder f args s).result = .ok v)
    (h : Notified recorder args fs (recorder f args s).store x) :
    Notified recorder args (f :: fs) s (x.after [.call f args (recorder f args s).events (.ok v)])
  | error {f : Fn} {fs : List Fn} {s : Store} {e : Halt}
    (he : (recorder f args s).result = .error e) :
    Notified recorder args (f :: fs) s ⟨.error e, (recorder f args s).store,
      [.call f args (recorder f args s).events (.error e)]⟩

/-- The function was called and gave a value. -/
def Event.Succeeds (args : List Value) (f : Fn) (e : Event) : Prop :=
  ∃ inside v, e = .call f args inside (.ok v)

namespace Notified

variable {recorder : Fn → List Value → Store → Recording Value} {args : List Value} {fs : List Fn}
  {s : Store} {x : Recording Unit}

theorem of_notify (recorder : Fn → List Value → Store → Recording Value) (args : List Value)
    (fs : List Fn) (s : Store) :
    Notified recorder args fs s (recordBy recorder (notify args fs) s) := by
  induction fs generalizing s with
  | nil => exact .done s
  | cons f fs ih =>
    change Notified _ _ _ _ (recordBy recorder (.call f args _) s)
    unfold recordBy
    dsimp only
    split
    · rename_i v hv
      rw [hv]
      exact .ok hv (ih _)
    all_goals
      rename_i he
      rw [he]
      exact .error he

/-- There is a result just if all functions gave a value. -/
theorem ok_iff (h : Notified recorder args fs s x) :
    x.result = .ok () ↔ List.Forall₂ (Event.Succeeds args) fs x.events := by
  induction h with
  | done s => exact iff_of_true rfl .nil
  | ok hv h ih =>
    rw [Recording.after, List.singleton_append, List.forall₂_cons, ← ih]
    exact (and_iff_right ⟨_, _, rfl⟩).symm
  | error he =>
    refine iff_of_false (fun h => by cases h) fun h => ?_
    cases h with
    | cons h _ =>
      obtain ⟨inside, v, heq⟩ := h
      cases heq

/-- An error is that of the first function without a value, and those behind it are not called. -/
theorem error_iff {e : Halt} (h : Notified recorder args fs s x) :
    x.result = .error e ↔ ∃ done f rest calls inside, fs = done ++ f :: rest ∧
      x.events = calls ++ [.call f args inside (.error e)] ∧
      List.Forall₂ (Event.Succeeds args) done calls := by
  induction h with
  | done s =>
    refine iff_of_false (fun h => by cases h) ?_
    rintro ⟨done, f, rest, calls, inside, hfs, -⟩
    simp at hfs
  | @ok f fs s v x hv h ih =>
    rw [Recording.after, ih]
    constructor
    · rintro ⟨done, g, rest, calls, inside, rfl, hcalls, hdone⟩
      exact ⟨f :: done, g, rest, _ :: calls, inside, rfl, congrArg _ hcalls,
        .cons ⟨_, _, rfl⟩ hdone⟩
    · rintro ⟨done, g, rest, calls, inside, hfs, hcalls, hdone⟩
      cases hdone with
      | nil => cases hcalls
      | cons hg hdone =>
        cases hfs
        exact ⟨_, g, rest, _, inside, rfl, (List.cons.inj hcalls).2, hdone⟩
  | @error f fs s e' he =>
    constructor
    · rintro ⟨⟩
      exact ⟨[], f, fs, [], _, rfl, rfl, .nil⟩
    · rintro ⟨done, g, rest, calls, inside, hfs, hcalls, hdone⟩
      cases hdone with
      | nil =>
        cases hcalls
        rfl
      | cons hg hdone =>
        obtain ⟨_, _, rfl⟩ := hg
        cases hcalls

end Notified

/-! ## Setting a cell -/

theorem Ref.cell?_swap {s : Store} {r : Ref} {c : Cell} (hr : s.cell? r = some c) (v : Value) :
    (r.swap v s).2.cell? r = some { c with content := v } := by
  have hstore : (r.swap v s).2 = s.modifyCell r (Action.swap r v).change :=
    Action.store_of_target (a := .swap r v) rfl
  rw [hstore, Store.cell?_modifyCell, if_pos rfl, hr]
  rfl

namespace Script

variable {recorder : Fn → List Value → Store → Recording Value}
  {callee : Fn → List Value → Op Value} {s : Store} {r : Ref} {c : Cell} {v : Value}

/-- The value is stored first, and then the watchers that were found are called. -/
theorem recordBy_reset (hr : s.cell? r = some c) : recordBy recorder (reset r v) s =
    (recordBy recorder (notify [v, c.content] (c.watchers.map (·.2))) (r.swap v s).2).after
      [.step (.swap r v) s (r.swap v s).2] := by
  have hswap : (r.swap v s).1 = .ok (c.content, c.watchers.map (·.2)) := by
    unfold Ref.swap
    rw [Op.modifyGet_run, hr]
  exact recordBy_act (a := .swap r v) hswap

theorem exec_native_reset : exec callee (Native.reset [.ref r, v]) s =
    ((exec callee (reset r v) s).1.map fun _ => v, (exec callee (reset r v) s).2) := by
  change exec callee (reset r v >>= fun _ => pure v) s = _
  rw [exec_bind]
  cases h : (exec callee (reset r v) s).1 with
  | ok u =>
    rw [Op.bind_ok h]
    rfl
  | error e =>
    rw [Op.bind_error h]
    rfl

end Script

/-- A cell is set in a state that any steps led to, be it from within a call of a watcher. The value
is stored first. Then the functions that watched the cell at that moment are called, in the order of
their registration, with this value and the one that was stored last before, until one of them
fails. The value stays stored. -/
theorem reset_notifies {host : Host} {s : Store} {past : List Step} {r : Ref} {c : Cell}
    (h : Course (.initial host) past s) (hr : s.cell? r = some c) (bodies : Fn → Body) (depth : Nat)
    (v : Value) :
    let x := record bodies depth (reset r v) s
    let stored := (r.swap v s).2
    let old := c.content
    let fs := c.watchers.map (·.2)
    -- what is run, and what the native procedure comes to
    x.outcome = run bodies depth (reset r v) s ∧
    run bodies depth (Native.reset [.ref r, v]) s = (x.result.map fun _ => v, x.store) ∧
    -- all steps in between find a state that steps led to
    (∀ before p after, x.steps = before ++ p :: after →
      Course (.initial host) (past ++ before) p.before) ∧
    -- the old value and the watchers come from the steps since the cell was made
    (∃ earlier made since initial, past = earlier ++ made :: since ∧ made.Makes r initial ∧
      old = (Step.lastStored? r since).getD initial ∧
      c.watchers = Step.registered r [] since ∧ (c.watchers.map (·.1)).Nodup) ∧
    ∃ calls, x.events = .step (.swap r v) s stored :: calls ∧
      -- the value is stored first, and only what is stored later takes its place
      stored.cell? r = some { c with content := v } ∧
      (∃ d, x.store.cell? r = some d ∧
        d.content = (Step.lastStored? r (Event.stepsAll calls)).getD v) ∧
      -- then the watchers are called
      Notified (recordWithin bodies depth) [v, old] fs stored ⟨x.result, x.store, calls⟩ ∧
      (x.result = .ok () ↔ List.Forall₂ (Event.Succeeds [v, old]) fs calls) ∧
      (∀ e, x.result = .error e ↔ ∃ before f rest earlier inside, fs = before ++ f :: rest ∧
        calls = earlier ++ [.call f [v, old] inside (.error e)] ∧
        List.Forall₂ (Event.Succeeds [v, old]) before earlier) := by
  intro x stored old fs
  let recorder := recordWithin bodies depth
  let told := recordBy recorder (notify [v, old] fs) stored
  have hx : x = told.after [.step (.swap r v) s stored] := recordBy_reset hr
  have hrun : x.outcome = run bodies depth (reset r v) s := outcome_record ..
  have hall : Course s x.steps x.store := course_record bodies depth (reset r v) s
  have hstored : stored.cell? r = some { c with content := v } := Ref.cell?_swap hr v
  have hcourse : Course stored told.steps told.store :=
    course_recordBy (course_recordWithin bodies depth) _ stored
  have hnotified : Notified recorder [v, old] fs stored ⟨x.result, x.store, told.events⟩ := by
    rw [hx]
    exact Notified.of_notify recorder [v, old] fs stored
  obtain ⟨earlier, made, since, initial, hpast, hmade, hold, hwatchers⟩ :=
    h.exists_origin (r := r) rfl hr
  refine ⟨hrun, ?_, ?_, ?_, told.events, ?_, hstored, ?_, hnotified, hnotified.ok_iff,
    fun e => hnotified.error_iff⟩
  · rw [run, exec_native_reset, ← run, ← hrun]
    rfl
  · intro before p after hsteps
    rw [hsteps] at hall
    exact h.trans hall.before
  · refine ⟨earlier, made, since, initial, hpast, hmade, hold, hwatchers, ?_⟩
    rw [hwatchers]
    exact @Step.nodup_registered r [] List.nodup_nil since
  · rw [hx]
    rfl
  · rw [hx]
    exact ⟨_, hcourse.cell? hstored, rfl⟩

/-- Of two watchers the first takes the second away and sets the cell again. The second is called
all the same, and refuses. -/
theorem reset_notifies_reentrant :
    let r : Ref := ⟨0, countedPath 0⟩
    let f : Fn := ⟨0, "f"⟩
    let g : Fn := ⟨1, "g"⟩
    let again : Body
      | [.nil, _] => pure .nil
      | _ => do
        let _ ← request (.unwatch r ⟨"g"⟩)
        reset r .nil
        return .nil
    let bodies (h : Fn) : Body := if h = f then again else fun _ => Script.fail (.native "refused")
    let created : Action := .create (.bool false)
    let s₀ := Store.initial default
    let s₁ := (created.perform s₀).2
    let s₂ := ((Action.watch r ⟨"f"⟩ f).perform s₁).2
    let s := ((Action.watch r ⟨"g"⟩ g).perform s₂).2
    let past : List Step := [⟨some created, s₀, s₁⟩, ⟨some (.watch r ⟨"f"⟩ f), s₁, s₂⟩,
      ⟨some (.watch r ⟨"g"⟩ g), s₂, s⟩]
    let c : Cell := ⟨countedPath 0, .bool false, [(⟨"f"⟩, f), (⟨"g"⟩, g)]⟩
    let x := record bodies 2 (reset r (.bool true)) s
    Course s₀ past s ∧ s.cell? r = some c ∧ x.result = .error (.error (.native "refused")) ∧
      Notified (recordWithin bodies 2) [.bool true, .bool false] [f, g] (r.swap (.bool true) s).2
        ⟨x.result, x.store, x.events.tail⟩ ∧
      x.store.content r = .nil := by
  intro r f g again bodies created s₀ s₁ s₂ s past c x
  have hcreated : s₁.cell? r = some ⟨countedPath 0, .bool false, []⟩ := rfl
  have hwatched : Course s₁ past.tail s := .step (.act _ s₁) (.step (.act _ s₂) (.refl s))
  have hpast : Course s₀ past s := .step (.act created s₀) hwatched
  have hr : s.cell? r = some c := by
    have hws : Step.registered r [] past.tail = c.watchers := by decide +kernel
    rw [hwatched.cell? hcreated, hws]
    rfl
  obtain ⟨-, -, -, -, calls, hevents, -, -, hnotified, -⟩ :=
    reset_notifies hpast hr bodies 2 (.bool true)
  refine ⟨hpast, hr, by decide +kernel +zetaReduce, ?_, by decide +kernel +zetaReduce⟩
  rw [hevents]
  exact hnotified

end DynVal
