import DynVal.Proofs.Dispatch.Methods

/-!
# Recorded runs

A script that is carried out leaves a record: the steps on the store, with the store before and
after each, and the calls, with what happened in them and how they ended. The record adds nothing to
the run (`Script.outcome_record`).
-/

namespace DynVal

variable {α : Type}

/-- A step on the store: an action, or something else. -/
structure Step where
  action : Option Action
  before : Store
  after : Store

/-- What happens in a run. -/
inductive Event where
  | step (a : Action) (before after : Store)
  | call (f : Fn) (args : List Value) (inside : List Event) (result : Except Halt Value)

namespace Event

mutual

/-- The steps on the store, those in calls included. -/
def steps : Event → List Step
  | .step a s t => [⟨some a, s, t⟩]
  | .call _ _ inside _ => stepsAll inside

def stepsAll : List Event → List Step
  | [] => []
  | e :: es => steps e ++ stepsAll es

end

end Event

/-- A run with its record. -/
structure Recording (α : Type) where
  result : Except Halt α
  store : Store
  events : List Event

namespace Recording

/-- The run without its record. -/
def outcome (x : Recording α) : Except Halt α × Store := (x.result, x.store)

/-- The steps on the store, those in calls included. -/
def steps (x : Recording α) : List Step := Event.stepsAll x.events

/-- Events that came first. -/
def after (es : List Event) (x : Recording α) : Recording α := { x with events := es ++ x.events }

end Recording

namespace Script

variable {recorder : Fn → List Value → Store → Recording Value}
  {callee : Fn → List Value → Op Value} {s : Store}

/-- Carries a script out and keeps a record, as `recorder` does for calls. -/
def recordBy (recorder : Fn → List Value → Store → Recording Value) :
    Script α → Store → Recording α
  | .done a, s => ⟨.ok a, s, []⟩
  | .halt h, s => ⟨.error h, s, []⟩
  | .act a next, s =>
    let t := (a.perform s).2
    match (a.perform s).1 with
    | .ok r => (recordBy recorder (next r) t).after [.step a s t]
    | .error h => ⟨.error h, t, [.step a s t]⟩
  | .call f args next, s =>
    let inner := recorder f args s
    let call := Event.call f args inner.events inner.result
    match inner.result with
    | .ok v => (recordBy recorder (next (.ok v)) inner.store).after [call]
    | .error (.error e) => (recordBy recorder (next (.error e)) inner.store).after [call]
    | .error h => ⟨.error h, inner.store, [call]⟩

theorem recordBy_act {a : Action} {next : a.Reply → Script α} {reply : a.Reply}
    (h : (a.perform s).1 = .ok reply) : recordBy recorder (.act a next) s =
      (recordBy recorder (next reply) (a.perform s).2).after [.step a s (a.perform s).2] := by
  rw [recordBy, h]

/-- Calls a function and keeps a record, with calls nested at most to a depth. -/
def recordWithin (bodies : Fn → Body) : Nat → Fn → List Value → Store → Recording Value
  | 0, _, _, s => ⟨.error .endless, s, []⟩
  | d + 1, f, args, s => recordBy (recordWithin bodies d) (bodies f args) s

/-- Carries a script out and keeps a record, with calls nested at most to a depth. -/
def record (bodies : Fn → Body) (depth : Nat) (script : Script α) (s : Store) : Recording α :=
  recordBy (recordWithin bodies depth) script s

/-! ## Runs without their records -/

theorem outcome_recordBy (h : ∀ f args s, (recorder f args s).outcome = callee f args s)
    (script : Script α) (s : Store) : (recordBy recorder script s).outcome =
      exec callee script s := by
  induction script generalizing s with
  | done a => rfl
  | halt h => rfl
  | act a next ih =>
    unfold exec
    cases hr : (a.perform s).1 with
    | ok reply =>
      rw [recordBy_act hr, Op.bind_ok hr, ← ih]
      rfl
    | error e =>
      rw [recordBy, hr, Op.bind_error hr]
      rfl
  | call f args next ih =>
    simp only [recordBy, exec, ← h f args s]
    generalize recorder f args s = inner
    obtain ⟨result, t, es⟩ := inner
    cases result with
    | ok v => exact ih (.ok v) t
    | error h =>
      cases h with
      | error e => exact ih (.error e) t
      | exit code => rfl
      | endless => rfl

theorem outcome_recordWithin (bodies : Fn → Body) (depth : Nat) (f : Fn) (args : List Value)
    (s : Store) : (recordWithin bodies depth f args s).outcome =
      callWithin bodies depth f args s := by
  induction depth generalizing f args s with
  | zero => rfl
  | succ depth ih => exact outcome_recordBy ih (bodies f args) s

theorem outcome_record (bodies : Fn → Body) (depth : Nat) (script : Script α) (s : Store) :
    (record bodies depth script s).outcome = run bodies depth script s :=
  outcome_recordBy (outcome_recordWithin bodies depth) script s

end Script

end DynVal
