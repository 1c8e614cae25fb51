import DynVal.Proofs.Store.Moves
import DynVal.Script

/-!
# What scripts do to the store

Where all actions lead along a relation between stores that is reflexive and transitive, so does
every script, whatever functions it calls and however it ends (`Script.moves_exec`).

* `Action.target?`: the actions on one cell. What all others do is said by `Action.Basics`.
-/

namespace DynVal

variable {α : Type} {R : Store → Store → Prop}

open Op

namespace Action

/-- The cell that is set or whose watchers change. -/
def target? : Action → Option Ref
  | .swap r _ | .watch r _ _ | .unwatch r _ => some r
  | _ => none

/-- The steps of actions without a target lead along a relation. -/
structure Basics (R : Store → Store → Prop) : Prop extends Op.Basics R where
  freshPath : Cells.freshPath.Moves R
  define : ∀ path v, (Cells.define path v).Moves R
  log : ∀ s log, R s { s with log := log }
  asked : ∀ s asked, R s { s with host.asked := asked }

variable [IsTrans Store R]

theorem Basics.create (h : Basics R) (v : Value) : (Cells.create v).Moves R :=
  moves_bind h.freshPath fun path => h.define path v

variable [Std.Refl R]

theorem moves_perform (h : Basics R) : ∀ {a : Action}, a.target? = none → a.perform.Moves R
  | .content _, _ => moves_bind moves_get fun _ => moves_pure _
  | .create v, _ => h.create v
  | .define path v, _ => h.define path v
  | .list xs, _ => moves_ofList h.toBasics xs
  | .equal _ _, _ => h.memo _
  | .text v, _ => moves_text h.toBasics v
  | .tables _, _ => moves_bind moves_get fun _ => moves_pure _
  | .native _, _ => moves_bind moves_get fun _ => moves_pure _
  | .note _ _, _ => moves_bind (h.memo _) fun _ _ => h.log _ _
  | .encode v, _ => moves_encode h.toBasics v
  | .decode c, _ => Wire.moves_decode (Wire.makes_of_basics h.toBasics h.create) .strict c
  | .readFile _, _ => fun _ => h.asked _ _
  | .writeFile _ _, _ => fun _ => h.asked _ _
  | .envVar _, _ => fun _ => h.asked _ _
  | .clock, _ => fun _ => h.asked _ _

end Action

namespace Script

variable [Std.Refl R] [IsTrans Store R] {callee : Fn → List Value → Op Value}

theorem moves_exec (hact : ∀ a : Action, a.perform.Moves R)
    (hcall : ∀ f args, (callee f args).Moves R) (script : Script α) :
    (exec callee script).Moves R := by
  induction script with
  | done a => exact moves_pure a
  | halt h => exact moves_throw h
  | act a next ih => exact moves_bind (hact a) ih
  | call f args next ih =>
    intro s
    have hs := hcall f args s
    unfold exec
    match hr : callee f args s with
    | (.ok v, s') => rw [hr] at hs; exact IsTrans.trans _ _ _ hs (ih _ s')
    | (.error (.error e), s') => rw [hr] at hs; exact IsTrans.trans _ _ _ hs (ih _ s')
    | (.error (.exit _), s') => rw [hr] at hs; exact hs
    | (.error .endless, s') => rw [hr] at hs; exact hs

theorem moves_callWithin (hact : ∀ a : Action, a.perform.Moves R) (bodies : Fn → Body)
    (depth : Nat) : ∀ f args, (callWithin bodies depth f args).Moves R := by
  induction depth with
  | zero => exact fun _ _ => moves_throw .endless
  | succ depth ih => exact fun f args => moves_exec hact ih (bodies f args)

end Script

end DynVal
