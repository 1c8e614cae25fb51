import DynVal.Proofs.Lists.Contents
import DynVal.Proofs.Scripts.Moves
import DynVal.World

/-!
# Operations only grow backings

Whatever a program does, backings of lists are added and pushed onto and never change otherwise.

* `grows_perform`: this holds of every action on the store.
* `grows_run`: it holds of every script, whatever functions it calls and however it ends.
-/

namespace DynVal

variable {α : Type}

/-- Backings are only added and pushed onto, whether or not the operation has a result. -/
def Op.Grows (op : Op α) : Prop := op.Moves fun s s' => Sequence.Grows s.backings s'.backings

instance grows_refl : Std.Refl fun s s' : Store => Sequence.Grows s.backings s'.backings :=
  ⟨fun _ => .refl _⟩

instance grows_trans : IsTrans Store fun s s' => Sequence.Grows s.backings s'.backings :=
  ⟨fun _ _ _ h h' => h.trans h'⟩

/-- An operation that leaves the backings as they are. -/
theorem Op.grows_modifyGet {f : Store → α × Store} (h : ∀ s, (f s).2.backings = s.backings) :
    (modifyGet f : Op α).Grows := by
  intro s
  show Sequence.Grows s.backings (f s).2.backings
  rw [h s]
  exact .refl _

open Op

/-! ## Cells -/

theorem grows_swap (r : Ref) (v : Value) : (r.swap v).Grows := by
  refine grows_modifyGet fun s => ?_
  dsimp only
  split <;> rfl

theorem grows_unwatch (r : Ref) (key : Tag) : (r.unwatch key).Grows := by
  refine grows_modifyGet fun s => ?_
  dsimp only
  split <;> rfl

theorem grows_define (path : String) (v : Value) : (Cells.define path v).Grows := by
  refine grows_modifyGet fun s => ?_
  split <;> rfl

/-! ## Scripts -/

theorem Action.basics_grows : Basics fun s s' => Sequence.Grows s.backings s'.backings where
  share _ _ := .refl _
  memo _ _ := .refl _
  backing _ _ := Sequence.grows_ofArray _ _
  freshPath _ := .refl _
  define := grows_define
  log _ _ := .refl _
  asked _ _ := .refl _

theorem grows_perform (a : Action) : a.perform.Grows := by
  cases a with
  | swap r v => exact grows_swap r v
  | watch r key f => exact fun _ => .refl _
  | unwatch r key => exact grows_unwatch r key
  | _ => exact Action.moves_perform Action.basics_grows rfl

theorem grows_run (w : World) (script : Script α) :
    Sequence.Grows w.store.backings (w.run script).2.store.backings :=
  Script.moves_exec grows_perform (Script.moves_callWithin grows_perform _ _) script w.store

end DynVal
