import DynVal.Script

/-!
# Routines

Ready-made functions: constants, projections of the arguments, functions that leave a note in the
log under their name, and functions that act on one given cell.
-/

namespace DynVal

inductive Routine where
  | nil
  | args
  | first
  | inc
  | note
  | const (v : Value)
  | fail (reason : String)
  | native (name : String)
  | invoke (method : String)
  | deref (r : Ref)
  | reset (r : Ref) (v : Value)
  | unwatch (r : Ref) (key : Tag)
  | watch (r : Ref) (key : Tag) (f : Fn)

namespace Routine

/-- One more, for a number. -/
def increment : Value → Value
  | .number n => .number n.succ
  | v => v

/-- The body of a function of that name. -/
def body (name : String) : Routine → Body
  | .nil, _ => pure .nil
  | .args, xs => Script.request (.list xs)
  | .first, xs => pure (xs.headD .nil)
  | .inc, xs => pure (increment (xs.headD .nil))
  | .note, xs => do
    Script.request (.note name xs)
    return .nil
  | .const v, _ => pure v
  | .fail reason, _ => Script.fail (.native reason)
  | .native n, xs => Script.callNative n xs
  | .invoke m, xs =>
    match xs with
    | obj :: rest => Script.invoke obj m rest
    | [] => Script.invoke .nil m []
  | .deref r, _ => do
    let v ← Script.request (.content r)
    Script.request (.note name [v])
    return .nil
  | .reset r v, _ => do
    let old ← Script.request (.content r)
    let same : Bool ← Script.request (.equal old v)
    if same then return .nil
    else
      Script.reset r v
      return .nil
  | .unwatch r key, xs => do
    Script.request (.note name xs)
    let _ ← Script.request (.unwatch r key)
    return .nil
  | .watch r key f, xs => do
    Script.request (.note name xs)
    Script.request (.watch r key f)
    return .nil

end Routine
end DynVal
