/-!
# Computations that compare

A computation that may ask which of two elements comes before the other, as a tree of questions.
`eval` answers them by a test. `exec` answers them in a monad, where answering may have effects;
the order of the questions is then part of what the computation does, and a statement about all
ways to sort is a statement about all trees.
-/

namespace DynVal

inductive Comparing (α β : Type) where
  | done (b : β)
  | ask (x y : α) (next : Bool → Comparing α β)

namespace Comparing

variable {α β γ : Type}

def bind : Comparing α β → (β → Comparing α γ) → Comparing α γ
  | .done b, k => k b
  | .ask x y next, k => .ask x y fun answer => (next answer).bind k

instance : Monad (Comparing α) where
  pure := .done
  bind := bind

/-- Whether `x` comes before `y`. -/
def less (x y : α) : Comparing α Bool := .ask x y .done

/-- Whether `x` does not come before `y`. -/
def notLess (x y : α) : Comparing α Bool := .ask x y fun answer => .done !answer

def eval (before : α → α → Bool) : Comparing α β → β
  | .done b => b
  | .ask x y next => (next (before x y)).eval before

@[specialize] def exec {m : Type → Type} [Monad m] (before : α → α → m Bool) :
    Comparing α β → m β
  | .done b => pure b
  | .ask x y next => do exec before (next (← before x y))

end Comparing
end DynVal
