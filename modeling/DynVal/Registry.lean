import DynVal.Assoc
import DynVal.Buckets
import DynVal.Digest

/-!
# Registries

Which number is registered under a text, if any.
-/

namespace DynVal

structure Registry where
  buckets : Buckets (String × Nat)
deriving Inhabited

namespace Registry

def empty : Registry := ⟨.empty⟩

/-- Where a text is kept. -/
def hash (path : String) : UInt64 := Digest.mixText 0 path

def get? (r : Registry) (path : String) : Option Nat :=
  Assoc.get? (r.buckets.bucket (hash path)) path

def put (r : Registry) (path : String) (i : Nat) : Registry :=
  ⟨r.buckets.put (hash path) (Assoc.put path i (r.buckets.bucket (hash path)))⟩

def erase (r : Registry) (path : String) : Registry :=
  ⟨r.buckets.put (hash path) (Assoc.erase (r.buckets.bucket (hash path)) path)⟩

theorem get?_put (r : Registry) (p q : String) (i : Nat) :
    (r.put p i).get? q = if p = q then some i else r.get? q := by
  simp only [get?, put, Buckets.bucket_put]
  grind [Assoc.get?_put]

theorem get?_erase (r : Registry) (p q : String) :
    (r.erase p).get? q = if p = q then none else r.get? q := by
  simp only [get?, erase, Buckets.bucket_put]
  grind [Assoc.get?_erase]

end Registry
end DynVal
