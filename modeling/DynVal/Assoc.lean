/-!
# Association lists

Lists of pairs of a key and a value, for keys that are told apart by a lawful `==`. The first pair
with a key counts.
-/

namespace DynVal.Assoc

variable {κ ν : Type} [BEq κ]

def get? (es : List (κ × ν)) (k : κ) : Option ν := (es.find? fun e => e.1 == k).map (·.2)

def contains (es : List (κ × ν)) (k : κ) : Bool := es.any fun e => e.1 == k

/-- Binds a key, in its old place if it has one and at the end otherwise. -/
def put (k : κ) (v : ν) : List (κ × ν) → List (κ × ν)
  | [] => [(k, v)]
  | e :: es => if e.1 == k then (e.1, v) :: es else e :: put k v es

def erase (es : List (κ × ν)) (k : κ) : List (κ × ν) := es.filter fun e => !(e.1 == k)

theorem get?_put [LawfulBEq κ] (es : List (κ × ν)) (k l : κ) (v : ν) :
    get? (put k v es) l = if k == l then some v else get? es l := by
  induction es with
  | nil => grind [put, get?]
  | cons e es ih => grind [put, get?]

theorem get?_erase [LawfulBEq κ] (es : List (κ × ν)) (k l : κ) :
    get? (erase es k) l = if k == l then none else get? es l := by
  induction es with
  | nil => grind [erase, get?]
  | cons e es ih => grind [erase, get?]

end DynVal.Assoc
