/-!
# Tags and symbols

Two kinds of name, told apart by the mark in front of them when they are written: `:tag` and
`'symbol`. Both are ordered by their text.
-/

namespace DynVal

/-- A self-evaluating name. -/
structure Tag where
  name : String
deriving DecidableEq, Inhabited

/-- A quoted name. -/
structure Symbol where
  name : String
deriving DecidableEq, Inhabited

/-- The text after one leading mark, if it is there. -/
def unmarked (mark : Char) (s : String) : String :=
  match s.toList with
  | c :: cs => if c = mark then String.ofList cs else s
  | [] => s

namespace Tag

/-- Reads a tag with or without its mark. -/
def parse (s : String) : Tag := ⟨unmarked ':' s⟩

def text (t : Tag) : String := ":" ++ t.name

def compare (a b : Tag) : Ordering := Ord.compare a.name b.name

end Tag

namespace Symbol

/-- Reads a symbol with or without its mark. -/
def parse (s : String) : Symbol := ⟨unmarked '\'' s⟩

def text (s : Symbol) : String := "'" ++ s.name

def compare (a b : Symbol) : Ordering := Ord.compare a.name b.name

end Symbol
end DynVal
