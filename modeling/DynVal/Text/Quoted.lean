import DynVal.Text.Blank

/-!
# Quoted words

A word that could not be told from its surroundings is written between double quotes, with
escapes for the quote, the backslash, the line feed and the tab. Other words stand as they are.
-/

namespace DynVal.Text

/-- Characters that end a bare word or would be read as something else inside one. -/
def isDelimiter (c : Char) : Bool :=
  isBlank c || c == '(' || c == ')' || c == '\"' || c == '\\' || c == ','

def needsQuotes (cs : List Char) : Bool := cs.isEmpty || cs.any isDelimiter

def escape (c : Char) : List Char :=
  if c = '\"' then ['\\', '\"']
  else if c = '\\' then ['\\', '\\']
  else if c = '\n' then ['\\', 'n']
  else if c = '\t' then ['\\', 't']
  else [c]

def quote (cs : List Char) : List Char := '\"' :: (cs.flatMap escape ++ ['\"'])

/-- A word as it is written among other words. -/
def word (cs : List Char) : List Char := if needsQuotes cs then quote cs else cs

end DynVal.Text
