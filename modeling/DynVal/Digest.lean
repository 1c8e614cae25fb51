/-!
# Mixing into hashes

A 64-bit hash takes in one word after the other. What it takes in is spread over all its bits.

Hashes are not kept outside of a run, and their numbers mean nothing. Whatever is proved of them
holds of any other way of mixing.
-/

namespace DynVal.Digest

/-- Folds one more word into a hash. -/
def mix (h x : UInt64) : UInt64 :=
  let y : UInt64 := (x ^^^ (x >>> 32)) * 0xd6e8feb86659fd93
  let z : UInt64 := h * 0x9e3779b97f4a7c15 + y + 0x632be59bd9b4e019
  let z : UInt64 := (z ^^^ (z >>> 29)) * 0xbf58476d1ce4e5b9
  z ^^^ (z >>> 32)

/-- Folds the characters of a text into a hash. -/
def mixText (h : UInt64) (s : String) : UInt64 :=
  s.toList.foldl (fun h c => mix h c.val.toUInt64) h

end DynVal.Digest
