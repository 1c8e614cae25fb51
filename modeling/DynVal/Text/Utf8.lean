/-!
# UTF-8

Bytes to characters, with the place and kind of the first fault. A lead byte fixes the ranges in
which the bytes after it must lie; the ranges exclude overlong forms, surrogates and code points
above the last plane. A character that breaks off at a wrong byte is told from one that the end of
the bytes cuts short.
-/

namespace DynVal.Utf8

/-- Where the broken character starts, and how many of its bytes were good unless the end came
first. -/
structure Fault where
  index : Nat
  good : Option Nat
deriving DecidableEq

/-- The payload of a lead byte and the ranges of the bytes that have to follow it. -/
def lead (b : UInt8) : Option (Nat × List (UInt8 × UInt8)) :=
  if b < 0x80 then some (b.toNat, [])
  else if b < 0xc2 then none
  else if b < 0xe0 then some (b.toNat - 0xc0, [(0x80, 0xbf)])
  else if b = 0xe0 then some (0, [(0xa0, 0xbf), (0x80, 0xbf)])
  else if b = 0xed then some (0xd, [(0x80, 0x9f), (0x80, 0xbf)])
  else if b < 0xf0 then some (b.toNat - 0xe0, [(0x80, 0xbf), (0x80, 0xbf)])
  else if b = 0xf0 then some (0, [(0x90, 0xbf), (0x80, 0xbf), (0x80, 0xbf)])
  else if b < 0xf4 then some (b.toNat - 0xf0, [(0x80, 0xbf), (0x80, 0xbf), (0x80, 0xbf)])
  else if b = 0xf4 then some (4, [(0x80, 0x8f), (0x80, 0xbf), (0x80, 0xbf)])
  else none

/-- A character of which more bytes are expected. -/
structure Partial where
  index : Nat
  taken : Nat
  code : Nat
  rest : List (UInt8 × UInt8)

/-- Reads the bytes from position `i`, within a character or between two. -/
def scan : Option Partial → Nat → List UInt8 → Except Fault (List Char)
  | none, _, [] => .ok []
  | some p, _, [] => .error ⟨p.index, none⟩
  | none, i, b :: bs =>
    match lead b with
    | none => .error ⟨i, some 1⟩
    | some (code, []) => (scan none (i + 1) bs).map (Char.ofNat code :: ·)
    | some (code, rest) => scan (some ⟨i, 1, code, rest⟩) (i + 1) bs
  | some p, i, b :: bs =>
    match p.rest with
    | [] => .error ⟨p.index, some p.taken⟩
    | (low, high) :: rest =>
      if low ≤ b ∧ b ≤ high then
        let code := p.code * 64 + (b.toNat - 0x80)
        if rest.isEmpty then (scan none (i + 1) bs).map (Char.ofNat code :: ·)
        else scan (some ⟨p.index, p.taken + 1, code, rest⟩) (i + 1) bs
      else .error ⟨p.index, some p.taken⟩

def decode (bytes : List UInt8) : Except Fault String := (scan none 0 bytes).map String.ofList

def encode (s : String) : List UInt8 := s.toUTF8.toList

def Fault.message (f : Fault) : String :=
  match f.good with
  | some n => s!"invalid utf-8 sequence of {n} bytes from index {f.index}"
  | none => s!"incomplete utf-8 byte sequence from index {f.index}"

end DynVal.Utf8
