/-!
Texts as sequences of 16-bit code units. Every offset and length of the library counts units, so a
text may end in the middle of a surrogate pair and need not be the encoding of any string.
-/

set_option autoImplicit false
set_option relaxedAutoImplicit false

namespace ExtendedRegex

abbrev CodeUnit := UInt16

abbrev Text := Array CodeUnit

namespace CodeUnit

/-- The low sixteen bits of a character: the character itself below U+10000. -/
def ofChar (c : Char) : CodeUnit := c.toNat.toUInt16

instance : Coe Char CodeUnit := ⟨ofChar⟩

def code (u : CodeUnit) : Int := u.toNat

def isHighSurrogate (u : CodeUnit) : Bool := 0xD800 ≤ u && u ≤ 0xDBFF

def isLowSurrogate (u : CodeUnit) : Bool := 0xDC00 ≤ u && u ≤ 0xDFFF

/-- The character written by a high and a low surrogate. -/
def joinSurrogates (high low : CodeUnit) : Char :=
  Char.ofNat (0x10000 + (high.toNat - 0xD800) * 0x400 + (low.toNat - 0xDC00))

end CodeUnit

namespace Text

/-- A character above U+FFFF becomes a pair of surrogates. -/
def pushChar (t : Text) (c : Char) : Text :=
  let n := c.toNat
  if n < 0x10000 then t.push n.toUInt16
  else
    let m := n - 0x10000
    (t.push (0xD800 + m / 0x400).toUInt16).push (0xDC00 + m % 0x400).toUInt16

def pushString (t : Text) (s : String) : Text := s.foldl pushChar t

def ofString (s : String) : Text := pushString #[] s

def decodeOnto (s : String) : List CodeUnit → Option String
  | [] => some s
  | [u] =>
    if u.isHighSurrogate || u.isLowSurrogate then none else some (s.push (Char.ofNat u.toNat))
  | u :: v :: rest =>
    if u.isLowSurrogate then none
    else if u.isHighSurrogate then
      if v.isLowSurrogate then decodeOnto (s.push (u.joinSurrogates v)) rest else none
    else decodeOnto (s.push (Char.ofNat u.toNat)) (v :: rest)

/-- The string that a text encodes; a text with a lone surrogate encodes none. -/
def decode? (t : Text) : Option String := decodeOnto "" t.toList

/-- The place an offset stands for when texts are cut: a negative offset counts from the end, and
every offset is clamped to the text. -/
def place (t : Text) (offset : Int) : Nat :=
  if offset < 0 then (t.size + offset).toNat else min offset.toNat t.size

/-- The units from one offset to another; no unit when the first place is not before the second. -/
def slice (t : Text) (start stop : Int) : Text := t.extract (t.place start) (t.place stop)

/-- The units from an offset to the end. -/
def sliceFrom (t : Text) (start : Int) : Text := t.extract (t.place start) t.size

end Text

end ExtendedRegex
