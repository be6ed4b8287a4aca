import ExtendedRegex.Text.Basic

/-!
Texts between double quotes. A quote, a backslash, the controls below U+0020 and surrogates that
stand alone are written as escapes, so the quoted form of any text is an ordinary string.
-/

set_option autoImplicit false
set_option relaxedAutoImplicit false

namespace ExtendedRegex

/-- Lowercase hexadecimal digits, filled with zeros on the left to four places. A minus sign counts
as one of the places and keeps its position before the digits. -/
def hexFour (n : Int) : String :=
  let digits := Nat.toDigits 16 n.natAbs
  let written := if n < 0 then '-' :: digits else digits
  String.ofList (List.replicate (4 - written.length) '0' ++ written)

def unicodeEscape (n : Int) : String := "\\u" ++ hexFour n

namespace Text

/-- The quoted form of a unit that is no part of a surrogate pair. -/
def quotedUnit (u : CodeUnit) : String :=
  if u = '"' then "\\\""
  else if u = '\\' then "\\\\"
  else if u = 0x08 then "\\b"
  else if u = 0x09 then "\\t"
  else if u = 0x0A then "\\n"
  else if u = 0x0C then "\\f"
  else if u = 0x0D then "\\r"
  else if u < 0x20 || u.isHighSurrogate || u.isLowSurrogate then unicodeEscape u.toNat
  else String.singleton (Char.ofNat u.toNat)

def quoteOnto (s : String) : List CodeUnit → String
  | [] => s
  | [u] => s ++ quotedUnit u
  | u :: v :: rest =>
    if u.isHighSurrogate && v.isLowSurrogate then quoteOnto (s.push (u.joinSurrogates v)) rest
    else quoteOnto (s ++ quotedUnit u) (v :: rest)

def quoted (t : Text) : String := (quoteOnto "\"" t.toList).push '"'

end Text

end ExtendedRegex
