import ExtendedRegex.CodeSet.Basic

/-!
The sets with names of their own: decimal digits, word units and blanks, all of them ASCII.
-/

set_option autoImplicit false
set_option relaxedAutoImplicit false

namespace ExtendedRegex

def CodeRange.ofChars (a b : Char) : CodeRange := between a.toNat b.toNat

namespace CodeSet

def digit : CodeSet := ofRanges [.ofChars '0' '9']

def word : CodeSet :=
  ofRanges [.ofChars 'A' 'Z', .ofChars 'a' 'z', .ofChars '0' '9', .ofChars '_' '_']

/-- Space, tab, carriage return, line feed and form feed. -/
def space : CodeSet :=
  ofRanges [.ofChars ' ' ' ', .ofChars '\t' '\t', .ofChars '\r' '\r', .ofChars '\n' '\n',
    .ofChars '\x0C' '\x0C']

end CodeSet

end ExtendedRegex
