import ExtendedRegex.CodeSet.Builtin
import ExtendedRegex.Pattern.Error

/-!
Tokens of a pattern. The mode in force decides which units are special; a backslash takes the
special meaning from the special units of the mode and from itself, and names the builtin classes.
A token that is read before the end of the pattern ends after the offset it is read at.
-/

set_option autoImplicit false
set_option relaxedAutoImplicit false

namespace ExtendedRegex

/-- What surrounds the units being read: a bound, or a bracket expression inside another mode. -/
inductive Mode where
  | normal
  | bound
  | bracket (negated : Bool) (outer : Mode)
deriving DecidableEq, Repr

inductive Builtin where
  | digit
  | word
  | space
deriving DecidableEq, Repr

def Builtin.set : Builtin → CodeSet
  | digit => .digit
  | word => .word
  | space => .space

namespace Token

inductive Kind where
  | endOfPattern
  | unit (u : CodeUnit)
  | any
  | quantifier (q : Quantifier)
  | bar
  | openGroup
  | closeGroup
  | openBracket
  | closeBracket
  | openBound
  | closeBound
  | startAnchor
  | endAnchor
  | builtin (b : Builtin) (negated : Bool)
deriving DecidableEq, Repr

end Token

structure Token where
  kind : Token.Kind
  start : Nat
  stop : Nat
deriving DecidableEq, Repr

/-- The units with a meaning of their own. -/
def Mode.special : Mode → List (CodeUnit × Token.Kind)
  | normal =>
    [('.', .any), ('*', .quantifier .star), ('+', .quantifier .plus), ('?', .quantifier .opt),
      ('|', .bar), ('(', .openGroup), (')', .closeGroup), ('[', .openBracket),
      (']', .closeBracket), ('{', .openBound), ('}', .closeBound), ('^', .startAnchor),
      ('$', .endAnchor)]
  | bound => [('}', .closeBound)]
  | bracket _ _ => [('[', .openBracket), (']', .closeBracket)]

/-- Whether a unit stands for itself after a backslash. -/
def Mode.escapes (mode : Mode) (u : CodeUnit) : Bool :=
  u = '\\' || (mode.special.lookup u).isSome

namespace Token

/-- The units that name a class after a backslash; capitals name the complement. -/
def builtinNames : List (CodeUnit × Builtin × Bool) :=
  [('d', .digit, false), ('s', .space, false), ('w', .word, false), ('D', .digit, true),
    ('S', .space, true), ('W', .word, true)]

/-- The token that starts at an offset. -/
def next (pattern : Text) (mode : Mode) (offset : Nat) : Except Flaw Token :=
  match pattern[offset]? with
  | none => .ok ⟨.endOfPattern, offset, offset⟩
  | some u =>
    if u = '\\' then
      match pattern[offset + 1]? with
      | none => .error ⟨.unterminatedEscape, offset⟩
      | some v =>
        if mode.escapes v then .ok ⟨.unit v, offset, offset + 2⟩
        else
          match builtinNames.lookup v with
          | some (b, negated) => .ok ⟨.builtin b negated, offset, offset + 2⟩
          | none => .error ⟨.unknownEscape v, offset + 1⟩
    else .ok ⟨(mode.special.lookup u).getD (.unit u), offset, offset + 1⟩

/-- The unit at an offset, whatever it means. -/
def raw (pattern : Text) (offset : Nat) : Token :=
  match pattern[offset]? with
  | none => ⟨.endOfPattern, offset, offset⟩
  | some u => ⟨.unit u, offset, offset + 1⟩

/-- What a token stands for as text: the unit itself, without its backslash, or else its lexeme. -/
def value (pattern : Text) (t : Token) : Text :=
  match t.kind with
  | .unit u => #[u]
  | _ => pattern.extract t.start t.stop

theorem lt_stop_of_next {pattern : Text} {mode : Mode} {offset : Nat} {t : Token}
    (h : offset < pattern.size) (ht : next pattern mode offset = .ok t) : offset < t.stop := by
  simp only [next, Array.getElem?_eq_getElem h] at ht
  split at ht
  · split at ht
    · simp at ht
    · split at ht
      · cases ht; simp
      · split at ht
        · cases ht; simp
        · simp at ht
  · cases ht; simp

/-- The tokens from an offset to the end of the pattern, all of them read in one mode, up to the flaw
that ends the reading early. -/
def scan (pattern : Text) (mode : Mode) (offset : Nat) : List Token × Option Flaw :=
  match h : next pattern mode offset with
  | .error flaw => ([], some flaw)
  | .ok t =>
    if hoffset : offset < pattern.size then
      have := lt_stop_of_next hoffset h
      let (tokens, flaw) := scan pattern mode t.stop
      (t :: tokens, flaw)
    else ([t], none)
termination_by pattern.size - offset

end Token

end ExtendedRegex
