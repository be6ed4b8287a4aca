import ExtendedRegex.Program.Basic
import ExtendedRegex.Text.Quoted

/-!
The listing of a program, one line for each instruction.
-/

set_option autoImplicit false
set_option relaxedAutoImplicit false

namespace ExtendedRegex

/-- Codes in decimal. -/
def CodeRange.listing (r : CodeRange) : String :=
  if r.lo = r.hi then toString r.lo else s!"{r.lo}-{r.hi}"

def Instr.listing : Instr → String
  | literal l => "char " ++ l.toText.quoted
  | any => "any"
  | oneOf tree => "class [" ++ " ".intercalate (tree.toList.map CodeRange.listing) ++ "]"
  | split primary secondary => s!"split {primary}, {secondary}"
  | jump target => s!"jmp {target}"
  | save slot => s!"save {slot}"
  | startAnchor => "start"
  | endAnchor => "end"
  | accept => "match"

/-- Each line starts with the address of its instruction. -/
def Program.listing (p : Program) : List String :=
  p.code.toList.zipIdx.map fun (i, address) ↦ s!"{address}: {i.listing}"

end ExtendedRegex
