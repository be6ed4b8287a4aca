import ExtendedRegex.Regex.Basic
import Std.Data.HashMap

/-!
Sizes of trees whose subtrees are shared. Repeating an operand builds a tree that refers to it many
times; written out, such a tree can be far larger than what is stored. Every tree under
construction has a place in a record of operands, and the size of a place, with its operands
written out, is computed once and remembered.
-/

set_option autoImplicit false
set_option relaxedAutoImplicit false

namespace ExtendedRegex

/-- The operands of each tree built so far, by place. An operand comes before what it is used in. -/
abbrev OperandRecord := Array (List Nat)

namespace OperandRecord

/-- References that do not point to an earlier place are void. -/
def operands (record : OperandRecord) (place : Nat) : List Nat :=
  (record.getD place []).filter (· < place)

theorem lt_of_mem_operands {record : OperandRecord} {place operand : Nat}
    (h : operand ∈ record.operands place) : operand < place := by
  simpa using (List.mem_filter.mp h).2

theorem lt_size_of_mem_operands {record : OperandRecord} {place operand : Nat}
    (h : operand ∈ record.operands place) : place < record.size := by
  refine Nat.lt_of_not_le fun hplace ↦ ?_
  rw [operands, Array.getD_eq_getD_getElem?, Array.getElem?_eq_none hplace] at h
  cases h

/-- The number of nodes of the tree at a place, every operand counted at each of its uses. -/
def unfoldedSize (record : OperandRecord) (place : Nat) : Nat :=
  1 + total ((record.operands place).attach.map fun operand ↦
    have := lt_of_mem_operands operand.2
    unfoldedSize record operand.1)
termination_by place

theorem unfoldedSize_eq (record : OperandRecord) (place : Nat) :
    record.unfoldedSize place = 1 + total ((record.operands place).map record.unfoldedSize) := by
  rw [unfoldedSize]
  simp only [List.map_subtype, List.unattach_attach]

end OperandRecord

abbrev SizeTable := Std.HashMap Nat Nat

namespace SizeTable

/-- The places of a record that have no size in a table yet. -/
def unsized (record : OperandRecord) (table : SizeTable) : List Nat :=
  (List.range record.size).filter (· ∉ table)

/-- Bounds the steps of a walk up to the next size. As long as operands are missing it goes down to
lower places, and all else shortens what is pending. -/
def descent (record : OperandRecord) (table : SizeTable) : List Nat → Nat
  | [] => 0
  | place :: pending =>
    if place ∈ unsized record table then place else record.size + pending.length + 1

variable {record : OperandRecord} {table : SizeTable} {place : Nat} {pending missing : List Nat}

theorem mem_unsized : place ∈ unsized record table ↔ place < record.size ∧ place ∉ table := by
  simp [unsized]

theorem unsized_insert (size : Nat) :
    unsized record (table.insert place size) = (unsized record table).filter (place ≠ ·) := by
  rw [unsized, unsized, List.filter_filter]
  congr 1
  funext operand
  simp

theorem descent_pop (h : place ∉ unsized record table) (table' : SizeTable) :
    descent record table' pending < descent record table (place :: pending) := by
  rw [descent, if_neg h]
  cases pending with
  | nil => exact Nat.succ_pos _
  | cons next pending =>
    rw [descent]
    split
    · next hnext =>
      have hlt := (mem_unsized.mp hnext).1
      omega
    · simp

theorem descent_push (hplace : place ∉ table)
    (hmissing : (record.operands place).filter (· ∉ table) = missing) (h : missing ≠ []) :
    descent record table (missing.reverse ++ place :: pending) <
      descent record table (place :: pending) := by
  cases hreverse : missing.reverse with
  | nil => exact absurd (List.reverse_eq_nil_iff.mp hreverse) h
  | cons operand rest =>
    have hmem : operand ∈ missing := List.mem_reverse.mp (hreverse ▸ List.mem_cons_self)
    obtain ⟨hoperand, hnew⟩ : operand ∈ record.operands place ∧ operand ∉ table := by
      simpa [← hmissing] using hmem
    have hlt := OperandRecord.lt_of_mem_operands hoperand
    have hsize := OperandRecord.lt_size_of_mem_operands hoperand
    have hin : operand ∈ unsized record table := mem_unsized.mpr ⟨Nat.lt_trans hlt hsize, hnew⟩
    rw [List.cons_append, descent, if_pos hin, descent, if_pos (mem_unsized.mpr ⟨hsize, hplace⟩)]
    exact hlt

/-- Fills a table with the sizes of the places that are pending, the first one next. A place whose
operands are in the table is entered with its size; any other one waits below those that are
missing, the last of them on top. -/
def fill (record : OperandRecord) (table : SizeTable) : List Nat → SizeTable
  | [] => table
  | place :: pending =>
    if place ∈ table then fill record table pending
    else
      let missing := (record.operands place).filter (· ∉ table)
      if missing = [] then
        let size := 1 + total ((record.operands place).map fun operand ↦ table.getD operand 0)
        fill record (table.insert place size) pending
      else fill record table (missing.reverse ++ place :: pending)
termination_by pending => ((unsized record table).length, descent record table pending)
decreasing_by
  · exact Prod.Lex.right _ (descent_pop (fun h ↦ (mem_unsized.mp h).2 ‹_›) _)
  · rw [unsized_insert]
    by_cases hmem : place ∈ unsized record table
    · refine Prod.Lex.left _ _ (List.length_filter_lt_length_iff_exists.mpr ⟨place, hmem, ?_⟩)
      simp
    · exact Prod.Lex.right' _ (List.length_filter_le _ _) (descent_pop hmem _)
  · exact Prod.Lex.right _ (descent_push ‹_› rfl ‹_›)

end SizeTable

structure Sharing where
  record : OperandRecord := #[[]]
  sizes : SizeTable := ∅

namespace Sharing

/-- Records a tree with the given operands, and tells its place. -/
def add (s : Sharing) (operands : List Nat) : Nat × Sharing :=
  (s.record.size, { s with record := s.record.push operands })

/-- The unfolded size of a place, and the sizes that are known from then on. -/
def measure (s : Sharing) (place : Nat) : Nat × Sharing :=
  let sizes := SizeTable.fill s.record s.sizes [place]
  (sizes.getD place 0, { s with sizes })

end Sharing

/-- A tree under construction and its place in the record of operands. All trees without operands
share the first place. -/
structure Part where
  tree : Regex
  place : Nat

namespace Part

def leaf (tree : Regex) : Part := ⟨tree, 0⟩

def wrap (build : Regex → Regex) (p : Part) (s : Sharing) : Part × Sharing :=
  let (place, s) := s.add [p.place]
  (⟨build p.tree, place⟩, s)

def join (build : Regex → Regex → Regex) (left right : Part) (s : Sharing) : Part × Sharing :=
  let (place, s) := s.add [left.place, right.place]
  (⟨build left.tree right.tree, place⟩, s)

/-- The concatenation of parts, nested to the left. -/
def sequence : List Part → Sharing → Part × Sharing
  | [], s => (leaf .empty, s)
  | p :: rest, s => rest.foldl (fun (acc, s) q ↦ acc.join .cat q s) (p, s)

end Part

end ExtendedRegex
