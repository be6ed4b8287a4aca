import ExtendedRegex.Proofs.Sizes

/-!
Sizes as node counts. The tree that a place of the record stands for has a copy of each operand at
each of its uses. The walk that measures a place never builds that tree, and visits a shared operand
once; with the sizes that earlier walks have left it still finds the number of nodes of the tree.
-/

set_option autoImplicit false
set_option relaxedAutoImplicit false

namespace ExtendedRegex

/-- A tree without sharing, each node with the place that it comes from. -/
inductive Unfolding where
  | node (place : Nat) (operands : List Unfolding)

namespace Unfolding

mutual

def nodeCount : Unfolding → Nat
  | .node _ operands => 1 + nodeCountAll operands

def nodeCountAll : List Unfolding → Nat
  | [] => 0
  | tree :: rest => tree.nodeCount + nodeCountAll rest

end

theorem nodeCountAll_eq (trees : List Unfolding) :
    nodeCountAll trees = total (trees.map nodeCount) := by
  induction trees with
  | nil => rw [nodeCountAll, List.map_nil, total_nil]
  | cons tree rest ih => rw [nodeCountAll, List.map_cons, total_cons, ih]

end Unfolding

namespace OperandRecord

/-- The tree of a place, with every operand written out at each of its uses. -/
def unfold (record : OperandRecord) (place : Nat) : Unfolding :=
  .node place ((record.operands place).attach.map fun operand ↦
    have := lt_of_mem_operands operand.2
    unfold record operand.1)
termination_by place

theorem unfold_eq (record : OperandRecord) (place : Nat) :
    record.unfold place = .node place ((record.operands place).map record.unfold) := by
  rw [unfold]
  simp only [List.map_subtype, List.unattach_attach]

theorem nodeCount_unfold (record : OperandRecord) (place : Nat) :
    (record.unfold place).nodeCount = record.unfoldedSize place := by
  induction place using Nat.strongRecOn with
  | _ place ih =>
    rw [unfold_eq, Unfolding.nodeCount, Unfolding.nodeCountAll_eq, List.map_map, unfoldedSize_eq]
    congr 2
    exact List.map_congr_left fun operand h ↦ ih operand (lt_of_mem_operands h)

end OperandRecord

namespace SizeTable

variable {record : OperandRecord} {table : SizeTable}

/-- A table in which each size is the node count of the tree of a place in the record. -/
def Exact (record : OperandRecord) (table : SizeTable) : Prop :=
  ∀ place size, table[place]? = some size →
    place < record.size ∧ size = (record.unfold place).nodeCount

theorem getElem?_eq_some_getD {place : Nat} (h : place ∈ table) :
    table[place]? = some (table.getD place 0) := by
  rw [Std.HashMap.getD_eq_getD_getElem?]
  obtain ⟨size, hsize⟩ := Option.isSome_iff_exists.mp (Std.HashMap.mem_iff_isSome_getElem?.mp h)
  rw [hsize, Option.getD_some]

theorem exact_iff_sound : table.Exact record ↔ table.Sound record := by
  constructor
  · intro hexact place hmem
    obtain ⟨hplace, hsize⟩ := hexact place _ (getElem?_eq_some_getD hmem)
    exact ⟨hplace, hsize.trans (record.nodeCount_unfold place)⟩
  · intro hsound place size hsize
    have hmem : place ∈ table := Std.HashMap.mem_iff_isSome_getElem?.mpr (by simp [hsize])
    obtain ⟨hplace, heq⟩ := hsound place hmem
    rw [getElem?_eq_some_getD hmem] at hsize
    exact ⟨hplace, (Option.some.inj hsize).symm.trans
      (heq.trans (record.nodeCount_unfold place).symm)⟩

/-- A place has one size, so exact tables agree wherever both have one. -/
theorem Exact.getElem?_eq {table' : SizeTable} {place : Nat} (h : table.Exact record)
    (h' : table'.Exact record) (hmem : place ∈ table) (hmem' : place ∈ table') :
    table'[place]? = table[place]? := by
  have hsize := (h place _ (getElem?_eq_some_getD hmem)).2
  have hsize' := (h' place _ (getElem?_eq_some_getD hmem')).2
  rw [getElem?_eq_some_getD hmem, getElem?_eq_some_getD hmem', hsize, hsize']

end SizeTable

namespace Sharing

end Sharing

end ExtendedRegex
