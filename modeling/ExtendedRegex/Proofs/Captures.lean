import ExtendedRegex.Proofs.Layout
import ExtendedRegex.Search.Found
import Mathlib.Data.List.Nodup
import Mathlib.Logic.Function.Basic

/-!
The places saved for the groups of a tree, by label, and the slots that hold them in a program:
group zero comes first, and the other groups follow in the order of their labels.
-/

set_option autoImplicit false
set_option relaxedAutoImplicit false

namespace ExtendedRegex

/-- The starts and the ends saved for groups, each of them where it was saved last. -/
structure Captures where
  start : Nat → Option Nat
  stop : Nat → Option Nat

namespace Captures

def unset : Captures := ⟨fun _ ↦ none, fun _ ↦ none⟩

def openAt (c : Captures) (label position : Nat) : Captures :=
  { c with start := Function.update c.start label (some position) }

def closeAt (c : Captures) (label position : Nat) : Captures :=
  { c with stop := Function.update c.stop label (some position) }

/-- The span of a group with both of its ends saved. -/
def span (c : Captures) (label : Nat) : Option Span :=
  match c.start label, c.stop label with
  | some start, some stop => some ⟨start, stop⟩
  | _, _ => none

/-- The slots of the groups, two for each label. -/
def pairs (c : Captures) (labels : List Nat) : List (Option Nat) :=
  labels.flatMap fun label ↦ [c.start label, c.stop label]

/-- The slots of a match with a known start that has not ended. -/
def slots (c : Captures) (labels : List Nat) (start : Nat) : Slots :=
  (some start :: none :: c.pairs labels).toArray

variable {c : Captures} {labels : List Nat} {start label position : Nat}

/-- Writing into the part of one label, in a list with two entries for each label. -/
theorem set_flatMap {f : Nat → List (Option Nat)} (hf : ∀ l, (f l).length = 2)
    (hnodup : labels.Nodup) {k : Nat} (hk : k < 2) (v : Option Nat) :
    (labels.flatMap f).set (2 * labels.idxOf label + k) v =
      labels.flatMap fun l ↦ if l = label then (f l).set k v else f l := by
  induction labels with
  | nil => rfl
  | cons l labels ih =>
    obtain ⟨hl, hnodup⟩ := List.nodup_cons.mp hnodup
    rw [List.flatMap_cons, List.flatMap_cons]
    by_cases heq : l = label
    · subst heq
      have hrest : labels.flatMap (fun l' ↦ if l' = l then (f l').set k v else f l') =
          labels.flatMap f := by
        refine List.flatMap_congr fun l' hl' ↦ if_neg fun h ↦ hl ?_
        rwa [h] at hl'
      rw [List.idxOf_cons_self, if_pos rfl, hrest, Nat.mul_zero, Nat.zero_add,
        List.set_append_left _ _ (by rw [hf]; exact hk)]
    · have hindex : 2 * (l :: labels).idxOf label + k = 2 * labels.idxOf label + k + 2 := by
        rw [List.idxOf_cons_ne _ heq]
        omega
      rw [hindex, if_neg heq, List.set_append_right _ _ (by rw [hf]; omega), hf,
        Nat.add_sub_cancel, ih hnodup]

theorem slots_openAt (hnodup : labels.Nodup) :
    (c.slots labels start).setIfInBounds (2 * Regex.groupNumber labels label) (some position) =
      (c.openAt label position).slots labels start := by
  have hpairs : (c.openAt label position).pairs labels =
      (c.pairs labels).set (2 * labels.idxOf label) (some position) := by
    refine Eq.trans ?_ (set_flatMap (fun _ ↦ rfl) hnodup (show 0 < 2 by decide) _).symm
    refine List.flatMap_congr fun l _ ↦ ?_
    by_cases heq : l = label <;> simp [openAt, heq]
  rw [slots, slots, hpairs]
  simp [Regex.groupNumber, Nat.mul_add]

theorem slots_closeAt (hnodup : labels.Nodup) :
    (c.slots labels start).setIfInBounds (2 * Regex.groupNumber labels label + 1) (some position) =
      (c.closeAt label position).slots labels start := by
  have hpairs : (c.closeAt label position).pairs labels =
      (c.pairs labels).set (2 * labels.idxOf label + 1) (some position) := by
    refine Eq.trans ?_ (set_flatMap (fun _ ↦ rfl) hnodup (show 1 < 2 by decide) _).symm
    refine List.flatMap_congr fun l _ ↦ ?_
    by_cases heq : l = label <;> simp [closeAt, heq]
  rw [slots, slots, hpairs]
  simp [Regex.groupNumber, Nat.mul_add, Nat.add_assoc]

theorem getElem?_pairs (k : Nat) :
    (c.pairs labels)[2 * k]? = (labels[k]?).map c.start ∧
      (c.pairs labels)[2 * k + 1]? = (labels[k]?).map c.stop := by
  induction labels generalizing k with
  | nil => simp [pairs]
  | cons l labels ih =>
    cases k with
    | zero => simp [pairs]
    | succ k => simpa [pairs, Nat.mul_add] using ih k

theorem slots_unset : (Slots.unset (labels.length + 1)).setIfInBounds 0 (some start) =
    unset.slots labels start := by
  have hpairs : unset.pairs labels = List.replicate (2 * labels.length) none := by
    induction labels with
    | nil => rfl
    | cons l labels ih =>
      simp only [pairs, List.flatMap_cons] at ih ⊢
      rw [ih, List.length_cons, Nat.mul_add, Nat.add_comm, List.replicate_add]
      rfl
  apply Array.toList_inj.mp
  rw [slots, hpairs]
  simp [Slots.unset, Nat.mul_add, List.replicate_succ]

theorem slots_close {stop : Nat} : (c.slots labels start).setIfInBounds 1 (some stop) =
    (some start :: some stop :: c.pairs labels).toArray := by
  simp [slots]

theorem get_pairs {stop : Nat} (k : Nat) :
    Slots.get (some start :: some stop :: c.pairs labels).toArray (2 * (k + 1)) =
        (labels[k]?).bind c.start ∧
      Slots.get (some start :: some stop :: c.pairs labels).toArray (2 * (k + 1) + 1) =
        (labels[k]?).bind c.stop := by
  have hget : ∀ n, Slots.get (some start :: some stop :: c.pairs labels).toArray (n + 2) =
      ((c.pairs labels)[n]?).join := fun n ↦ by simp [Slots.get]
  rw [show 2 * (k + 1) = 2 * k + 2 by omega, Nat.add_right_comm, hget, hget,
    (getElem?_pairs k).1, (getElem?_pairs k).2]
  cases labels[k]? <;> exact ⟨rfl, rfl⟩

/-- What is found once the whole match has ended: the spans of the groups, the whole match first. -/
theorem found_slots {stop : Nat} :
    Slots.found ((c.slots labels start).setIfInBounds 1 (some stop)) (labels.length + 1) =
      ⟨some start, some stop, (some ⟨start, stop⟩ :: labels.map c.span).toArray⟩ := by
  have hspan : ∀ k, Slots.span (some start :: some stop :: c.pairs labels).toArray (k + 1) =
      (labels[k]?).bind c.span := by
    intro k
    rw [Slots.span, (get_pairs k).1, (get_pairs k).2]
    cases labels[k]? <;> rfl
  rw [slots_close]
  simp only [Slots.found, Found.mk.injEq]
  refine ⟨rfl, rfl, Array.ext_getElem? fun k ↦ ?_⟩
  cases k with
  | zero => simp [Slots.span, Slots.get]
  | succ k =>
    simp only [Array.getElem?_map, Array.getElem?_range, List.getElem?_toArray,
      List.getElem?_cons_succ, List.getElem?_map]
    by_cases hk : k < labels.length
    · simp [hk, hspan]
    · simp [hk]

end Captures

end ExtendedRegex
