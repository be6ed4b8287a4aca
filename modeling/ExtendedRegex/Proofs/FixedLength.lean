import ExtendedRegex.Proofs.Recognition
import ExtendedRegex.Proofs.StackLabels

/-!
Trees without groups all matches of which have one length. An attempt with such a tree has no choice
to make, so what it finds is told by the places where matches start, and a search finds the first of
these places.
-/

set_option autoImplicit false
set_option relaxedAutoImplicit false

namespace ExtendedRegex

namespace Regex

/-- The places where matches start, and the length of all of them. -/
structure FixedLength (e : Regex) (subject : Text) (anchor : Int) (starts : Nat → Prop)
    (length : Nat) : Prop where
  labels : e.labels = []
  spans : ∀ p q, e.Spans subject anchor p q ↔ starts p ∧ q = p + length

namespace FixedLength

variable {e : Regex} {subject : Text} {anchor : Int} {starts : Nat → Prop}
  {length position start : Nat}

/-- What is found at a place where a match starts. -/
def found (length start : Nat) : Found :=
  ⟨some start, some (start + length), #[some ⟨start, (start + length : Nat)⟩]⟩

theorem outcome_none (h : e.FixedLength subject anchor starts length)
    (hposition : position ≤ subject.size) (hstart : ¬ starts position) :
    e.compile.Outcome subject anchor List.Nodup [e.compile.start position] none := by
  have hp := e.compile_wellFormed
  obtain ⟨r, houtcome⟩ := Program.exists_outcome hp anchor hposition
  cases r with
  | none => exact houtcome
  | some slots =>
    have hlive := (Program.outcome_ne_none_iff hp hposition houtcome).mp (Option.some_ne_none _)
    obtain ⟨stop, hspans⟩ := e.live_start_compile_iff.mp hlive
    exact absurd ((h.spans _ _).mp hspans).1 hstart

theorem outcome_some (h : e.FixedLength subject anchor starts length)
    (hposition : position ≤ subject.size) (hstart : starts position) :
    ∃ slots, e.compile.Outcome subject anchor List.Nodup [e.compile.start position] (some slots) ∧
      slots.found e.compile.groupCount = found length position := by
  have hp := e.compile_wellFormed
  obtain ⟨r, houtcome⟩ := Program.exists_outcome hp anchor hposition
  have hspans := (h.spans position _).mpr ⟨hstart, rfl⟩
  have hlive := e.live_start_compile_iff.mpr ⟨_, hspans⟩
  obtain ⟨slots, rfl⟩ := Option.ne_none_iff_exists'.mp
    ((Program.outcome_ne_none_iff hp hposition houtcome).mpr hlive)
  refine ⟨slots, houtcome, ?_⟩
  obtain ⟨⟨stop, saved⟩, hpasses, rfl⟩ := e.passes_of_outcome houtcome
  obtain ⟨-, rfl⟩ := (h.spans _ _).mp hpasses.spans
  rw [(code_compile e).2, Captures.found_slots, h.labels]
  rfl

/-- An attempt finds the match that starts there. -/
theorem searchAt [DecidablePred starts] (h : e.FixedLength subject anchor starts length)
    (hposition : position ≤ subject.size) :
    e.compile.searchAt subject position ⟨some anchor, none⟩ =
      .ok (if starts position then some (found length position) else none) := by
  have hp := e.compile_wellFormed
  split
  · next hstart =>
    obtain ⟨slots, houtcome, hfound⟩ := h.outcome_some hposition hstart
    rw [Program.searchAt_of_outcome hp hposition houtcome, Option.map_some, hfound]
  · next hstart =>
    rw [Program.searchAt_of_outcome hp hposition (h.outcome_none hposition hstart)]
    rfl

theorem search_none (h : e.FixedLength subject anchor starts length)
    (hposition : position ≤ subject.size)
    (hnone : ∀ k, position ≤ k → k ≤ subject.size → ¬ starts k) :
    e.compile.search subject position ⟨some anchor, none⟩ = .ok none :=
  Program.search_of_scan hposition (Program.scan_eq_none e.compile_wellFormed hposition
    fun k hle hk ↦ h.outcome_none hk (hnone k hle hk))

/-- A search finds the first place where a match starts. -/
theorem search_some (h : e.FixedLength subject anchor starts length)
    (hle : position ≤ start) (hsize : start ≤ subject.size) (hstart : starts start)
    (hfirst : ∀ k, position ≤ k → k < start → ¬ starts k) :
    e.compile.search subject position ⟨some anchor, none⟩ = .ok (some (found length start)) := by
  obtain ⟨slots, houtcome, hfound⟩ := h.outcome_some hsize hstart
  have hscan := Program.scan_eq_some e.compile_wellFormed hsize hle houtcome
    fun k hk hlt ↦ h.outcome_none (by omega) (hfirst k hk hlt)
  rw [Program.search_of_scan (hle.trans hsize) hscan, Option.map_some, hfound]

end FixedLength

end Regex

end ExtendedRegex
