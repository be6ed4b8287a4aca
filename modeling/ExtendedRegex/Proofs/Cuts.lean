import ExtendedRegex.Proofs.Pieces

/-!
Inputs cut at spans. What lies outside of spans that follow one another makes up the text again once
the spans are put back between. Splitting an input cuts it in this way, at matches none of which is
empty without something on both of its sides.
-/

set_option autoImplicit false
set_option relaxedAutoImplicit false

namespace ExtendedRegex

namespace Text

/-- Spans that follow one another in a text, from a place on. -/
def InOrder (t : Text) : Int → List Span → Prop
  | place, [] => place ≤ t.size
  | place, s :: spans => place ≤ s.start ∧ s.start ≤ s.stop ∧ t.InOrder s.stop spans

/-- What lies between spans, from a place on: one piece in front of each, and one behind them. -/
def outside (t : Text) : Int → List Span → List Text
  | place, [] => [t.sliceFrom place]
  | place, s :: spans => t.slice place s.start :: t.outside s.stop spans

/-- Puts texts between pieces. -/
def interleave : List Text → List Text → Text
  | [], _ => #[]
  | piece :: pieces, [] => piece ++ interleave pieces []
  | piece :: pieces, t :: texts => piece ++ t ++ interleave pieces texts

variable {t : Text} {place start stop : Int} {spans : List Span}

theorem length_outside (t : Text) (place : Int) (spans : List Span) :
    (t.outside place spans).length = spans.length + 1 := by
  induction spans generalizing place with
  | nil => rfl
  | cons s spans ih => rw [outside, List.length_cons, ih, List.length_cons]

theorem place_le_place (hstart : 0 ≤ start) (h : start ≤ stop) : t.place start ≤ t.place stop := by
  rw [Text.place, Text.place, if_neg (by omega), if_neg (by omega)]
  omega

theorem place_le_size (hstart : 0 ≤ start) : t.place start ≤ t.size := by
  rw [Text.place, if_neg (by omega)]
  exact Nat.min_le_right _ _

theorem slice_append_sliceFrom (hstart : 0 ≤ start) (h : start ≤ stop) :
    t.slice start stop ++ t.sliceFrom stop = t.sliceFrom start := by
  have hle : t.place start ≤ t.place stop := place_le_place hstart h
  have hsize : t.place stop ≤ t.size := place_le_size (Int.le_trans hstart h)
  rw [slice, sliceFrom, sliceFrom, Array.extract_append_extract, Nat.min_eq_left hle,
    Nat.max_eq_right hsize]

theorem sliceFrom_zero (t : Text) : t.sliceFrom 0 = t := by
  have hplace : t.place 0 = 0 := Nat.zero_min t.size
  rw [sliceFrom, hplace, Array.extract_size]

/-- The pieces between spans and the spans make up the text. -/
theorem interleave_outside (hplace : 0 ≤ place) (h : t.InOrder place spans) :
    interleave (t.outside place spans) (spans.map fun s ↦ t.slice s.start s.stop) =
      t.sliceFrom place := by
  induction spans generalizing place with
  | nil => exact Array.append_empty
  | cons s spans ih =>
    obtain ⟨hstart, hstop, hrest⟩ := h
    have hnonneg : 0 ≤ s.start := Int.le_trans hplace hstart
    rw [outside, List.map_cons, interleave, ih (Int.le_trans hnonneg hstop) hrest,
      Array.append_assoc, slice_append_sliceFrom hnonneg hstop,
      slice_append_sliceFrom hplace hstart]

theorem slice_ne_empty (hstart : 0 ≤ start) (h : start < stop) (hsize : start < t.size) :
    t.slice start stop ≠ #[] := by
  have hlt : t.place start < t.place stop := by
    rw [Text.place, Text.place, if_neg (by omega), if_neg (by omega)]
    omega
  have hsize : t.place stop ≤ t.size := place_le_size (by omega)
  rw [slice, ne_eq, Array.extract_eq_empty_iff]
  omega

theorem sliceFrom_ne_empty (hstart : 0 ≤ start) (h : start < t.size) : t.sliceFrom start ≠ #[] := by
  have hplace : t.place start < t.size := by
    rw [Text.place, if_neg (by omega)]
    omega
  rw [sliceFrom, ne_eq, Array.extract_eq_empty_iff]
  omega

theorem InOrder.le_size (h : t.InOrder place spans) : place ≤ t.size := by
  induction spans generalizing place with
  | nil => exact h
  | cons s spans ih =>
    obtain ⟨hstart, hstop, hrest⟩ := h
    exact Int.le_trans hstart (Int.le_trans hstop (ih hrest))

theorem InOrder.take (h : t.InOrder place spans) (n : Nat) : t.InOrder place (spans.take n) := by
  induction spans generalizing place n with
  | nil => simpa using h
  | cons s spans ih =>
    cases n with
    | zero => exact h.le_size
    | succ n => exact ⟨h.1, h.2.1, ih h.2.2 n⟩

/-- Spans that stop before the next one starts follow one another. -/
theorem inOrder_of_pairwise (hsize : place ≤ t.size)
    (hspans : ∀ s ∈ spans, place ≤ s.start ∧ s.start ≤ s.stop ∧ s.stop ≤ t.size)
    (h : spans.Pairwise fun s s' ↦ s.stop ≤ s'.start) : t.InOrder place spans := by
  induction spans generalizing place with
  | nil => exact hsize
  | cons s spans ih =>
    obtain ⟨hlater, hrest⟩ := List.pairwise_cons.mp h
    obtain ⟨hstart, hstop, hend⟩ := hspans s List.mem_cons_self
    refine ⟨hstart, hstop, ih hend (fun s' hs' ↦ ?_) hrest⟩
    obtain ⟨-, hstop', hend'⟩ := hspans s' (List.mem_cons_of_mem _ hs')
    exact ⟨hlater s' hs', hstop', hend'⟩

end Text

/-- The part of the input that a match takes. -/
def Match.extent (a : Match) : Span := ⟨a.start, a.stop⟩

@[simp] theorem Match.start_extent (a : Match) : a.extent.start = a.start := rfl

@[simp] theorem Match.stop_extent (a : Match) : a.extent.stop = a.stop := rfl

theorem Match.map_matched {input : Text} {found : List Match} (h : ∀ a ∈ found, a.input = input) :
    found.map Match.matched = (found.map extent).map fun s ↦ input.slice s.start s.stop := by
  rw [List.map_map]
  refine List.map_congr_left fun a ha ↦ ?_
  rw [matched, h a ha]
  rfl

namespace Matcher

open Text (InOrder outside interleave)

variable {m : Matcher} {input : Text} {last offset : Nat} {found : Match} {pieces : List Text}
  {separators : List Match}

theorem input_of_attempt (h : m.attempt input offset = .ok (some found)) :
    found.input = input := by
  obtain ⟨r, -, hr⟩ := exists_of_map_eq_ok h
  obtain ⟨found, -, rfl⟩ := Option.map_eq_some_iff.mp hr
  rfl

/-- The matches that a splitting cuts at, when a piece starts at a place: none of them is at the end
of the input, and none stops where the piece in front of it starts. -/
inductive Separates (m : Matcher) (input : Text) : Nat → List Match → Prop
  | nil {last : Nat} : last ≤ input.size → Separates m input last []
  | cons {last start stop : Nat} {found : Match} {rest : List Match} : last ≤ start →
    start < input.size → m.attempt input start = .ok (some found) → found.stop = stop →
    stop ≠ last → Separates m input stop rest → Separates m input last (found :: rest)

/-- The pieces of a walk are those between separators. -/
theorem Walk.exists_separates (h : m.Walk input last offset pieces) (hle : last ≤ offset)
    (hlast : last ≤ input.size) :
    ∃ separators, m.Separates input last separators ∧
      pieces = input.outside last (separators.map Match.extent) := by
  induction h with
  | finish => exact ⟨[], .nil hlast, rfl⟩
  | pass _ _ _ ih => exact ih (by omega) hlast
  | @cut last offset stop found pieces hlt hfound hstop hne _ ih =>
    obtain ⟨_, hfirst, hstop', -, hsize, -⟩ := ends_of_attempt hlt.le hfound
    obtain ⟨separators, hseparates, rfl⟩ := ih (Nat.le_refl _) (by omega)
    refine ⟨found :: separators, .cons hle hlt hfound hstop hne hseparates, ?_⟩
    rw [List.map_cons, outside, Match.start_extent, Match.stop_extent, hfirst, hstop]

namespace Separates

theorem attempts (h : m.Separates input last separators) :
    ∀ a ∈ separators, ∃ start : Nat, start < input.size ∧ a.start = start ∧
      m.attempt input start = .ok (some a) := by
  induction h with
  | nil => exact fun a ha ↦ nomatch ha
  | @cons last start stop found rest _ hstart hfound _ _ _ ih =>
    intro a ha
    rcases List.mem_cons.mp ha with rfl | ha
    · obtain ⟨_, hfirst, -⟩ := ends_of_attempt hstart.le hfound
      exact ⟨start, hstart, hfirst, hfound⟩
    · exact ih a ha

theorem inOrder (h : m.Separates input last separators) :
    input.InOrder last (separators.map Match.extent) := by
  induction h with
  | nil hlast => exact Int.ofNat_le.mpr hlast
  | @cons last start stop found rest hle hstart hfound hstop _ _ ih =>
    obtain ⟨_, hfirst, hstop', hbelow, -, -⟩ := ends_of_attempt hstart.le hfound
    rw [← hstop] at ih
    exact ⟨show (last : Int) ≤ found.start by omega, show found.start ≤ found.stop by omega, ih⟩

/-- What follows an empty match is not empty: the next separator cannot start at the same place,
where an attempt finds the same empty match again. -/
theorem exists_first {start : Nat} (h : m.Separates input start separators)
    (hstart : start < input.size) (hfound : m.attempt input start = .ok (some found))
    (hempty : found.stop = start) :
    ∃ piece, (input.outside start (separators.map Match.extent))[0]? = some piece ∧
      piece ≠ #[] := by
  cases h with
  | nil => exact ⟨_, rfl, Text.sliceFrom_ne_empty (by omega) (by omega)⟩
  | @cons _ start' stop' found' rest hle hstart' hfound' hstop' hne hrest =>
    obtain ⟨_, hfirst, -⟩ := ends_of_attempt hstart'.le hfound'
    have hlater : start ≠ start' := by
      rintro rfl
      cases hfound.symm.trans hfound'
      omega
    refine ⟨_, rfl, Text.slice_ne_empty (by omega) ?_ (by omega)⟩
    rw [Match.start_extent, hfirst]
    omega

/-- On both sides of an empty separator there is a piece that is not empty. -/
theorem exists_sides (h : m.Separates input last separators) {i : Nat}
    (hfound : separators[i]? = some found) (hempty : found.stop = found.start) :
    ∃ left right, (input.outside last (separators.map Match.extent))[i]? = some left ∧
      (input.outside last (separators.map Match.extent))[i + 1]? = some right ∧
      left ≠ #[] ∧ right ≠ #[] := by
  induction h generalizing i with
  | nil => cases hfound
  | @cons last start stop a rest hle hstart hattempt hstop hne hrest ih =>
    cases i with
    | zero =>
      obtain rfl := Option.some.inj hfound
      obtain ⟨_, hfirst, -⟩ := ends_of_attempt hstart.le hattempt
      obtain rfl : stop = start := by omega
      obtain ⟨right, hright, hright'⟩ := hrest.exists_first hstart hattempt hstop
      refine ⟨_, right, rfl, ?_, Text.slice_ne_empty (by omega) ?_ (by omega), hright'⟩
      · rw [List.map_cons, outside, Match.stop_extent, hstop]
        exact hright
      · rw [Match.start_extent, hfirst]
        omega
    | succ i =>
      have hsides := ih hfound
      rwa [← hstop] at hsides

end Separates

/-- Without limits, an input that is not empty is split at matches that follow one another, none of
them at its end: the pieces are what lies between them, and pieces and matches make up the input.
An empty match leaves no empty piece on either of its sides. -/
theorem split_partition (m : Matcher) (hlimit : m.limits.maxSteps = none) (input : Text)
    (hinput : input.size ≠ 0) :
    ∃ (separators : List Match) (pieces : List Text),
      (m.split input none).result = .ok pieces ∧
      pieces = input.outside 0 (separators.map Match.extent) ∧
      pieces.length = separators.length + 1 ∧
      input.InOrder 0 (separators.map Match.extent) ∧
      (∀ a ∈ separators, ∃ start : Nat, start < input.size ∧ a.start = start ∧
        m.attempt input start = .ok (some a)) ∧
      interleave pieces (separators.map Match.matched) = input ∧
      ∀ (i : Nat) (a : Match), separators[i]? = some a → a.stop = a.start →
        ∃ left right, pieces[i]? = some left ∧ pieces[i + 1]? = some right ∧
          left ≠ #[] ∧ right ≠ #[] := by
  obtain ⟨pieces, hwalk, hpieces⟩ := m.exists_walk hlimit input (Nat.le_refl 0)
  obtain ⟨separators, hseparates, rfl⟩ :=
    hwalk.exists_separates (Nat.le_refl 0) (Nat.zero_le input.size)
  have hinputs : ∀ a ∈ separators, a.input = input := by
    intro a ha
    obtain ⟨_, -, -, hattempt⟩ := hseparates.attempts a ha
    exact input_of_attempt hattempt
  refine ⟨separators, _, ?_, rfl, ?_, hseparates.inOrder, hseparates.attempts, ?_,
    fun i a ha hempty ↦ hseparates.exists_sides ha hempty⟩
  · rw [split_of_ne_zero hinput (by simp [allowed])]
    exact hpieces none (by simp)
  · rw [Text.length_outside, List.length_map]
  · rw [Match.map_matched hinputs]
    exact (Text.interleave_outside (Int.le_refl 0) hseparates.inOrder).trans
      (Text.sliceFrom_zero input)

end Matcher

theorem split_nullableLoop :
    nullableLoopMatcher.limits.maxSteps = none ∧ (#['c', 'a', 'c'] : Text).size ≠ 0 ∧
      ∃ (separators : List Match) (pieces : List Text),
        (nullableLoopMatcher.split #['c', 'a', 'c'] none).result = .ok pieces ∧
        pieces.length = separators.length + 1 ∧
        (∀ a ∈ separators, ∃ start : Nat, start < 3 ∧ a.start = start) ∧
        Text.interleave pieces (separators.map Match.matched) = (#['c', 'a', 'c'] : Text) := by
  obtain ⟨separators, pieces, hsplit, -, hlength, -, hattempts, hinput, -⟩ :=
    nullableLoopMatcher.split_partition rfl #['c', 'a', 'c'] (by decide)
  refine ⟨rfl, by decide, separators, pieces, hsplit, hlength, fun a ha ↦ ?_, hinput⟩
  obtain ⟨start, hstart, hfirst, -⟩ := hattempts a ha
  exact ⟨start, hstart, hfirst⟩

end ExtendedRegex
