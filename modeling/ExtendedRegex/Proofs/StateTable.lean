import ExtendedRegex.Search.StateSet

/-!
The packed words read as a set of pairs. A pair is in the set when its position is one of the
positions of an address and its bit is set; visiting adds one pair and leaves every other pair as it
was, as long as there is room for the address.
-/

set_option autoImplicit false
set_option relaxedAutoImplicit false

namespace ExtendedRegex.StateSet

instance : Membership (Nat × Nat) StateSet :=
  ⟨fun s q ↦ q.2 < s.width ∧ s.marked (s.key q.1 q.2) = true⟩

/-- The words have a bit for every pair with an address below the given number. -/
def HasRoom (s : StateSet) (addresses : Nat) : Prop := addresses * s.width ≤ 32 * s.words.size

variable {s s' : StateSet} {addresses address position : Nat}

theorem mem_iff {q : Nat × Nat} :
    q ∈ s ↔ q.2 < s.width ∧ s.marked (s.key q.1 q.2) = true := Iff.rfl

theorem key_inj {address' position' : Nat} (h : position < s.width) (h' : position' < s.width) :
    s.key address position = s.key address' position' ↔
      address = address' ∧ position = position' := by
  constructor
  · intro heq
    simp only [key] at heq
    have hposition : position = position' := by
      have hmod := congrArg (· % s.width) heq
      simpa [Nat.mul_add_mod_of_lt, Nat.mod_eq_of_lt, h, h'] using hmod
    have hwidth : 0 < s.width := by omega
    exact ⟨Nat.eq_of_mul_eq_mul_right hwidth (by omega), hposition⟩
  · rintro ⟨rfl, rfl⟩
    rfl

theorem key_lt (hroom : s.HasRoom addresses) (haddress : address < addresses)
    (hposition : position < s.width) : s.key address position < 32 * s.words.size := by
  have hnext : (address + 1) * s.width ≤ addresses * s.width := Nat.mul_le_mul_right _ haddress
  have hsucc : (address + 1) * s.width = address * s.width + s.width := Nat.succ_mul _ _
  unfold HasRoom at hroom
  simp only [key]
  omega

theorem width_of_visit {b : Bool} (h : s.visit address position = (b, s')) :
    s'.width = s.width := by
  unfold visit at h
  simp only at h
  split at h
  · split at h
    · obtain ⟨-, rfl⟩ := Prod.mk.inj h
      rfl
    · obtain ⟨-, rfl⟩ := Prod.mk.inj h
      rfl
  · obtain ⟨-, rfl⟩ := Prod.mk.inj h
    rfl

theorem visit_fst_of_lt (h : s.key address position < 32 * s.words.size) :
    (s.visit address position).1 = !s.marked (s.key address position) := by
  have hin : s.key address position / 32 < s.words.size := by omega
  unfold visit
  simp only [hin, ↓reduceDIte]
  split
  · next hzero =>
    have hbit := (and_mask_eq_zero_iff _ _).mp hzero
    simp [marked, hin, hbit]
  · next hone =>
    rw [and_mask_eq_zero_iff] at hone
    simpa [marked, hin] using hone

/-- Visiting a pair of the set changes nothing. -/
theorem visit_of_mem (h : (address, position) ∈ s) : s.visit address position = (false, s) := by
  obtain ⟨-, hmarked⟩ := h
  rcases hvisit : s.visit address position with ⟨b, s'⟩
  cases b with
  | false => rw [eq_of_not_visit hvisit]
  | true =>
    have hnew := (not_marked_of_visit hvisit).1
    rw [hmarked] at hnew
    exact absurd hnew (by decide)

/-- Visiting a pair outside the set adds that pair and no other one. -/
theorem visit_of_not_mem (hroom : s.HasRoom addresses) (haddress : address < addresses)
    (hposition : position < s.width) (hnew : (address, position) ∉ s) :
    ∃ s', s.visit address position = (true, s') ∧ s'.width = s.width ∧ s'.HasRoom addresses ∧
      ∀ q : Nat × Nat, q ∈ s' ↔ q = (address, position) ∨ q ∈ s := by
  have hlt := key_lt hroom haddress hposition
  have hunmarked : s.marked (s.key address position) = false := by
    rw [← Bool.not_eq_true]
    exact fun hmarked ↦ hnew ⟨hposition, hmarked⟩
  have hfirst := visit_fst_of_lt hlt
  rcases hvisit : s.visit address position with ⟨b, s'⟩
  rw [hvisit, hunmarked] at hfirst
  obtain rfl : b = true := hfirst
  have hwidth := width_of_visit hvisit
  refine ⟨s', rfl, hwidth, ?_, fun q ↦ ?_⟩
  · unfold HasRoom at hroom ⊢
    rw [hwidth, (not_marked_of_visit hvisit).2.2]
    exact hroom
  · have hkey : s'.key q.1 q.2 = s.key q.1 q.2 := by rw [key, key, hwidth]
    rw [mem_iff, mem_iff, hwidth, hkey, marked_of_visit hvisit, Bool.or_eq_true, decide_eq_true_iff]
    constructor
    · rintro ⟨hq, hmarked | heq⟩
      · exact Or.inr ⟨hq, hmarked⟩
      · obtain ⟨rfl, rfl⟩ := (key_inj hposition hq).mp heq
        exact Or.inl rfl
    · rintro (rfl | ⟨hq, hmarked⟩)
      · exact ⟨hposition, Or.inr rfl⟩
      · exact ⟨hq, Or.inl hmarked⟩

theorem hasRoom_ofSize (addresses width : Nat) : (ofSize addresses width).HasRoom addresses := by
  simp only [HasRoom, ofSize, Array.size_replicate]
  omega

theorem not_mem_ofSize (addresses width : Nat) (q : Nat × Nat) : q ∉ ofSize addresses width := by
  rintro ⟨-, hmarked⟩
  simp only [marked, ofSize, Array.getD_eq_getD_getElem?, Array.getElem?_replicate] at hmarked
  split at hmarked <;> simp at hmarked

end ExtendedRegex.StateSet
