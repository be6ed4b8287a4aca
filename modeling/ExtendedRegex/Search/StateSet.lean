/-!
Sets of pairs of an address and a position, packed into words of 32 bits. Visiting a pair that is
not in the set puts it there, and leaves fewer pairs to visit.
-/

set_option autoImplicit false
set_option relaxedAutoImplicit false

namespace ExtendedRegex

structure StateSet where
  /-- The number of positions of each address. -/
  width : Nat
  words : Array UInt32

namespace StateSet

/-- Room for the given number of addresses, each with the given number of positions. -/
def ofSize (addresses width : Nat) : StateSet :=
  ⟨width, Array.replicate ((addresses * width + 31) / 32) 0⟩

def key (s : StateSet) (address position : Nat) : Nat := address * s.width + position

/-- The word with the bit of a key. -/
def mask (key : Nat) : UInt32 := 1 <<< (key % 32).toUInt32

/-- Whether a pair is new to the set, and the set with the pair in it. Pairs that the set has no room
for are not new. -/
def visit (s : StateSet) (address position : Nat) : Bool × StateSet :=
  let key := s.key address position
  if h : key / 32 < s.words.size then
    let word := s.words[key / 32]
    if word &&& mask key = 0 then
      (true, { s with words := s.words.set (key / 32) (word ||| mask key) })
    else (false, s)
  else (false, s)

def marked (s : StateSet) (key : Nat) : Bool :=
  (s.words.getD (key / 32) 0).toNat.testBit (key % 32)

theorem testBit_mask (key bit : Nat) :
    (mask key).toNat.testBit bit = decide (key % 32 = bit) := by
  have hlt : key % 32 < 32 := Nat.mod_lt _ (by decide)
  have hpow : 2 ^ (key % 32) < 2 ^ 32 := Nat.pow_lt_pow_right (by decide) hlt
  have hsmall : key % 32 % 2 ^ 32 % 32 = key % 32 := by omega
  have hmask : (mask key).toNat = 2 ^ (key % 32) := by
    simp only [mask, UInt32.toNat_shiftLeft, Nat.toUInt32, UInt32.toNat_ofNat',
      UInt32.reduceToNat, hsmall, Nat.shiftLeft_eq, Nat.one_mul]
    exact Nat.mod_eq_of_lt hpow
  rw [hmask, Nat.testBit_two_pow]

theorem and_mask_eq_zero_iff (word : UInt32) (key : Nat) :
    word &&& mask key = 0 ↔ word.toNat.testBit (key % 32) = false := by
  rw [← UInt32.toNat_inj, UInt32.toNat_and, UInt32.toNat_zero]
  constructor
  · intro h
    simpa [testBit_mask] using congrArg (Nat.testBit · (key % 32)) h
  · intro h
    apply Nat.eq_of_testBit_eq
    intro bit
    by_cases hbit : key % 32 = bit
    · simp [← hbit, h]
    · simp [testBit_mask, hbit]

theorem marked_of_visit {s s' : StateSet} {address position : Nat}
    (h : s.visit address position = (true, s')) (key : Nat) :
    s'.marked key = (s.marked key || decide (s.key address position = key)) := by
  unfold visit at h
  simp only at h
  split at h
  · next hin =>
    split at h
    · simp only [Prod.mk.injEq, true_and] at h
      subst h
      simp only [marked, Array.getD_eq_getD_getElem?, Array.getElem?_set]
      by_cases hword : s.key address position / 32 = key / 32
      · have hkey : (s.key address position % 32 = key % 32) ↔ s.key address position = key := by
          omega
        have hin' : key / 32 < s.words.size := hword ▸ hin
        simp [hword, hin', testBit_mask, hkey]
      · have hkey : s.key address position ≠ key := fun hk ↦ hword (by rw [hk])
        simp [hword, hkey]
    · simp at h
  · simp at h

theorem not_marked_of_visit {s s' : StateSet} {address position : Nat}
    (h : s.visit address position = (true, s')) :
    s.marked (s.key address position) = false ∧
      s.key address position < 32 * s.words.size ∧ s'.words.size = s.words.size := by
  unfold visit at h
  simp only at h
  split at h
  · next hin =>
    split at h
    · next hword =>
      simp only [Prod.mk.injEq, true_and] at h
      subst h
      refine ⟨?_, by omega, by simp⟩
      simpa [marked, hin] using (and_mask_eq_zero_iff _ _).mp hword
    · simp at h
  · simp at h

theorem eq_of_not_visit {s s' : StateSet} {address position : Nat}
    (h : s.visit address position = (false, s')) : s' = s := by
  unfold visit at h
  simp only at h
  split at h
  · split at h
    · simp at h
    · simpa using h.symm
  · simpa using h.symm

/-- The keys that are not in the set yet. -/
def free (s : StateSet) : List Nat :=
  (List.range (32 * s.words.size)).filter fun key ↦ !s.marked key

theorem length_free_lt_of_visit {s s' : StateSet} {address position : Nat}
    (h : s.visit address position = (true, s')) : s'.free.length < s.free.length := by
  obtain ⟨hnew, hlt, hsize⟩ := not_marked_of_visit h
  have hfree : s'.free = s.free.filter fun key ↦ !decide (s.key address position = key) := by
    simp only [free, hsize, List.filter_filter, marked_of_visit h]
    congr 1
    funext key
    simp [Bool.and_comm]
  rw [hfree, List.length_filter_lt_length_iff_exists]
  exact ⟨s.key address position, by simp [free, hnew, hlt], by simp⟩

end StateSet

end ExtendedRegex
