import ExtendedRegex.Proofs.StateTable

/-!
Visits one after another. A set that has room for some addresses holds exactly the pairs that have
been visited, so a visit is answered by whether the same pair was visited before. Every pair has a
bit of its own among the words, the highest bit of a word included, and nothing changes if the words
are read as signed numbers, where that bit is the sign.
-/

set_option autoImplicit false
set_option relaxedAutoImplicit false

namespace ExtendedRegex.StateSet

variable {s : StateSet} {addresses width address position key key' : Nat}
  {visits : List (Nat × Nat)} {q : Nat × Nat}

/-! ### Bits of their own -/

theorem mask_ne_zero (key : Nat) : mask key ≠ 0 := by
  intro hzero
  have hbit := testBit_mask key (key % 32)
  rw [hzero] at hbit
  simp at hbit

/-- Two keys of one word have no bit in common. -/
theorem mask_and_mask (hword : key / 32 = key' / 32) (hne : key ≠ key') :
    mask key &&& mask key' = 0 := by
  rw [and_mask_eq_zero_iff, testBit_mask, decide_eq_false_iff_not]
  omega

/-! ### Signed words -/

/-- The mask of a key as a signed number. That of the highest bit is negative. -/
def signedMask (key : Nat) : Int32 := 1 <<< Int32.ofNat (key % 32)

/-- A visit that computes with the words as signed numbers. -/
def signedVisit (s : StateSet) (address position : Nat) : Bool × StateSet :=
  let key := s.key address position
  let word := (s.words.getD (key / 32) 0).toInt32
  if word &&& signedMask key = 0 then
    (true, { s with words := s.words.setIfInBounds (key / 32) (word ||| signedMask key).toUInt32 })
  else (false, s)

theorem toUInt32_signedMask (key : Nat) : (signedMask key).toUInt32 = mask key := by
  have hbits : ∀ bit < 32, ((1 : Int32) <<< Int32.ofNat bit).toUInt32 = 1 <<< bit.toUInt32 := by
    decide
  exact hbits (key % 32) (Nat.mod_lt _ (by decide))

theorem signedMask_neg_iff (key : Nat) : signedMask key < 0 ↔ key % 32 = 31 := by
  have hbits : ∀ bit < 32, (1 : Int32) <<< Int32.ofNat bit < 0 ↔ bit = 31 := by decide
  exact hbits (key % 32) (Nat.mod_lt _ (by decide))

theorem and_signedMask_eq_zero_iff (word : UInt32) (key : Nat) :
    word.toInt32 &&& signedMask key = 0 ↔ word &&& mask key = 0 := by
  have hbits : (word.toInt32 &&& signedMask key).toUInt32 = word &&& mask key := by
    rw [Int32.toUInt32_and, toUInt32_signedMask, UInt32.toUInt32_toInt32]
  rw [← hbits]
  constructor
  · intro hzero
    rw [hzero]
    rfl
  · intro hzero
    rw [← Int32.toInt32_toUInt32 (word.toInt32 &&& signedMask key), hzero]
    rfl

theorem signedVisit_of_lt (h : s.key address position / 32 < s.words.size) :
    s.signedVisit address position = s.visit address position := by
  have hword : s.words.getD (s.key address position / 32) 0 =
      s.words[s.key address position / 32] := by
    rw [Array.getD_eq_getD_getElem?, Array.getElem?_eq_getElem h, Option.getD_some]
  simp only [signedVisit, visit, hword, h, ↓reduceDIte, and_signedMask_eq_zero_iff,
    Int32.toUInt32_or, toUInt32_signedMask, UInt32.toUInt32_toInt32, Array.setIfInBounds]

/-! ### Sequences -/

/-- The set that some visits leave, whatever their answers are. -/
def after (s : StateSet) (visits : List (Nat × Nat)) : StateSet :=
  visits.foldl (fun s q ↦ (s.visit q.1 q.2).2) s

/-- A set with room for some addresses, made up of the pairs of some visits. -/
structure Holds (s : StateSet) (addresses width : Nat) (visits : List (Nat × Nat)) : Prop where
  width_eq : s.width = width
  size_eq : s.words.size = (addresses * width + 31) / 32
  mem_iff : ∀ q : Nat × Nat, q ∈ s ↔ q ∈ visits

theorem holds_ofSize (addresses width : Nat) :
    (ofSize addresses width).Holds addresses width [] where
  width_eq := rfl
  size_eq := Array.size_replicate
  mem_iff q := by simp [not_mem_ofSize]

theorem Holds.hasRoom (h : s.Holds addresses width visits) : s.HasRoom addresses := by
  rw [HasRoom, h.width_eq, h.size_eq]
  omega

/-- One more visit adds its pair and keeps the number of words. -/
theorem Holds.visit (h : s.Holds addresses width visits) (haddress : q.1 < addresses)
    (hposition : q.2 < width) :
    (s.visit q.1 q.2).2.Holds addresses width (visits ++ [q]) := by
  by_cases hmem : q ∈ s
  · rw [visit_of_mem hmem]
    refine ⟨h.width_eq, h.size_eq, fun r ↦ ?_⟩
    rw [h.mem_iff, List.mem_append, List.mem_singleton]
    exact ⟨.inl, fun hr ↦ hr.elim id fun hr ↦ hr ▸ (h.mem_iff q).mp hmem⟩
  · obtain ⟨s', hvisit, hwidth, -, hmems⟩ :=
      visit_of_not_mem h.hasRoom haddress (h.width_eq ▸ hposition) hmem
    rw [hvisit]
    refine ⟨hwidth.trans h.width_eq, (not_marked_of_visit hvisit).2.2.trans h.size_eq,
      fun r ↦ ?_⟩
    rw [hmems, h.mem_iff, List.mem_append, List.mem_singleton, or_comm]

theorem Holds.after {before : List (Nat × Nat)} (h : s.Holds addresses width before)
    (hvisits : ∀ q ∈ visits, q.1 < addresses ∧ q.2 < width) :
    (s.after visits).Holds addresses width (before ++ visits) := by
  induction visits generalizing s before with
  | nil => rwa [List.append_nil]
  | cons q visits ih =>
    obtain ⟨hq, hrest⟩ := List.forall_mem_cons.mp hvisits
    rw [List.append_cons]
    exact ih (h.visit hq.1 hq.2) hrest

theorem Holds.visit_iff (h : s.Holds addresses width visits) (haddress : q.1 < addresses)
    (hposition : q.2 < width) :
    s.key q.1 q.2 / 32 < s.words.size ∧ ((s.visit q.1 q.2).1 = true ↔ q ∉ visits) := by
  have hposition' : q.2 < s.width := h.width_eq ▸ hposition
  have hlt := key_lt h.hasRoom haddress hposition'
  refine ⟨by omega, ?_⟩
  rw [visit_fst_of_lt hlt, ← h.mem_iff, StateSet.mem_iff, Bool.not_eq_true', Bool.eq_false_iff]
  exact ⟨fun hnew hmem ↦ hnew hmem.2, fun hnew hmarked ↦ hnew ⟨hposition', hmarked⟩⟩

/-- In a set with room for some addresses, each with the positions from zero to a size, every visit
touches a word that is there, and is answered by whether the pair is new, also if the words are
signed. The bits of different pairs are different. -/
theorem visits_exact (addresses size : Nat) :
    let empty := ofSize addresses (size + 1)
    (∀ visits : List (Nat × Nat), (∀ q ∈ visits, q.1 < addresses ∧ q.2 ≤ size) →
      ∀ before q behind, visits = before ++ q :: behind →
        (empty.after before).words.size = empty.words.size ∧
        (empty.after before).key q.1 q.2 / 32 < empty.words.size ∧
        (((empty.after before).visit q.1 q.2).1 = true ↔ q ∉ before) ∧
        (empty.after before).signedVisit q.1 q.2 = (empty.after before).visit q.1 q.2) ∧
    ∀ q q' : Nat × Nat, q.2 ≤ size → q'.2 ≤ size → q ≠ q' →
      empty.key q.1 q.2 / 32 = empty.key q'.1 q'.2 / 32 →
        mask (empty.key q.1 q.2) ≠ 0 ∧
        mask (empty.key q.1 q.2) &&& mask (empty.key q'.1 q'.2) = 0 := by
  intro empty
  refine ⟨fun visits hvisits before q behind hsplit ↦ ?_, fun q q' hq hq' hne hword ↦ ?_⟩
  · have hwithin : ∀ r ∈ before ++ q :: behind, r.1 < addresses ∧ r.2 < size + 1 :=
      fun r hr ↦ ⟨(hvisits r (hsplit ▸ hr)).1, Nat.lt_succ_of_le (hvisits r (hsplit ▸ hr)).2⟩
    obtain ⟨haddress, hposition⟩ := hwithin q (by simp)
    have hholds := (holds_ofSize addresses (size + 1)).after
      fun r hr ↦ hwithin r (List.mem_append_left _ hr)
    rw [List.nil_append] at hholds
    have hsize : (empty.after before).words.size = empty.words.size :=
      hholds.size_eq.trans (holds_ofSize _ _).size_eq.symm
    obtain ⟨hinside, hanswer⟩ := hholds.visit_iff haddress hposition
    exact ⟨hsize, hsize ▸ hinside, hanswer, signedVisit_of_lt hinside⟩
  · refine ⟨mask_ne_zero _, mask_and_mask hword fun hkey ↦ hne ?_⟩
    obtain ⟨haddress, hposition⟩ :=
      (key_inj (Nat.lt_succ_of_le hq) (Nat.lt_succ_of_le hq')).mp hkey
    exact Prod.ext haddress hposition

/-- Two addresses with 32 positions each, where the last position of an address has the sign of a
word. It is new at either address, and visited again at the first. -/
theorem visits_exact_lastPosition :
    (∀ q ∈ [(0, 31), (1, 31), (0, 31)], q.1 < 2 ∧ q.2 ≤ 31) ∧
      signedMask ((ofSize 2 32).key 0 31) < 0 ∧
      (((ofSize 2 32).after [(0, 31)]).visit 1 31).1 = true ∧
      ¬ (((ofSize 2 32).after [(0, 31), (1, 31)]).visit 0 31).1 = true ∧
      mask ((ofSize 2 32).key 0 31) &&& mask ((ofSize 2 32).key 0 30) = 0 := by
  have hvisits : ∀ q ∈ [(0, 31), (1, 31), (0, 31)], q.1 < 2 ∧ q.2 ≤ 31 := by decide
  obtain ⟨hsequence, hbits⟩ := visits_exact 2 31
  obtain ⟨-, -, hsecond, -⟩ := hsequence _ hvisits [(0, 31)] (1, 31) [(0, 31)] rfl
  obtain ⟨-, -, hagain, -⟩ := hsequence _ hvisits [(0, 31), (1, 31)] (0, 31) [] rfl
  refine ⟨hvisits, (signedMask_neg_iff _).mpr (by decide), hsecond.mpr (by decide), fun hnew ↦ ?_,
    (hbits (0, 31) (0, 30) (by decide) (by decide) (by decide) (by decide)).2⟩
  exact hagain.mp hnew List.mem_cons_self

end ExtendedRegex.StateSet
