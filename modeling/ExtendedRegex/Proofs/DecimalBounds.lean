import ExtendedRegex.Proofs.Continuation
import ExtendedRegex.Proofs.RoundTrip
import ExtendedRegex.Proofs.StackShape

/-!
Bounds in decimal. Behind a text that has been read whole, a bound is read by the values of its
numerals, and leading zeros make no difference, as long as the numerals have a value.
-/

set_option autoImplicit false
set_option relaxedAutoImplicit false

namespace ExtendedRegex

open Written (replaceOperand)

/-! ### The text of a bound -/

namespace BoundEnds

/-- The counts with their braces. -/
def braced (b : BoundEnds Numeral) : Text :=
  (('{' : CodeUnit) :: (b.text ++ [('}' : CodeUnit)])).toArray

/-- The same counts without leading zeros. -/
def shortest (b : BoundEnds Numeral) : BoundEnds Numeral := b.map fun d ↦ .ofNat d.value

variable (b : BoundEnds Numeral)

theorem size_braced : b.braced.size = b.text.length + 2 := by
  simp [braced]

theorem unmodifying_braced : b.braced.Unmodifying := by
  have hhead : b.braced[0]? = some ('{' : CodeUnit) := by simp [braced]
  rw [Text.Unmodifying, hhead]
  decide

theorem length_text_shortest_le : b.shortest.text.length ≤ b.text.length := by
  have hlength : ∀ d : Numeral, (Numeral.ofNat d.value).text.length ≤ d.text.length := by
    intro d
    rw [Numeral.text, Numeral.text, List.length_map, List.length_map]
    exact d.length_ofNat_value_le
  cases b with
  | exactly n => exact hlength n
  | atLeast n => simpa [shortest, map, text] using hlength n
  | atMost n => simpa [shortest, map, text] using hlength n
  | between low high =>
    have hlow := hlength low
    have hhigh := hlength high
    simp only [shortest, map, text, List.length_append, List.length_cons]
    omega

theorem map_value_shortest : b.shortest.map Numeral.value = b.map Numeral.value := by
  cases b with
  | exactly | atLeast | atMost | between => simp only [shortest, map, Numeral.value_ofNat]

variable {b}

theorem valued_shortest (h : ∀ d ∈ b.toList, d.Valued) : ∀ d ∈ b.shortest.toList, d.Valued := by
  rw [shortest, toList_map]
  intro d' hd'
  obtain ⟨d, hd, rfl⟩ := List.mem_map.mp hd'
  exact (h d hd).ofNat_value

end BoundEnds

/-! ### Bounds behind a text -/

variable {x : Text} {s : ReadState} {sharing : Sharing} {maxLength : Int}

/-- What a bound does behind a text that has been read whole depends on what it is read as. -/
theorem read_braced (hrun : ReadState.run x {} {} = .ok (s, sharing)) (hmode : s.mode = .normal)
    {b : BoundEnds Numeral} (hlength : (x ++ b.braced).size ≤ maxLength) :
    Regex.read (x ++ b.braced) maxLength =
      Bound.read x.size (x.size + 1 + b.text.length) b.text >>= fun bound ↦
        replaceOperand x.size bound s.stack sharing >>= fun r ↦
          ReadState.result { s with stack := r.1 } r.2 := by
  obtain ⟨offset, mode, level, stack⟩ := s
  obtain rfl : mode = .normal := hmode
  obtain ⟨hoffset, hrun'⟩ := ReadState.run_append (Nat.zero_le _) b.unmodifying_braced hrun
  obtain rfl : offset = x.size := hoffset
  have hpattern : (x ++ b.braced).toList.drop x.size =
      ('{' : CodeUnit) :: (b.text ++ ('}' : CodeUnit) :: []) := by
    simp [BoundEnds.braced]
  have hend : (x ++ b.braced).size = x.size + 1 + b.text.length + 1 := by
    rw [Array.size_append, b.size_braced]
    omega
  have hread : Regex.read (x ++ b.braced) maxLength =
      ReadState.run (x ++ b.braced) {} {} >>= fun r ↦ r.1.result r.2 := by
    simp only [Regex.read, if_neg (Int.not_lt.mpr hlength), bind, Except.bind]
  rw [hread, hrun', Written.run_braces (fun _ hu ↦ Written.plain_of_mem_text hu) hpattern,
    Written.closeBound_unitItems]
  cases Bound.read x.size (x.size + 1 + b.text.length) b.text with
  | error flaw => rfl
  | ok bound =>
    simp only [bind, Except.bind]
    cases replaceOperand x.size bound stack sharing with
    | error flaw => rfl
    | ok r =>
      dsimp only
      rw [ReadState.run_of_size_le (Nat.le_of_eq hend)]
      rfl

/-- Whatever a bound is put behind, its counts are the decimal values of the digits, as long as no
zero stands at a place without a value: leading zeros do not change the tree, a count over the limit
is reported at the opening brace, and otherwise ends in the wrong order at the closing one. -/
theorem parse_numerals (hrun : ReadState.run x {} {} = .ok (s, sharing))
    (hmode : s.mode = .normal) {b : BoundEnds Numeral} (hvalued : ∀ d ∈ b.toList, d.Valued)
    (hlength : (x ++ b.braced).size ≤ maxLength) :
    (∀ e, Regex.parse (x ++ b.shortest.braced) maxLength = .ok e ↔
      Regex.parse (x ++ b.braced) maxLength = .ok e) ∧
    ((∃ d ∈ b.toList, maxRepetition < d.value) →
      Regex.parse (x ++ b.braced) maxLength =
        .error ⟨⟨.countTooLarge, x.size⟩, x ++ b.braced⟩) ∧
    ((∀ d ∈ b.toList, d.value ≤ maxRepetition) → (b.map Numeral.value).Reversed →
      Regex.parse (x ++ b.braced) maxLength =
        .error ⟨⟨.malformed, x.size + 1 + b.text.length⟩, x ++ b.braced⟩) := by
  have hlength' : (x ++ b.shortest.braced).size ≤ maxLength := by
    refine Int.le_trans (Int.ofNat_le.mpr ?_) hlength
    rw [Array.size_append, Array.size_append, b.size_braced, b.shortest.size_braced]
    exact Nat.add_le_add_left (Nat.add_le_add_right b.length_text_shortest_le 2) _
  have hread := BoundEnds.read_eq
    (BoundEnds.counts_valued hvalued x.size (x.size + 1 + b.text.length))
  have hread' := BoundEnds.read_eq (BoundEnds.counts_valued (BoundEnds.valued_shortest hvalued)
    x.size (x.size + 1 + b.shortest.text.length))
  rw [b.map_value_shortest] at hread'
  have hlarge : (∃ n ∈ (b.map Numeral.value).toList, maxRepetition < n) ↔
      ∃ d ∈ b.toList, maxRepetition < d.value := by
    simp [BoundEnds.toList_map]
  refine ⟨fun e ↦ ?_, fun h ↦ ?_, fun hsmall h ↦ ?_⟩
  · rw [Regex.parse_eq_ok_iff, Regex.parse_eq_ok_iff, read_braced hrun hmode hlength,
      read_braced hrun hmode hlength', hread, hread']
    split
    · exact iff_of_false (fun h ↦ nomatch h) (fun h ↦ nomatch h)
    · split
      · exact iff_of_false (fun h ↦ nomatch h) (fun h ↦ nomatch h)
      · exact Iff.rfl
  · have hflaw : Regex.read (x ++ b.braced) maxLength = .error ⟨.countTooLarge, x.size⟩ := by
      rw [read_braced hrun hmode hlength, hread, if_pos (hlarge.mpr h)]
      rfl
    exact Regex.parse_of_read_error hflaw
  · have hnone : ¬ ∃ d ∈ b.toList, maxRepetition < d.value :=
      fun ⟨d, hd, hlt⟩ ↦ Nat.not_lt.mpr (hsmall d hd) hlt
    have hflaw : Regex.read (x ++ b.braced) maxLength =
        .error ⟨.malformed, x.size + 1 + b.text.length⟩ := by
      rw [read_braced hrun hmode hlength, hread, if_neg (hlarge.not.mpr hnone), if_pos h]
      rfl
    exact Regex.parse_of_read_error hflaw

/-- An accepted pattern, such as an atom, is a text that is read whole. -/
theorem exists_run_normal_of_parse {e : Regex} (h : Regex.parse x maxLength = .ok e) :
    ∃ s sharing, ReadState.run x {} {} = .ok (s, sharing) ∧ s.mode = .normal := by
  obtain ⟨s, sharing, hrun, hresult⟩ := exists_run_of_parse h
  obtain ⟨hreached, -⟩ := ReadState.Reached.start.run hrun
  exact ⟨s, sharing, hrun, (ReadState.unclosed_of_result hreached.nested hresult).1⟩

/-- Counts of two, of more than a thousand, and from three down to two, with leading zeros. -/
def zeroTwo : BoundEnds Numeral := .exactly ((Numeral.ofNat 2).withZeros 1)

def zeroThousand : BoundEnds Numeral := .atLeast ((Numeral.ofNat 1001).withZeros 1)

def threeToZeroTwo : BoundEnds Numeral :=
  .between (Numeral.ofNat 3) ((Numeral.ofNat 2).withZeros 1)

/-- Behind the group `(a|[b])`, the bound `{02}` is read as `{2}` is, `{01001,}` is refused at its
opening brace, and `{3,02}` at the closing one. -/
theorem parse_zeroTwo :
    let large : Text := branchedGroup ++ (#['{', '0', '1', '0', '0', '1', ',', '}'] : Text)
    let reversed : Text := branchedGroup ++ (#['{', '3', ',', '0', '2', '}'] : Text)
    (∃ s sharing, ReadState.run branchedGroup {} {} = .ok (s, sharing) ∧ s.mode = .normal) ∧
      (∀ b ∈ [zeroTwo, zeroThousand, threeToZeroTwo], (∀ d ∈ b.toList, d.Valued) ∧
        (branchedGroup ++ b.braced).size ≤ (100000 : Int)) ∧
      (∀ e, Regex.parse (branchedGroup ++ (#['{', '2', '}'] : Text)) 100000 = .ok e ↔
        Regex.parse (branchedGroup ++ (#['{', '0', '2', '}'] : Text)) 100000 = .ok e) ∧
      Regex.parse large 100000 = .error ⟨⟨.countTooLarge, 7⟩, large⟩ ∧
      Regex.parse reversed 100000 = .error ⟨⟨.malformed, 12⟩, reversed⟩ := by
  intro large reversed
  have hlimits : ∀ b ∈ [zeroTwo, zeroThousand, threeToZeroTwo], (∀ d ∈ b.toList, d.Valued) ∧
      (branchedGroup ++ b.braced).size ≤ (100000 : Int) := by
    simp only [List.forall_mem_cons, List.not_mem_nil, false_imp_iff, implies_true, and_true]
    decide
  obtain ⟨htwo, hthousand, hthree⟩ : _ ∧ _ ∧ _ := by
    simpa only [List.forall_mem_cons, List.not_mem_nil, false_imp_iff, implies_true, and_true]
      using hlimits
  obtain ⟨s, sharing, hrun, hmode⟩ := exists_run_normal_of_parse parse_branchedGroup
  exact ⟨⟨s, sharing, hrun, hmode⟩, hlimits, (parse_numerals hrun hmode htwo.1 htwo.2).1,
    (parse_numerals hrun hmode hthousand.1 hthousand.2).2.1 (by decide),
    (parse_numerals hrun hmode hthree.1 hthree.2).2.2 (by decide) (by decide)⟩

/-! ### Counts without a value -/

/-- Where nothing but the operand has been read, a repetition of it is the result. -/
theorem result_replaceOperand {p : Part} (h : sharing.Sound) (hp : sharing.Holds p)
    (r : Written.Repetition) (hfits : p.tree.nodeCount * r.charge ≤ maxExpandedSize)
    (hsize : (Regex.sequence (r.copies p.tree)).nodeCount ≤ maxExpandedSize)
    (offset opening level : Nat) (mode : Mode) :
    (replaceOperand opening r.bound [.part p] sharing >>= fun r ↦
      ReadState.result ⟨offset, mode, level, r.1⟩ r.2) = .ok (.sequence (r.copies p.tree)) := by
  obtain ⟨hmeasure, hgrows⟩ := Sharing.measure_spec h hp
  have hexpand := Bound.makes_expand hgrows.sound (hgrows.holds p hp) r.bound
  rw [r.copies_bound] at hexpand
  rw [← hmeasure] at hfits
  rw [← hexpand.tree_eq] at hsize ⊢
  rw [Written.replaceOperand_bound r rfl hfits opening]
  exact ReadState.result_part hexpand.grows.sound hexpand.holds hsize offset mode level

/-- A count without a value exceeds no limit, and makes no copies: whatever the operand is, it is
lost. -/
theorem read_unvalued (hrun : ReadState.run x {} {} = .ok (s, sharing)) (hmode : s.mode = .normal)
    {d : Numeral} (h : ¬ d.Valued)
    (hlength : (x ++ (BoundEnds.exactly d).braced).size ≤ maxLength) :
    Regex.read (x ++ (BoundEnds.exactly d).braced) maxLength =
      boundOperand s.stack >>= fun (operand, below) ↦
        ReadState.result { s with stack := .part (.leaf .empty) :: below }
          (sharing.measure operand.place).2 := by
  have hbound : Bound.read x.size (x.size + 1 + (BoundEnds.exactly d).text.length)
      (BoundEnds.exactly d).text = .ok ⟨.indeterminate, some .indeterminate⟩ := by
    simp only [Bound.read, BoundEnds.counts_text, BoundEnds.map, Numeral.count_of_not_valued h]
    rfl
  have hreplace : replaceOperand x.size ⟨.indeterminate, some .indeterminate⟩ s.stack sharing =
      boundOperand s.stack >>= fun (operand, below) ↦
        .ok (.part (.leaf .empty) :: below, (sharing.measure operand.place).2) := rfl
  rw [read_braced hrun hmode hlength, hbound]
  simp only [bind, Except.bind, hreplace]
  cases boundOperand s.stack <;> rfl

/-- A count of one behind so many zeros that the first of them has no value. -/
def drownedOne : BoundEnds Numeral := .exactly ((Numeral.ofNat 1).withZeros 309)

/-- The letter in front of such a count is lost. -/
theorem parse_drownedOne :
    drownedOne.shortest = .exactly (.ofNat 1) ∧
      Regex.parse (#[('a' : CodeUnit)] ++ drownedOne.shortest.braced) 100000 =
        .ok (.literal (.unit 'a')) ∧
      Regex.parse (#[('a' : CodeUnit)] ++ drownedOne.braced) 100000 = .ok .empty := by
  have hshortest : drownedOne.shortest = .exactly (.ofNat 1) := by
    rw [drownedOne, BoundEnds.shortest, BoundEnds.map, Numeral.value_withZeros,
      Numeral.value_ofNat]
  have hrun : ReadState.run #[('a' : CodeUnit)] {} {} =
      .ok (⟨1, .normal, 0, [.part (.leaf (.literal (.unit 'a')))]⟩, {}) := by
    rw [ReadState.run_of_step (by decide) rfl, ReadState.run_of_size_le (by decide)]
    rfl
  have hlength : (#[('a' : CodeUnit)] ++ drownedOne.braced).size ≤ (100000 : Int) := by
    rw [Array.size_append, drownedOne.size_braced, drownedOne, BoundEnds.text, Numeral.text,
      List.length_map, Numeral.chars_withZeros, List.length_append, List.length_replicate]
    decide
  have hleaf := Sharing.sound_empty.holds_leaf (e := .literal (.unit 'a')) rfl
  refine ⟨hshortest, ?_, ?_⟩
  · have hone := Written.Repetition.read_bound (.exactly 1 (by decide)) 1 3
    rw [hshortest, Regex.parse_eq_ok_iff, read_braced hrun rfl (by decide)]
    exact (congrArg (· >>= _) hone).trans
      (result_replaceOperand Sharing.sound_empty hleaf _ (by decide) (by decide) 1 1 0 .normal)
  · have hunvalued := Numeral.not_valued_withZeros (Nat.le_refl 309) (.ofNat 1)
    obtain ⟨-, hgrows⟩ := Sharing.measure_spec Sharing.sound_empty hleaf
    have hempty := hgrows.sound.holds_leaf (e := .empty) rfl
    rw [Regex.parse_eq_ok_iff]
    exact (read_unvalued hrun rfl hunvalued hlength).trans
      (ReadState.result_part hgrows.sound hempty (by decide) 1 .normal 0)

end ExtendedRegex
