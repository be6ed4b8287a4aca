import ExtendedRegex.Pattern.Bound
import Mathlib.Algebra.Group.Nat.Defs
import Mathlib.Data.List.TakeDrop
import Mathlib.Data.List.TakeWhile

/-!
Numerals. A string of digits counts to its decimal value, with leading zeros or without, unless a
zero stands at a place that has no value of its own. Between the braces of a bound there is one
numeral, or two of them with a comma in between of which one may be missing.
-/

set_option autoImplicit false
set_option relaxedAutoImplicit false

namespace ExtendedRegex

/-! ### Digits -/

theorem digit?_ofChar {c : Char} (h : c.isDigit) :
    (CodeUnit.ofChar c).digit? = some (c.toNat - '0'.toNat) := by
  have hrange := Char.isDigit_iff_toNat.mp h
  have hvalue : (CodeUnit.ofChar c).toNat = c.toNat := by
    have hnine : '9'.toNat = 57 := rfl
    rw [CodeUnit.ofChar, Nat.toUInt16, UInt16.toNat_ofNat']
    omega
  rw [CodeUnit.digit?, if_pos, hvalue]
  rw [UInt16.le_iff_toNat_le, UInt16.le_iff_toNat_le, hvalue]
  exact hrange

theorem exists_digitChar {c : Char} (h : c.isDigit) : ∃ d < 10, c = d.digitChar := by
  obtain ⟨hzero, hnine⟩ := Char.isDigit_iff_toNat.mp h
  have hzero' : '0'.toNat = 48 := rfl
  have hnine' : '9'.toNat = 57 := rfl
  have hlt : c.toNat - 48 < 10 := by omega
  refine ⟨c.toNat - 48, hlt, Char.toNat_inj.mp ?_⟩
  rw [Nat.toNat_digitChar_of_lt_ten hlt]
  omega

theorem ofDigitChars_lt {chars : List Char} (h : ∀ c ∈ chars, c.isDigit) (n : Nat) :
    Nat.ofDigitChars 10 chars n < (n + 1) * 10 ^ chars.length := by
  induction chars generalizing n with
  | nil =>
    rw [Nat.ofDigitChars_nil, List.length_nil, Nat.pow_zero, Nat.mul_one]
    exact Nat.lt_succ_self n
  | cons c rest ih =>
    obtain ⟨d, hd, rfl⟩ := exists_digitChar (h c List.mem_cons_self)
    have hle : 10 * n + d + 1 ≤ (n + 1) * 10 := by omega
    rw [Nat.ofDigitChars_cons_digitChar_of_lt_ten hd]
    calc Nat.ofDigitChars 10 rest (10 * n + d)
      _ < (10 * n + d + 1) * 10 ^ rest.length := ih (fun c hc ↦ h c (List.mem_cons_of_mem _ hc)) _
      _ ≤ (n + 1) * 10 * 10 ^ rest.length := Nat.mul_le_mul_right _ hle
      _ = (n + 1) * 10 ^ (rest.length + 1) := by rw [Nat.mul_assoc, Nat.pow_succ']

/-- Digits behind the shortest numeral of a positive number make a shortest numeral. -/
theorem toDigits_append_digits {chars : List Char} (h : ∀ c ∈ chars, c.isDigit) {n : Nat}
    (hn : 0 < n) : Nat.toDigits 10 n ++ chars = Nat.toDigits 10 (Nat.ofDigitChars 10 chars n) := by
  induction chars generalizing n with
  | nil => rw [Nat.ofDigitChars_nil, List.append_nil]
  | cons c rest ih =>
    obtain ⟨d, hd, rfl⟩ := exists_digitChar (h c List.mem_cons_self)
    have hpos : 0 < 10 * n + d := by omega
    rw [Nat.ofDigitChars_cons_digitChar_of_lt_ten hd,
      ← ih (fun c hc ↦ h c (List.mem_cons_of_mem _ hc)) hpos,
      ← Nat.toDigits_append_toDigits (by decide) hn hd, Nat.toDigits_of_lt_base hd,
      List.append_assoc, List.singleton_append]

theorem toDigits_ofDigitChars {c : Char} {rest : List Char} (h : ∀ c' ∈ c :: rest, c'.isDigit)
    (hzero : c ≠ '0') : Nat.toDigits 10 (Nat.ofDigitChars 10 (c :: rest) 0) = c :: rest := by
  obtain ⟨d, hd, rfl⟩ := exists_digitChar (h c List.mem_cons_self)
  have hpos : 0 < d := Nat.pos_of_ne_zero fun hd ↦ hzero (hd ▸ rfl)
  rw [Nat.ofDigitChars_cons_digitChar_of_lt_ten hd, Nat.mul_zero, Nat.zero_add,
    ← toDigits_append_digits (fun c hc ↦ h c (List.mem_cons_of_mem _ hc)) hpos,
    Nat.toDigits_of_lt_base hd, List.singleton_append]

/-! ### Numerals -/

/-- A string of decimal digits that is not empty. -/
@[ext]
structure Numeral where
  chars : List Char
  isDigit : ∀ c ∈ chars, c.isDigit
  ne_nil : chars ≠ []

namespace Numeral

def text (d : Numeral) : List CodeUnit := d.chars.map CodeUnit.ofChar

/-- The digits, the highest place first. -/
def digits (d : Numeral) : List Nat := d.chars.map fun c ↦ c.toNat - '0'.toNat

def value (d : Numeral) : Nat := Nat.ofDigitChars 10 d.chars 0

/-- The shortest numeral of a number. -/
def ofNat (n : Nat) : Numeral :=
  ⟨Nat.toDigits 10 n, fun _ hc ↦ Nat.isDigit_of_mem_toDigits (by decide) (by decide) hc,
    Nat.toDigits_ne_nil⟩

/-- No zero stands above the lowest places, those that have a value of their own. A leading zero below
them does no harm. -/
def Valued (d : Numeral) : Prop := '0' ∉ d.chars.take (d.chars.length - Count.placeCount)

instance : DecidablePred Valued := fun d ↦
  inferInstanceAs (Decidable ('0' ∉ d.chars.take (d.chars.length - Count.placeCount)))

theorem digits_ne_nil (d : Numeral) : d.digits ≠ [] := by
  simpa [digits] using d.ne_nil

theorem mapM_text (d : Numeral) : d.text.mapM CodeUnit.digit? = some d.digits := by
  have hdigit := d.isDigit
  rw [text, digits]
  generalize d.chars = chars at hdigit
  induction chars with
  | nil => rfl
  | cons c rest ih =>
    rw [List.map_cons, List.mapM_cons, digit?_ofChar (hdigit c List.mem_cons_self),
      ih fun c hc ↦ hdigit c (List.mem_cons_of_mem _ hc)]
    rfl

theorem isSome_digit?_of_mem_text {d : Numeral} {u : CodeUnit} (h : u ∈ d.text) :
    u.digit?.isSome := by
  obtain ⟨c, hc, rfl⟩ := List.mem_map.mp h
  rw [digit?_ofChar (d.isDigit c hc)]
  rfl

theorem ne_comma_of_mem_text {d : Numeral} {u : CodeUnit} (h : u ∈ d.text) :
    u ≠ (',' : CodeUnit) := by
  rintro rfl
  have hcomma := isSome_digit?_of_mem_text h
  revert hcomma
  decide

theorem span_text (d : Numeral) :
    d.text.span (fun u ↦ u ≠ (',' : CodeUnit)) = (d.text, []) := by
  have hplain : ∀ u ∈ d.text, decide (u ≠ (',' : CodeUnit)) = true :=
    fun u hu ↦ decide_eq_true (ne_comma_of_mem_text hu)
  rw [List.span_eq_takeWhile_dropWhile, List.takeWhile_eq_self_iff.mpr hplain,
    List.dropWhile_eq_nil_iff.mpr hplain]

theorem span_text_comma (d : Numeral) (rest : List CodeUnit) :
    (d.text ++ (',' : CodeUnit) :: rest).span (fun u ↦ u ≠ (',' : CodeUnit)) =
      (d.text, (',' : CodeUnit) :: rest) := by
  have hplain : ∀ u ∈ d.text, decide (u ≠ (',' : CodeUnit)) = true :=
    fun u hu ↦ decide_eq_true (ne_comma_of_mem_text hu)
  rw [List.span_eq_takeWhile_dropWhile, List.takeWhile_append_of_pos hplain,
    List.dropWhile_append_of_pos hplain]
  simp

theorem value_ofNat (n : Nat) : (ofNat n).value = n := Nat.ofDigitChars_ten_toDigits

theorem value_lt (d : Numeral) : d.value < 10 ^ d.chars.length := by
  have hlt := ofDigitChars_lt d.isDigit 0
  rwa [Nat.zero_add, Nat.one_mul] at hlt

theorem length_ofNat_value_le (d : Numeral) :
    (ofNat d.value).chars.length ≤ d.chars.length :=
  (Nat.length_toDigits_le_iff (by decide) (List.length_pos_iff.mpr d.ne_nil)).mpr d.value_lt

theorem valued_of_length_le {d : Numeral} (h : d.chars.length ≤ Count.placeCount) : d.Valued := by
  rw [Valued, Nat.sub_eq_zero_of_le h, List.take_zero]
  exact List.not_mem_nil

/-- Numbers within the limit are far shorter than the places that have a value. -/
theorem valued_ofNat {n : Nat} (h : n ≤ maxRepetition) : (ofNat n).Valued := by
  have hlt : n < 10 ^ Count.placeCount := by
    calc n
      _ ≤ maxRepetition := h
      _ < 10 ^ 4 := by decide
      _ ≤ 10 ^ Count.placeCount := Nat.pow_le_pow_right (by decide) (by decide)
  exact valued_of_length_le
    ((Nat.length_toDigits_le_iff (by decide) (by decide)).mpr hlt)

/-- What has a value is also counted when it is written without leading zeros. -/
theorem Valued.ofNat_value {d : Numeral} (h : d.Valued) : (ofNat d.value).Valued := by
  rcases Nat.lt_or_ge Count.placeCount d.chars.length with hlength | hlength
  · -- The highest digit is not a zero, so there are no leading zeros.
    obtain ⟨c, rest, hchars⟩ := List.exists_cons_of_ne_nil d.ne_nil
    obtain ⟨k, hk⟩ := Nat.exists_eq_succ_of_ne_zero (Nat.sub_ne_zero_of_lt hlength)
    have hzero : c ≠ '0' := by
      rintro rfl
      rw [Valued, hk, hchars, List.take_succ_cons] at h
      exact h List.mem_cons_self
    have hshortest : ofNat d.value = d := by
      refine Numeral.ext ?_
      rw [ofNat, value, hchars]
      exact toDigits_ofDigitChars (hchars ▸ d.isDigit) hzero
    rwa [hshortest]
  · exact valued_of_length_le (Nat.le_trans d.length_ofNat_value_le hlength)

theorem zero_mem_take_digits (d : Numeral) (k : Nat) :
    0 ∈ d.digits.take k ↔ '0' ∈ d.chars.take k := by
  rw [digits, ← List.map_take, List.mem_map]
  constructor
  · rintro ⟨c, hc, hzero⟩
    obtain ⟨n, hn, rfl⟩ := exists_digitChar (d.isDigit c (List.mem_of_mem_take hc))
    obtain rfl : n = 0 := (Nat.toNat_digitChar_sub_48_of_lt_ten hn).symm.trans hzero
    exact hc
  · exact fun h ↦ ⟨'0', h, rfl⟩

theorem count_of_valued {d : Numeral} (h : d.Valued) :
    Count.ofDigits d.digits = .exact d.value := by
  have hlength : d.digits.length = d.chars.length := List.length_map _
  rw [Count.ofDigits, hlength, if_neg ((d.zero_mem_take_digits _).not.mpr h), digits,
    List.foldl_map, value, Nat.ofDigitChars_eq_foldl]

theorem count_of_not_valued {d : Numeral} (h : ¬ d.Valued) :
    Count.ofDigits d.digits = .indeterminate := by
  have hlength : d.digits.length = d.chars.length := List.length_map _
  rw [Count.ofDigits, hlength, if_pos ((d.zero_mem_take_digits _).mpr (not_not.mp h))]

/-- More zeros in front. -/
def withZeros (k : Nat) (d : Numeral) : Numeral where
  chars := List.replicate k '0' ++ d.chars
  isDigit := by
    intro c hc
    rcases List.mem_append.mp hc with hc | hc
    · rw [List.eq_of_mem_replicate hc]
      decide
    · exact d.isDigit c hc
  ne_nil := List.append_ne_nil_of_right_ne_nil _ d.ne_nil

theorem chars_withZeros (k : Nat) (d : Numeral) :
    (d.withZeros k).chars = List.replicate k '0' ++ d.chars := rfl

theorem value_withZeros (k : Nat) (d : Numeral) : (d.withZeros k).value = d.value := by
  rw [value, chars_withZeros, Nat.ofDigitChars_append, Nat.ofDigitChars_replicate_zero,
    Nat.mul_zero, value]

/-- With enough zeros in front, the first of them has no value. -/
theorem not_valued_withZeros {k : Nat} (h : Count.placeCount ≤ k) (d : Numeral) :
    ¬ (d.withZeros k).Valued := by
  have hlength : Count.placeCount < (d.withZeros k).chars.length := by
    have hpos := List.length_pos_iff.mpr d.ne_nil
    rw [chars_withZeros, List.length_append, List.length_replicate]
    omega
  obtain ⟨j, hj⟩ := Nat.exists_eq_succ_of_ne_zero (Nat.sub_ne_zero_of_lt hlength)
  obtain ⟨l, rfl⟩ := Nat.exists_eq_succ_of_ne_zero
    (Nat.ne_of_gt (Nat.lt_of_lt_of_le (by decide : 0 < Count.placeCount) h))
  rw [Valued, not_not, hj, chars_withZeros, List.replicate_succ, List.cons_append,
    List.take_succ_cons]
  exact List.mem_cons_self

end Numeral

/-! ### Ends of a bound -/

/-- What stands between the braces of a bound: one for both ends, or two with a comma between them
of which one may be missing. -/
inductive BoundEnds (α : Type) where
  | exactly (n : α)
  | atLeast (low : α)
  | atMost (high : α)
  | between (low high : α)

namespace BoundEnds

variable {α β : Type}

def map (f : α → β) : BoundEnds α → BoundEnds β
  | exactly n => exactly (f n)
  | atLeast low => atLeast (f low)
  | atMost high => atMost (f high)
  | between low high => between (f low) (f high)

def toList : BoundEnds α → List α
  | exactly n | atLeast n | atMost n => [n]
  | between low high => [low, high]

theorem toList_map (f : α → β) (b : BoundEnds α) : (b.map f).toList = b.toList.map f := by
  cases b <;> rfl

theorem map_value_ofNat (b : BoundEnds Nat) : (b.map Numeral.ofNat).map Numeral.value = b := by
  cases b with
  | exactly | atLeast | atMost | between => simp only [map, Numeral.value_ofNat]

def text : BoundEnds Numeral → List CodeUnit
  | exactly n => n.text
  | atLeast low => low.text ++ [(',' : CodeUnit)]
  | atMost high => (',' : CodeUnit) :: high.text
  | between low high => low.text ++ (',' : CodeUnit) :: high.text

def bound : BoundEnds Count → Bound
  | exactly n => ⟨n, some n⟩
  | atLeast low => ⟨low, none⟩
  | atMost high => ⟨.exact 0, some high⟩
  | between low high => ⟨low, some high⟩

/-- Whether the upper end is below the lower one. -/
def Reversed : BoundEnds Nat → Prop
  | between low high => high < low
  | exactly _ | atLeast _ | atMost _ => False

instance : DecidablePred Reversed
  | between low high => inferInstanceAs (Decidable (high < low))
  | exactly _ | atLeast _ | atMost _ => inferInstanceAs (Decidable False)

theorem counts_text (b : BoundEnds Numeral) (opening closing : Nat) :
    Bound.counts opening closing b.text =
      .ok (b.map fun d ↦ Count.ofDigits d.digits).bound := by
  cases b with
  | exactly n =>
    obtain ⟨d, rest, hdigits⟩ := List.exists_cons_of_ne_nil n.digits_ne_nil
    rw [text, Bound.counts, n.span_text]
    dsimp only
    rw [n.mapM_text, map, bound, hdigits]
  | atLeast low =>
    obtain ⟨d, rest, hdigits⟩ := List.exists_cons_of_ne_nil low.digits_ne_nil
    rw [text, Bound.counts, low.span_text_comma]
    dsimp only
    rw [low.mapM_text, map, bound, hdigits]
    rfl
  | atMost high =>
    obtain ⟨d, rest, hdigits⟩ := List.exists_cons_of_ne_nil high.digits_ne_nil
    have hspan : ((',' : CodeUnit) :: high.text).span (fun u ↦ u ≠ (',' : CodeUnit)) =
        ([], (',' : CodeUnit) :: high.text) := by
      simp [List.span_eq_takeWhile_dropWhile]
    rw [text, Bound.counts, hspan]
    dsimp only
    rw [high.mapM_text, map, bound, hdigits]
    rfl
  | between low high =>
    obtain ⟨d, rest, hdigits⟩ := List.exists_cons_of_ne_nil low.digits_ne_nil
    obtain ⟨d', rest', hdigits'⟩ := List.exists_cons_of_ne_nil high.digits_ne_nil
    rw [text, Bound.counts, low.span_text_comma]
    dsimp only
    rw [low.mapM_text, high.mapM_text, map, bound, hdigits, hdigits']

theorem counts_valued {b : BoundEnds Numeral} (h : ∀ d ∈ b.toList, d.Valued)
    (opening closing : Nat) :
    Bound.counts opening closing b.text =
      .ok ((b.map Numeral.value).map Count.exact).bound := by
  rw [b.counts_text]
  cases b with
  | exactly n | atLeast n | atMost n =>
    have hn : n.Valued := h n List.mem_cons_self
    simp only [map, n.count_of_valued hn]
  | between low high =>
    have hlow : low.Valued := h low List.mem_cons_self
    have hhigh : high.Valued := h high (List.mem_cons_of_mem _ List.mem_cons_self)
    simp only [map, low.count_of_valued hlow, high.count_of_valued hhigh]

/-! ### Bounds that are refused -/

theorem exceeds_limit_iff (b : BoundEnds Nat) (limit : Nat) :
    ((b.map Count.exact).bound.low.exceeds (.exact limit) ||
        (b.map Count.exact).bound.high.any (·.exceeds (.exact limit))) = true ↔
      ∃ n ∈ b.toList, limit < n := by
  cases b with
  | exactly | atLeast | atMost | between => simp [toList, map, bound, Count.exceeds]

theorem exceeds_high_iff (b : BoundEnds Nat) :
    (b.map Count.exact).bound.high.any (b.map Count.exact).bound.low.exceeds = true ↔
      b.Reversed := by
  cases b with
  | exactly | atLeast | atMost | between => simp [map, bound, Count.exceeds, Reversed]

/-- A count that is too large is reported before the order of the ends. -/
theorem read_eq {b : BoundEnds Nat} {opening closing : Nat} {units : List CodeUnit}
    (hcounts : Bound.counts opening closing units = .ok (b.map Count.exact).bound) :
    Bound.read opening closing units =
      if ∃ n ∈ b.toList, maxRepetition < n then .error ⟨.countTooLarge, opening⟩
      else if b.Reversed then .error ⟨.malformed, closing⟩
      else .ok (b.map Count.exact).bound := by
  simp only [Bound.read, hcounts, exceeds_limit_iff, exceeds_high_iff, bind, Except.bind, pure,
    Except.pure]
  split
  · rfl
  · split <;> rfl

end BoundEnds

end ExtendedRegex
