import ExtendedRegex.Matcher.Template

/-!
What templates stand for. A template that is written from literal texts, with their dollar signs
doubled, and references to groups stands for these texts and those of the groups, whatever stands
next to each other. In an arbitrary template the pairs of a dollar sign and what follows it are read
from left to right, and every unit outside of these pairs stands for itself.
-/

set_option autoImplicit false
set_option relaxedAutoImplicit false

namespace ExtendedRegex

/-- What templates are written from. -/
inductive Segment where
  | literal (t : Text)
  | reference (k : Fin 10)
deriving DecidableEq, Repr

namespace Segment

/-- The text of a segment as it is written in a template. -/
def written : Segment → List CodeUnit
  | literal t => t.toList.flatMap fun u : CodeUnit ↦ if u = '$' then ['$', '$'] else [u]
  | reference k => ['$', CodeUnit.ofChar k.val.digitChar]

/-- The text that a segment stands for. A group that is not set, or does not exist, has none. -/
def textIn (m : Match) : Segment → Text
  | literal t => t
  | reference k =>
    match m.spans[k.val]? with
    | some (some s) => m.input.slice s.start s.stop
    | some none | none => #[]

/-- The template written from some segments. -/
def template (segments : List Segment) : Text := (segments.flatMap written).toArray

end Segment

/-! ### Pairs -/

/-- Whether a dollar sign comes first and another one, or a digit, second. -/
def opensPair : List CodeUnit → Bool
  | u :: v :: _ => u = '$' && (v = '$' || v.digit?.isSome)
  | _ => false

/-- Whether a pair starts at a place, where the pairs are taken from left to right: what stands at
the place opens one, and the unit before does not start one. -/
def startsPair (units : List CodeUnit) : Nat → Bool
  | 0 => opensPair units
  | i + 1 => opensPair (units.drop (i + 1)) && !startsPair units i

/-- Whether a place belongs to a pair, as the first or as the second one. -/
def inPair (units : List CodeUnit) : Nat → Bool
  | 0 => startsPair units 0
  | i + 1 => startsPair units (i + 1) || startsPair units i

section Pairs

variable {u v : CodeUnit} {rest units units' : List CodeUnit} {i : Nat}

theorem opensPair_of_ne (h : u ≠ '$') (rest : List CodeUnit) : opensPair (u :: rest) = false := by
  cases rest with
  | nil => rfl
  | cons v rest => simp [opensPair, h]

/-- Behind a unit that opens no pair, the pairs are those of what follows. -/
theorem startsPair_cons (h : opensPair (u :: rest) = false) (i : Nat) :
    startsPair (u :: rest) (i + 1) = startsPair rest i := by
  induction i with
  | zero => simp [startsPair, h]
  | succ i ih => rw [startsPair, ih, startsPair, List.drop_succ_cons]

/-- Behind a pair, too. -/
theorem startsPair_cons_cons (h : opensPair (u :: v :: rest) = true) (i : Nat) :
    startsPair (u :: v :: rest) (i + 2) = startsPair rest i := by
  induction i with
  | zero => simp [startsPair, h]
  | succ i ih => rw [startsPair, ih, startsPair, List.drop_succ_cons, List.drop_succ_cons]

theorem startsPair_iff : startsPair units i = true ↔
    opensPair (units.drop i) = true ∧ ∀ j, j + 1 = i → startsPair units j = false := by
  cases i with
  | zero => simp [startsPair]
  | succ i => simp [startsPair]

theorem inPair_eq_false_iff : inPair units i = false ↔
    opensPair (units.drop i) = false ∧ ∀ j, j + 1 = i → startsPair units j = false := by
  cases i with
  | zero => simp [inPair, startsPair]
  | succ i =>
    cases hbefore : startsPair units i with
    | false => simp [inPair, startsPair, hbefore]
    | true => simp [inPair, hbefore]

/-- Texts taken apart from left to right, a pair or a single unit at a time. -/
theorem pair_induction {motive : List CodeUnit → Prop} (nil : motive [])
    (single : ∀ u rest, opensPair (u :: rest) = false → motive rest → motive (u :: rest))
    (pair : ∀ u v rest, opensPair (u :: v :: rest) = true → motive rest →
      motive (u :: v :: rest)) (units : List CodeUnit) : motive units := by
  induction h : units.length using Nat.strongRecOn generalizing units with
  | _ n ih =>
    subst h
    match units with
    | [] => exact nil
    | [u] => exact single u [] rfl nil
    | u :: v :: rest =>
      cases hopens : opensPair (u :: v :: rest) with
      | false => exact single u (v :: rest) hopens (ih _ (by simp) _ rfl)
      | true => exact pair u v rest hopens (ih _ (by simp only [List.length_cons]; omega) _ rfl)

end Pairs

/-! ### The parts of a template -/

namespace TemplatePart

variable {u v : CodeUnit} {rest units units' : List CodeUnit} {m : Match} {i : Nat}

/-- What a dollar sign stands for, together with the unit behind it. -/
def ofPair (v : CodeUnit) : TemplatePart :=
  match v.digit? with
  | some k => group k
  | none => unit '$'

theorem ofUnits_single (h : opensPair (u :: rest) = false) :
    ofUnits (u :: rest) = unit u :: ofUnits rest := by
  cases rest with
  | nil => rfl
  | cons v rest =>
    rw [ofUnits]
    by_cases hu : u = '$'
    · have hv : v ≠ '$' ∧ v.digit? = none := by simpa [opensPair, hu] using h
      rw [if_pos hu, if_neg hv.1, hv.2]
    · rw [if_neg hu]

theorem ofUnits_pair (h : opensPair (u :: v :: rest) = true) :
    ofUnits (u :: v :: rest) = ofPair v :: ofUnits rest := by
  obtain ⟨rfl, hv⟩ : u = '$' ∧ (v = '$' ∨ v.digit?.isSome = true) := by simpa [opensPair] using h
  rw [ofUnits, if_pos rfl]
  by_cases hdollar : v = '$'
  · rw [if_pos hdollar, hdollar]
    rfl
  · obtain ⟨k, hk⟩ := Option.isSome_iff_exists.mp (hv.resolve_left hdollar)
    rw [if_neg hdollar, ofPair, hk]

/-- A template can be cut wherever no pair is cut. -/
theorem ofUnits_append (h : ∀ i, i + 1 = units.length → startsPair (units ++ units') i = false) :
    ofUnits (units ++ units') = ofUnits units ++ ofUnits units' := by
  induction units using pair_induction with
  | nil => rfl
  | single u rest hopens ih =>
    have hopens' : opensPair (u :: (rest ++ units')) = false := by
      cases rest with
      | nil => exact h 0 rfl
      | cons v rest => exact hopens
    rw [List.cons_append, ofUnits_single hopens', ofUnits_single hopens, List.cons_append,
      ih fun i hi ↦ ?_]
    rw [← startsPair_cons hopens']
    exact h (i + 1) (congrArg (· + 1) hi)
  | pair u v rest hopens ih =>
    have hopens' : opensPair (u :: v :: (rest ++ units')) = true := hopens
    rw [List.cons_append, List.cons_append, ofUnits_pair hopens', ofUnits_pair hopens,
      List.cons_append, ih fun i hi ↦ ?_]
    rw [← startsPair_cons_cons hopens']
    exact h (i + 2) (congrArg (· + 2) hi)

/-- The units that a part of a template stands for. -/
def unitsIn (m : Match) : TemplatePart → List CodeUnit
  | unit u => [u]
  | group k => ((m.group k).getD #[]).toList

theorem toList_foldl (parts : List TemplatePart) (m : Match) (t : Text) :
    (parts.foldl (appendTo m) t).toList = t.toList ++ parts.flatMap (unitsIn m) := by
  induction parts generalizing t with
  | nil => rw [List.flatMap_nil, List.append_nil, List.foldl_nil]
  | cons p parts ih =>
    have happend : (p.appendTo m t).toList = t.toList ++ p.unitsIn m := by
      cases p with
      | unit u => exact Array.toList_push
      | group k => exact Array.toList_append
    rw [List.foldl_cons, ih, happend, List.flatMap_cons, List.append_assoc]

end TemplatePart

theorem toList_expandTemplate (t : Text) (m : Match) :
    (expandTemplate t m).toList =
      (TemplatePart.ofUnits t.toList).flatMap (TemplatePart.unitsIn m) := by
  rw [expandTemplate, TemplatePart.toList_foldl, List.nil_append]

/-! ### Segments -/

namespace Segment

variable {m : Match}

theorem digit?_digitChar (k : Fin 10) :
    (CodeUnit.ofChar k.val.digitChar).digit? = some k.val := by
  revert k
  decide

theorem digitChar_of_digit? {v : CodeUnit} {k : Nat} (h : v.digit? = some k) :
    k < 10 ∧ CodeUnit.ofChar k.digitChar = v := by
  rw [CodeUnit.digit?] at h
  split at h
  · next hv =>
    obtain rfl := Option.some.inj h
    rw [UInt16.le_iff_toNat_le, UInt16.le_iff_toNat_le] at hv
    have hzero : (CodeUnit.ofChar '0').toNat = 48 := rfl
    have hnine : (CodeUnit.ofChar '9').toNat = 57 := rfl
    have hzero' : '0'.toNat = 48 := rfl
    have hlt : v.toNat - '0'.toNat < 10 := by omega
    refine ⟨hlt, UInt16.toNat_inj.mp ?_⟩
    rw [CodeUnit.ofChar, Nat.toNat_digitChar_of_lt_ten hlt, Nat.toUInt16, UInt16.toNat_ofNat']
    omega
  · cases h

theorem toList_textIn_reference (m : Match) (k : Fin 10) :
    ((reference k).textIn m).toList = (TemplatePart.group k).unitsIn m := by
  have hspan : m.span (k.val : Int) = m.spans[k.val]?.join := by
    rw [Match.span, if_neg (by omega), Int.toNat_natCast]
  rw [TemplatePart.unitsIn, Match.group, hspan, textIn]
  rcases m.spans[k.val]? with _ | _ | s <;> rfl

/-- What is behind a segment is read as if it stood alone. -/
theorem units_written (p : Segment) (m : Match) (rest : List CodeUnit) :
    (TemplatePart.ofUnits (p.written ++ rest)).flatMap (TemplatePart.unitsIn m) =
      (p.textIn m).toList ++ (TemplatePart.ofUnits rest).flatMap (TemplatePart.unitsIn m) := by
  cases p with
  | literal t =>
    rw [written, textIn]
    induction t.toList with
    | nil => rfl
    | cons u units ih =>
      rw [List.flatMap_cons, List.append_assoc, List.cons_append]
      by_cases hdollar : u = '$'
      · rw [if_pos hdollar, hdollar, List.cons_append, List.singleton_append,
          TemplatePart.ofUnits_pair rfl, List.flatMap_cons, ih]
        rfl
      · rw [if_neg hdollar, List.singleton_append,
          TemplatePart.ofUnits_single (opensPair_of_ne hdollar _), List.flatMap_cons, ih]
        rfl
  | reference k =>
    have hopens : opensPair ('$' :: CodeUnit.ofChar k.val.digitChar :: rest) = true := by
      simp [opensPair, digit?_digitChar]
    rw [written, List.cons_append, List.singleton_append, TemplatePart.ofUnits_pair hopens,
      List.flatMap_cons, TemplatePart.ofPair, digit?_digitChar, toList_textIn_reference]

theorem expandTemplate_template (segments : List Segment) (m : Match) :
    (expandTemplate (template segments) m).toList =
      segments.flatMap fun p ↦ (p.textIn m).toList := by
  rw [toList_expandTemplate, template]
  induction segments with
  | nil => rfl
  | cons p segments ih => rw [List.flatMap_cons, units_written, ih, List.flatMap_cons]

/-- Every pair is what a segment is written as. -/
theorem exists_of_opensPair {u v : CodeUnit} {rest : List CodeUnit}
    (h : opensPair (u :: v :: rest) = true) :
    ∃ p : Segment, p.written = [u, v] ∧
      ∀ m, (TemplatePart.ofPair v).unitsIn m = (p.textIn m).toList := by
  obtain ⟨rfl, hv⟩ : u = '$' ∧ (v = '$' ∨ v.digit?.isSome = true) := by simpa [opensPair] using h
  rcases hv with rfl | hv
  · exact ⟨literal #['$'], rfl, fun _ ↦ rfl⟩
  · obtain ⟨k, hk⟩ := Option.isSome_iff_exists.mp hv
    obtain ⟨hk', hwritten⟩ := digitChar_of_digit? hk
    refine ⟨reference ⟨k, hk'⟩, by rw [written, hwritten], fun m ↦ ?_⟩
    rw [TemplatePart.ofPair, hk, toList_textIn_reference]

end Segment

/-! ### Places -/

section Places

variable {t : Text} {i : Nat}

theorem toList_extract_from (t : Text) (i : Nat) : (t.extract i).toList = t.toList.drop i := by
  rw [Array.toList_extract, List.extract_eq_take_drop]
  exact List.take_of_length_le (by simp)

/-- A template can be cut in front of a place if no pair starts just before it. -/
theorem expandTemplate_cut (hi : i ≤ t.size) (h : ∀ j, j + 1 = i → startsPair t.toList j = false)
    (m : Match) :
    (expandTemplate t m).toList = (expandTemplate (t.extract 0 i) m).toList ++
      (TemplatePart.ofUnits (t.toList.drop i)).flatMap (TemplatePart.unitsIn m) := by
  have hlength : (t.toList.take i).length = i := by
    rw [List.length_take, Array.length_toList, Nat.min_eq_left hi]
  have hunits : TemplatePart.ofUnits (t.toList.take i ++ t.toList.drop i) = _ :=
    TemplatePart.ofUnits_append fun j hj ↦ by
      rw [List.take_append_drop]
      exact h j (hj.trans hlength)
  rw [List.take_append_drop] at hunits
  have htake : (t.extract 0 i).toList = t.toList.take i := by simp
  rw [toList_expandTemplate, toList_expandTemplate, hunits, htake, List.flatMap_append]

/-- A unit outside of the pairs stands for itself, between what stands before and behind it. -/
theorem expandTemplate_kept {u : CodeUnit} (hu : t[i]? = some u) (h : inPair t.toList i = false)
    (m : Match) : expandTemplate t m =
      expandTemplate (t.extract 0 i) m ++ #[u] ++ expandTemplate (t.extract (i + 1)) m := by
  obtain ⟨hopens, hbefore⟩ := inPair_eq_false_iff.mp h
  obtain ⟨hi, rfl⟩ := Array.getElem?_eq_some_iff.mp hu
  have hdrop : t.toList.drop i = t[i] :: t.toList.drop (i + 1) := List.drop_eq_getElem_cons _
  rw [hdrop] at hopens
  refine Array.toList_inj.mp ?_
  rw [expandTemplate_cut (Nat.le_of_lt hi) hbefore, hdrop, TemplatePart.ofUnits_single hopens,
    List.flatMap_cons, Array.toList_append, Array.toList_append,
    toList_expandTemplate (t.extract (i + 1)), toList_extract_from, List.append_assoc]
  rfl

/-- A pair stands for what the segment stands for that is written as this pair. -/
theorem expandTemplate_pair (h : startsPair t.toList i = true) (m : Match) :
    ∃ p : Segment, p.written = (t.extract i (i + 2)).toList ∧ expandTemplate t m =
      expandTemplate (t.extract 0 i) m ++ p.textIn m ++ expandTemplate (t.extract (i + 2)) m := by
  obtain ⟨hopens, hbefore⟩ := startsPair_iff.mp h
  match hdrop : t.toList.drop i with
  | [] | [_] => simp [hdrop, opensPair] at hopens
  | u :: v :: rest =>
    rw [hdrop] at hopens
    obtain ⟨p, hwritten, htext⟩ := Segment.exists_of_opensPair hopens
    have hi : i ≤ t.size := by
      have hlength := congrArg List.length hdrop
      simp at hlength
      omega
    have hbehind : (t.extract (i + 2)).toList = rest := by
      rw [toList_extract_from, ← List.drop_drop, hdrop]
      rfl
    refine ⟨p, ?_, Array.toList_inj.mp ?_⟩
    · simp [hwritten, hdrop]
    · rw [expandTemplate_cut hi hbefore, hdrop, TemplatePart.ofUnits_pair hopens,
        List.flatMap_cons, htext, Array.toList_append, Array.toList_append,
        toList_expandTemplate (t.extract (i + 2)), hbehind, List.append_assoc]

end Places

/-- Expanding a template that is written from segments gives their texts, one after another. In an
arbitrary template the units outside of the pairs stand for themselves, wherever the pairs are, and
a pair stands for what a segment written so stands for. -/
theorem expandTemplate_parts (m : Match) :
    (∀ segments : List Segment, (expandTemplate (Segment.template segments) m).toList =
      segments.flatMap fun p ↦ (p.textIn m).toList) ∧
    (∀ (t : Text) (i : Nat) (u : CodeUnit), t[i]? = some u → inPair t.toList i = false →
      expandTemplate t m =
        expandTemplate (t.extract 0 i) m ++ #[u] ++ expandTemplate (t.extract (i + 1)) m) ∧
    ∀ (t : Text) (i : Nat), startsPair t.toList i = true →
      ∃ p : Segment, p.written = (t.extract i (i + 2)).toList ∧ expandTemplate t m =
        expandTemplate (t.extract 0 i) m ++ p.textIn m ++ expandTemplate (t.extract (i + 2)) m :=
  ⟨fun segments ↦ Segment.expandTemplate_template segments m,
    fun _ _ _ hu h ↦ expandTemplate_kept hu h m, fun _ _ h ↦ expandTemplate_pair h m⟩

/-- A match of `ab` whose second group is the `b`; its first one is not set. -/
def halfSet : Match := ⟨#['a', 'b'], #[some ⟨0, 2⟩, none, some ⟨1, 2⟩]⟩

/-- Two texts and two references. -/
def crowded : List Segment :=
  [.literal #['$'], .reference 2, .literal #['0', '$'], .reference 1]

/-- A pair, a dollar sign and a letter. -/
def lateDollar : Text := #['$', '$', '$', 'x']

/-- A dollar sign in front of a reference, a digit behind one, and a dollar sign between a pair and
a letter. -/
theorem expandTemplate_parts_dollars :
    Segment.template crowded = #[('$' : CodeUnit), '$', '$', '2', '0', '$', '$', '$', '1'] ∧
      (expandTemplate (Segment.template crowded) halfSet).toList =
        [('$' : CodeUnit), 'b', '0', '$'] ∧
      lateDollar[2]? = some ('$' : CodeUnit) ∧ inPair lateDollar.toList 2 = false ∧
      startsPair lateDollar.toList 0 = true ∧
      expandTemplate lateDollar halfSet =
        expandTemplate #['$', '$'] halfSet ++ #[('$' : CodeUnit)] ++
          expandTemplate #['x'] halfSet := by
  obtain ⟨hsegments, hkept, -⟩ := expandTemplate_parts halfSet
  exact ⟨by decide, hsegments crowded, rfl, by decide, by decide,
    hkept lateDollar 2 '$' rfl (by decide)⟩

end ExtendedRegex
