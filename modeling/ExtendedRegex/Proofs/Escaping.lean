import ExtendedRegex.Proofs.Reading
import Mathlib.Data.List.Forall2

/-!
Texts written with backslashes. In a mode, a text is written with a backslash in front of each unit
that has a meaning of its own there. What is written so is read, token by token, as the units of the
text up to the end of the pattern, and no other pattern is read as these units.
-/

set_option autoImplicit false
set_option relaxedAutoImplicit false

namespace ExtendedRegex

/-- The pattern that a text is written as in a mode. -/
def Text.writtenIn (t : Text) (mode : Mode) : Text := (t.toList.flatMap mode.write).toArray

/-- No special unit of a mode is read as a unit without a meaning of its own. -/
theorem Mode.lookup_special_ne (mode : Mode) (u v : CodeUnit) :
    mode.special.lookup u ≠ some (.unit v) := by
  intro h
  have hmem := mode.mem_special h
  cases mode with
  | normal | bound | bracket => simp [special] at hmem

namespace Token

/-- Tokens that cover what lies between two offsets: none of them is empty, and each one starts
where the one before it stops. -/
def Tile (start : Nat) : List Token → Nat → Prop
  | [], stop => start = stop
  | t :: tokens, stop => t.start = start ∧ start < t.stop ∧ Tile t.stop tokens stop

variable {pattern : Text} {mode : Mode} {offset : Nat} {u : CodeUnit} {units rest : List CodeUnit}
  {t : Token} {tokens : List Token} {flaw : Option Flaw}

/-! ### One token -/

/-- Only what is written for a unit is read as this unit. -/
theorem exists_write_of_next (h : next pattern mode offset = .ok t) (ht : t.kind = .unit u) :
    ∃ rest, pattern.toList.drop offset = mode.write u ++ rest ∧
      t.stop = offset + (mode.write u).length := by
  cases standsAt_of_next h with
  | endOfPattern | builtin => cases ht
  | escaped hslash hv hescapes =>
    cases ht
    rw [Mode.write, if_pos hescapes, Text.drop_of_getElem? hslash, Text.drop_of_getElem? hv]
    exact ⟨_, rfl, rfl⟩
  | special _ _ hkind =>
    obtain rfl : _ = Kind.unit u := ht
    exact absurd hkind (mode.lookup_special_ne _ u)
  | @unit v hu hslash hplain =>
    obtain rfl : v = u := Kind.unit.inj ht
    have hescapes : ¬ mode.escapes v := by simp [Mode.escapes, hslash, hplain]
    rw [Mode.write, if_neg hescapes, Text.drop_of_getElem? hu]
    exact ⟨_, rfl, rfl⟩

/-! ### All tokens -/

theorem scan_eq (ht : next pattern mode offset = .ok t) :
    scan pattern mode offset = if offset < pattern.size then
      (t :: (scan pattern mode t.stop).1, (scan pattern mode t.stop).2) else ([t], none) := by
  rw [scan]
  split
  · next herror =>
    rw [ht] at herror
    cases herror
  · next hok =>
    rw [ht] at hok
    cases hok
    split <;> rfl

theorem scan_size :
    scan pattern mode pattern.size = ([⟨.endOfPattern, pattern.size, pattern.size⟩], none) := by
  have ht : next pattern mode pattern.size = .ok ⟨.endOfPattern, pattern.size, pattern.size⟩ := by
    rw [next, Array.getElem?_eq_none (Nat.le_refl _)]
  rw [scan_eq ht, if_neg (Nat.lt_irrefl _)]

/-- A token behind which others are read is read by itself, and the others from where it stops. -/
theorem next_of_scan (h : scan pattern mode offset = (t :: tokens, flaw)) (hne : tokens ≠ []) :
    next pattern mode offset = .ok t ∧ scan pattern mode t.stop = (tokens, flaw) := by
  rw [scan] at h
  split at h
  · cases h
  · next ht =>
    split at h
    · cases h
      exact ⟨ht, rfl⟩
    · cases h
      exact absurd rfl hne

/-- Units that are written one after another are read one after another, whatever comes behind. -/
theorem exists_scan_of_drop (h : pattern.toList.drop offset = units.flatMap mode.write ++ rest) :
    ∃ tokens stop, stop = offset + (units.flatMap mode.write).length ∧
      scan pattern mode offset =
        (tokens ++ (scan pattern mode stop).1, (scan pattern mode stop).2) ∧
      List.Forall₂ (fun u t ↦ t.kind = .unit u ∧ t.value pattern = #[u]) units tokens ∧
      Tile offset tokens stop := by
  induction units generalizing offset with
  | nil => exact ⟨[], offset, rfl, rfl, .nil, rfl⟩
  | cons u units ih =>
    rw [List.flatMap_cons, List.append_assoc] at h
    obtain ⟨v, later, hwrite⟩ := mode.exists_write u
    have hoffset : offset < pattern.size := Text.lt_size_of_drop (by rw [h, hwrite]; rfl)
    have hnext := next_write h
    obtain ⟨tokens, stop, hstop, hscan, hunits, htile⟩ := ih (Text.drop_add_of_drop h)
    refine ⟨_ :: tokens, stop, ?_, ?_, .cons ⟨rfl, rfl⟩ hunits, rfl, lt_stop_of_next hoffset hnext,
      htile⟩
    · rw [hstop, List.flatMap_cons, List.length_append, Nat.add_assoc]
    · rw [scan_eq hnext, if_pos hoffset, hscan, List.cons_append]

/-- What is read as units up to the end of the pattern is written as these units. -/
theorem drop_of_scan
    (h : scan pattern mode offset =
      (tokens ++ [⟨.endOfPattern, pattern.size, pattern.size⟩], none))
    (hunits : List.Forall₂ (fun u t ↦ t.kind = .unit u) units tokens)
    (htile : Tile offset tokens pattern.size) :
    pattern.toList.drop offset = units.flatMap mode.write := by
  induction hunits generalizing offset with
  | nil =>
    -- Tokens of no unit cover nothing, so the pattern ends here.
    obtain rfl : offset = pattern.size := htile
    rw [← Array.length_toList, List.drop_length]
    rfl
  | cons hkind _ ih =>
    obtain ⟨hnext, hscan⟩ := next_of_scan h (by simp)
    obtain ⟨rest, hdrop, hstop⟩ := exists_write_of_next hnext hkind
    have hrest := Text.drop_add_of_drop hdrop
    rw [← hstop, ih hscan htile.2.2] at hrest
    rw [hdrop, ← hrest, List.flatMap_cons]

/-- In every mode, the pattern that a text is written as is read as one unit for each unit of the
text, without gaps from its start to its end, and then as ended; no other pattern is read so. -/
theorem eq_writtenIn_iff_scan (mode : Mode) (text pattern : Text) :
    pattern = text.writtenIn mode ↔
      ∃ tokens, scan pattern mode 0 =
          (tokens ++ [⟨.endOfPattern, pattern.size, pattern.size⟩], none) ∧
        List.Forall₂ (fun u t ↦ t.kind = .unit u ∧ t.value pattern = #[u]) text.toList tokens ∧
        Tile 0 tokens pattern.size := by
  constructor
  · rintro rfl
    have hdrop : (text.writtenIn mode).toList.drop 0 = text.toList.flatMap mode.write ++ [] := by
      simp [Text.writtenIn]
    have hsize : (text.writtenIn mode).size = 0 + (text.toList.flatMap mode.write).length := by
      simp [Text.writtenIn]
    obtain ⟨tokens, stop, hstop, hscan, hunits, htile⟩ := exists_scan_of_drop hdrop
    obtain rfl : stop = (text.writtenIn mode).size := hstop.trans hsize.symm
    rw [scan_size] at hscan
    exact ⟨tokens, hscan, hunits, htile⟩
  · rintro ⟨tokens, hscan, hunits, htile⟩
    have hdrop := drop_of_scan hscan (hunits.imp fun _ _ ↦ And.left) htile
    exact Array.toList_inj.mp hdrop

/-- Between brackets, the text `]d\` takes two backslashes; the letter does not name a class. -/
example : scan #['\\', ']', 'd', '\\', '\\'] (.bracket false .bound) 0 =
    ([⟨.unit ']', 0, 2⟩, ⟨.unit 'd', 2, 3⟩, ⟨.unit '\\', 3, 5⟩, ⟨.endOfPattern, 5, 5⟩], none) := by
  cbv

end Token

end ExtendedRegex
