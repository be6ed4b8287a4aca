import ExtendedRegex.Proofs.Continuation
import ExtendedRegex.Proofs.LowestMarker

/-!
Patterns whose only defect is that groups are left open. If closing parentheses behind a pattern
would complete it, then the pattern itself is read to its end, and what is reported is the lowest
marker that is left: the outermost opening, unless there is a bar outside of the open groups.
-/

set_option autoImplicit false
set_option relaxedAutoImplicit false

namespace ExtendedRegex

/-- What is put behind a pattern to close its groups. -/
def closingParens (count : Nat) : Text := Array.replicate count ')'

theorem unmodifying_closingParens (count : Nat) : (closingParens count).Unmodifying := by
  cases count with
  | zero => exact ⟨by decide, by decide⟩
  | succ count =>
    have hhead : (closingParens (count + 1))[0]? = some (')' : CodeUnit) := by simp [closingParens]
    exact ⟨by rw [hhead]; decide, by rw [hhead]; decide⟩

/-! ### Closing tokens -/

namespace Token

variable {pattern x rest : Text} {mode : Mode} {offset n : Nat} {t : Token}
  {opened tokens : List Token}

theorem Kind.eq_closeGroup_of_closes {kind : Kind} (h : kind.closes .openGroup = true) :
    kind = .closeGroup := by
  cases kind <;> first | rfl | cases h

/-- A token closes one group at most. -/
theorem countP_track (opened : List Token) (t : Token) :
    opened.countP (·.kind = .openGroup) ≤
      (track opened t).countP (·.kind = .openGroup) + [t].countP (·.kind = .closeGroup) := by
  cases hopens : t.kind.opens with
  | true =>
    rw [track_of_opens hopens]
    exact Nat.le_add_right_of_le (List.sublist_cons_self t opened).countP_le
  | false =>
    cases opened with
    | nil => exact Nat.zero_le _
    | cons inner outer =>
      cases hcloses : t.kind.closes inner.kind with
      | false =>
        have hkeep : track (inner :: outer) t = inner :: outer := by simp [track, hopens, hcloses]
        rw [hkeep]
        exact Nat.le_add_right _ _
      | true =>
        rw [track_of_closes hopens hcloses]
        by_cases hinner : inner.kind = .openGroup
        · rw [hinner] at hcloses
          simp [hinner, Kind.eq_closeGroup_of_closes hcloses]
        · rw [List.countP_cons_of_neg (by simpa using hinner)]
          exact Nat.le_add_right _ _

theorem countP_foldl_track (opened tokens : List Token) :
    opened.countP (·.kind = .openGroup) ≤
      (tokens.foldl track opened).countP (·.kind = .openGroup) +
        tokens.countP (·.kind = .closeGroup) := by
  induction tokens generalizing opened with
  | nil => simp
  | cons t tokens ih =>
    have hfirst := countP_track opened t
    have hrest := ih (track opened t)
    rw [List.foldl_cons, ← List.singleton_append, List.countP_append]
    omega

theorem length_stream_le (pattern : Text) (mode : Mode) (offset : Nat) :
    (stream pattern mode offset).length ≤ pattern.size - offset := by
  fun_induction stream pattern mode offset with
  | case1 | case3 => exact Nat.zero_le _
  | case2 mode offset hoffset t ht hlt ih =>
    rw [List.length_cons]
    omega

/-- Where more groups are closed than could be behind the next token, this token closes one. -/
theorem exists_next_closeGroup
    (hcount : n < (stream pattern mode offset).countP (·.kind = .closeGroup))
    (hn : ∀ t, next pattern mode offset = .ok t → pattern.size ≤ t.stop + n) :
    ∃ t, next pattern mode offset = .ok t ∧ t.kind = .closeGroup := by
  rw [stream] at hcount
  split at hcount
  · split at hcount
    · cases hcount
    · next t ht =>
      refine ⟨t, ht, ?_⟩
      by_contra hkind
      rw [List.countP_cons_of_neg (by simpa using hkind)] at hcount
      have hstop := hn t ht
      have hbehind := stop_le_behind pattern t
      have hlength := length_stream_le pattern (mode.after t.kind (t.modified pattern))
        (t.behind pattern)
      have hle := List.countP_le_length (p := fun t : Token ↦ decide (t.kind = .closeGroup))
        (l := stream pattern (mode.after t.kind (t.modified pattern)) (t.behind pattern))
      omega
  · cases hcount

/-- A backslash starts a token of two units, which closes nothing. -/
theorem of_next_backslash (h : pattern[offset]? = some ('\\' : CodeUnit))
    (ht : next pattern mode offset = .ok t) : t.stop = offset + 2 ∧ t.kind ≠ .closeGroup := by
  cases standsAt_of_next ht with
  | endOfPattern hend => simp [h] at hend
  | escaped | builtin => exact ⟨rfl, by simp⟩
  | special hu hslash | unit hu hslash => exact absurd (Option.some.inj (hu.symm.trans h)) hslash

theorem of_next_unterminated (h : next x mode offset = .error ⟨.unterminatedEscape, offset⟩) :
    x[offset]? = some ('\\' : CodeUnit) ∧ offset + 1 = x.size := by
  rw [next] at h
  split at h
  · cases h
  · next u hu =>
    have hinside := (Array.getElem?_eq_some_iff.mp hu).1
    split at h
    · next hslash =>
      split at h
      · next hlast =>
        have hend := Array.getElem?_eq_none_iff.mp hlast
        exact ⟨hslash ▸ hu, by omega⟩
      · repeat' split at h
        all_goals cases h
    · cases h

/-- What is read from the end of a pattern on, or from a backslash that is its last unit, goes
beyond the end, and it closes nothing in the second case. -/
theorem of_next_end (h : offset < (x ++ rest).size)
    (hend : offset = x.size ∨ next x mode offset = .error ⟨.unterminatedEscape, offset⟩)
    (ht : next (x ++ rest) mode offset = .ok t) :
    x.size < t.stop ∧ (t.kind = .closeGroup → offset = x.size) := by
  rcases hend with rfl | hescape
  · exact ⟨lt_stop_of_next h ht, fun _ ↦ rfl⟩
  · obtain ⟨hslash, hlast⟩ := of_next_unterminated hescape
    have hslash' : (x ++ rest)[offset]? = some ('\\' : CodeUnit) := by
      rw [Array.getElem?_append_left (by omega), hslash]
    obtain ⟨hstop, hkind⟩ := of_next_backslash hslash' ht
    exact ⟨by omega, fun hclose ↦ absurd hclose hkind⟩

/-- A token that cannot be read cannot be read in a longer pattern either, unless it is a backslash
at the end. -/
theorem next_append_error {flaw : Flaw} (h : offset < x.size)
    (ht : next x mode offset = .error flaw) (rest : Text) :
    next (x ++ rest) mode offset = .error flaw ∨ flaw = ⟨.unterminatedEscape, offset⟩ := by
  rw [next, Array.getElem?_eq_getElem h] at ht
  dsimp only at ht
  split at ht
  · next hslash =>
    cases hlast : x[offset + 1]? with
    | none =>
      rw [hlast] at ht
      exact .inr (Except.error.inj ht).symm
    | some v =>
      have hinside := (Array.getElem?_eq_some_iff.mp hlast).1
      rw [next, Array.getElem?_append_left h, Array.getElem?_eq_getElem h,
        Array.getElem?_append_left hinside]
      dsimp only
      rw [if_pos hslash]
      exact .inl ht
  · cases ht

theorem stream_of_error {flaw : Flaw} (h : next pattern mode offset = .error flaw) :
    stream pattern mode offset = [] := by
  rw [stream]
  split
  · split
    · rfl
    · next t ht => cases ht.symm.trans h
  · rfl

end Token

namespace ReadState

variable {x rest : Text} {s s' : ReadState} {sharing sharing' : Sharing} {tokens : List Token}
  {r : ReadState × Sharing}

theorem Reached.offset_le (h : Reached x tokens s sharing) : s.offset ≤ x.size := by
  cases h with
  | start => exact Nat.zero_le _
  | step h hoffset _ hs =>
    obtain ⟨t, s₁, ht, -, rfl⟩ := exists_of_step hs
    exact Token.behind_le_size (Token.stop_le_of_next hoffset ht)

theorem Reached.append (h : Reached x tokens s sharing) (hrest : rest.Unmodifying) :
    Reached (x ++ rest) tokens s sharing := by
  induction h with
  | start => exact .start
  | step h hoffset ht hs ih =>
    exact ih.step (Text.lt_size_append rest hoffset) (Token.next_append hoffset ht)
      (step_append hoffset hrest hs).1

/-- A step that fails also fails in a longer pattern, unless it is a backslash at the end. -/
theorem step_append_error {flaw : Flaw} (h : s.offset < x.size) (hrest : rest.Unmodifying)
    (hs : s.step x sharing = .error flaw) :
    s.step (x ++ rest) sharing = .error flaw ∨
      Token.next x s.mode s.offset = .error ⟨.unterminatedEscape, s.offset⟩ := by
  cases ht : Token.next x s.mode s.offset with
  | error flaw' =>
    obtain rfl : flaw' = flaw := by simpa [step, ht, bind, Except.bind] using hs
    refine (Token.next_append_error h ht rest).imp (fun ht' ↦ ?_) (congrArg Except.error)
    rw [step, ht']
    rfl
  | ok t =>
    have hmodified := Token.modified_append (Token.stop_le_of_next h ht) hrest
    rw [step_eq ht] at hs
    rw [step_eq (Token.next_append h ht), hmodified]
    cases hreact : s.react sharing t (t.modified x) with
    | error flaw' =>
      rw [hreact] at hs
      exact .inl hs
    | ok r =>
      rw [hreact] at hs
      cases hs

/-- The reading of a longer pattern goes through the end of a shorter one, if this does not end in
a backslash that takes what follows. -/
theorem Reached.of_append (h : Reached x tokens s sharing) (hrest : rest.Unmodifying)
    (hrun : ReadState.run (x ++ rest) s sharing = .ok r) :
    ∃ s' sharing', Reached x (tokens ++ Token.stream x s.mode s.offset) s' sharing' ∧
      ReadState.run (x ++ rest) s' sharing' = .ok r ∧
      (s'.offset = x.size ∧ ReadState.run x s sharing = .ok (s', sharing') ∨
        Token.next x s'.mode s'.offset = .error ⟨.unterminatedEscape, s'.offset⟩) := by
  fun_induction ReadState.run x s sharing generalizing tokens with
  | case1 s sharing hoffset flaw hstep =>
    rcases step_append_error hoffset hrest hstep with hfail | hescape
    · have hlonger := Text.lt_size_append rest hoffset
      rw [run_of_step_error hlonger hfail] at hrun
      cases hrun
    · rw [Token.stream_of_error hescape, List.append_nil]
      exact ⟨s, sharing, h, hrun, .inr hescape⟩
  | case2 s sharing hoffset s₁ sharing₁ hstep _ ih =>
    obtain ⟨t, s₂, ht, hreact, rfl⟩ := exists_of_step hstep
    have hlonger := Text.lt_size_append rest hoffset
    rw [run_of_step hlonger (step_append hoffset hrest hstep).1] at hrun
    rw [Token.stream_of_next hoffset ht, List.append_cons, ← (reaction_of_react hreact).mode_eq]
    exact ih (h.step hoffset ht hstep) hrun
  | case3 s sharing hoffset =>
    have hend : s.offset = x.size := Nat.le_antisymm h.offset_le (Nat.not_lt.mp hoffset)
    rw [Token.stream_of_size_le hend.ge, List.append_nil]
    exact ⟨s, sharing, h, hrun, .inl ⟨hend, rfl⟩⟩

/-- If a pattern leaves as many groups open as parentheses behind it close, then it is read to its
end, outside of bounds and bracket expressions. -/
theorem exists_run_of_closed {count : Nat} {e : Regex} (hcount : 0 < count)
    (hrun : run (x ++ closingParens count) {} {} = .ok r) (hresult : r.1.result r.2 = .ok e)
    (hopen : (Token.unclosed (Token.stream x .normal 0)).countP (·.kind = .openGroup) = count) :
    ∃ s sharing, Reached x (Token.stream x .normal 0) s sharing ∧
      run x {} {} = .ok (s, sharing) ∧ s.mode = .normal := by
  have hunmodifying := unmodifying_closingParens count
  have hsize : (x ++ closingParens count).size = x.size + count := by
    simp [closingParens]
  obtain ⟨s, sharing, hreached, hrun', hend⟩ := Reached.start.of_append hunmodifying hrun
  obtain ⟨hwhole, -⟩ := (hreached.append hunmodifying).run hrun'
  obtain ⟨-, -, hclosed⟩ := unclosed_of_result hwhole.nested hresult
  -- Each group that is open needs a closing token behind the pattern, with no unit to spare.
  have hmany := Token.countP_foldl_track (Token.unclosed (Token.stream x .normal 0))
    (Token.stream (x ++ closingParens count) s.mode s.offset)
  rw [List.nil_append] at hreached hclosed
  rw [Token.unclosed, List.foldl_append] at hclosed
  rw [hopen, Token.unclosed, hclosed, List.countP_nil, Nat.zero_add] at hmany
  have hlonger : s.offset < (x ++ closingParens count).size := by
    have hoffset := hreached.offset_le
    omega
  have hend' := hend.imp_left And.left
  have hspare := Nat.lt_of_lt_of_le (Nat.sub_one_lt_of_lt hcount) hmany
  obtain ⟨t, ht, hkind⟩ := Token.exists_next_closeGroup hspare fun t ht ↦ by
    have hstop := (Token.of_next_end hlonger hend' ht).1
    omega
  have hoffset := (Token.of_next_end hlonger hend' ht).2 hkind
  rcases hend with ⟨-, hread⟩ | hescape
  · exact ⟨s, sharing, hreached, hread, (Mode.reads_of_next ht).eq_normal (by rw [hkind]; rfl)⟩
  · have hlast := (Token.of_next_unterminated hescape).2
    omega

end ReadState

/-- A pattern that only lacks closing parentheses is malformed, and the error is reported at the
outermost opening that is never closed, if all bars stand inside of what is opened. A bar with
nothing open around it is a marker below all openings, so the last such bar is reported instead. -/
theorem parse_unclosed_groups {pattern : Text} {count : Nat} {maxLength : Int} {e : Regex}
    (hcount : 0 < count)
    (hclosed : Regex.parse (pattern ++ closingParens count) maxLength = .ok e)
    (hopen : (Token.unclosed (Token.stream pattern .normal 0)).countP (·.kind = .openGroup) =
      count) :
    ∃ error, ∃ t ∈ Token.stream pattern .normal 0,
      Regex.parse pattern maxLength = .error error ∧
      error.fault.description = .ofString "Malformed regular expression" ∧
      error.offset = t.start ∧ error.pattern = pattern ∧
      (Token.outerBar? [] (Token.stream pattern .normal 0) = none →
        t.kind = .openGroup ∧ (Token.unclosed (Token.stream pattern .normal 0)).getLast? = some t) ∧
      ∀ bar, Token.outerBar? [] (Token.stream pattern .normal 0) = some bar →
        t = bar ∧ t.kind = .bar := by
  obtain ⟨r, sharing', hrun, hresult⟩ := exists_run_of_parse hclosed
  obtain ⟨s, sharing, hreached, hread, hmode⟩ :=
    ReadState.exists_run_of_closed hcount hrun hresult hopen
  have hlength : (pattern.size : Int) ≤ maxLength := by
    have hwhole := (parse_iff_of_run hrun hresult maxLength).mp hclosed
    rw [Array.size_append] at hwhole
    omega
  have hopened : Token.unclosed (Token.stream pattern .normal 0) ≠ [] := by
    intro hnone
    rw [hnone, List.countP_nil] at hopen
    omega
  obtain ⟨t, ht, hfail⟩ := hreached.result_of_open hmode hopened
  have hparse : Regex.parse pattern maxLength = .error ⟨⟨.malformed, t.start⟩, pattern⟩ := by
    refine Regex.parse_of_read_error ?_
    rw [Regex.read, if_neg (Int.not_lt.mpr hlength), hread]
    exact hfail
  have hnested := hreached.nested
  rw [hmode] at hnested
  cases hbar : Token.outerBar? [] (Token.stream pattern .normal 0) with
  | none =>
    rw [hbar, Option.none_or] at ht
    have hmem := List.mem_of_getLast? ht
    have hstream := (Token.mem_of_mem_foldl_track hmem).resolve_right List.not_mem_nil
    exact ⟨_, t, hstream, hparse, rfl, rfl, rfl, fun _ ↦ ⟨hnested.kind_eq_openGroup hmem, ht⟩,
      by simp⟩
  | some bar =>
    rw [hbar, Option.some_or] at ht
    obtain rfl := Option.some.inj ht
    obtain ⟨before, behind, hstream, hkind, -⟩ := Token.exists_of_outerBar? hbar
    refine ⟨_, bar, hstream ▸ by simp, hparse, rfl, rfl, rfl, by simp, fun other hother ↦ ?_⟩
    exact ⟨Option.some.inj hother, hkind⟩

/-! ### Bars before open groups -/

/-- The pattern `(a|(b`, in which the bar stands in a group that is left open. -/
def barInside : Text := #['(', 'a', '|', '(', 'b']

/-- The pattern `a|(b`, in which the bar stands outside. -/
def barOutside : Text := #['a', '|', '(', 'b']

theorem stream_barInside : Token.stream barInside .normal 0 =
    [⟨.openGroup, 0, 1⟩, ⟨.unit 'a', 1, 2⟩, ⟨.bar, 2, 3⟩, ⟨.openGroup, 3, 4⟩,
      ⟨.unit 'b', 4, 5⟩] := by
  rw [Token.stream_of_next (by decide) rfl, Token.stream_of_next (by decide) rfl,
    Token.stream_of_next (by decide) rfl, Token.stream_of_next (by decide) rfl,
    Token.stream_of_next (by decide) rfl, Token.stream_of_size_le (by decide)]
  rfl

theorem stream_barOutside : Token.stream barOutside .normal 0 =
    [⟨.unit 'a', 0, 1⟩, ⟨.bar, 1, 2⟩, ⟨.openGroup, 2, 3⟩, ⟨.unit 'b', 3, 4⟩] := by
  rw [Token.stream_of_next (by decide) rfl, Token.stream_of_next (by decide) rfl,
    Token.stream_of_next (by decide) rfl, Token.stream_of_next (by decide) rfl,
    Token.stream_of_size_le (by decide)]
  rfl

theorem parse_barInside_closed : Regex.parse (barInside ++ closingParens 2) 100000 =
    .ok (.group 0 (.alt (.literal (.unit 'a')) (.group 3 (.literal (.unit 'b'))))) := by
  have hrun : ReadState.run (barInside ++ closingParens 2) {} {} =
      .ok (⟨7, .normal, 0, [.part ⟨.group 0 (.alt (.literal (.unit 'a'))
        (.group 3 (.literal (.unit 'b')))), 3⟩]⟩, ⟨#[[], [0], [0, 1], [2]], ∅⟩) := by
    rw [ReadState.run_of_step (by decide) rfl, ReadState.run_of_step (by decide) rfl,
      ReadState.run_of_step (by decide) rfl, ReadState.run_of_step (by decide) rfl,
      ReadState.run_of_step (by decide) rfl, ReadState.run_of_step (by decide) rfl,
      ReadState.run_of_step (by decide) rfl, ReadState.run_of_size_le (by decide)]
    rfl
  have hsize : (Sharing.measure ⟨#[[], [0], [0, 1], [2]], ∅⟩ 3).1 = 5 := by
    simp [Sharing.measure, SizeTable.fill, OperandRecord.operands, Std.HashMap.getD_insert]
  refine (parse_iff_of_run hrun ?_ 100000).mpr (by decide)
  simp [ReadState.result, closeBranch, Part.before, bind, Except.bind, pure, Except.pure,
    Item.marker?, hsize, maxExpandedSize]

theorem parse_barOutside_closed : Regex.parse (barOutside ++ closingParens 1) 100000 =
    .ok (.alt (.literal (.unit 'a')) (.group 2 (.literal (.unit 'b')))) := by
  have hrun : ReadState.run (barOutside ++ closingParens 1) {} {} =
      .ok (⟨5, .normal, 0, [.part ⟨.group 2 (.literal (.unit 'b')), 1⟩, .marker (.bar 1),
        .part (.leaf (.literal (.unit 'a')))]⟩, ⟨#[[], [0]], ∅⟩) := by
    rw [ReadState.run_of_step (by decide) rfl, ReadState.run_of_step (by decide) rfl,
      ReadState.run_of_step (by decide) rfl, ReadState.run_of_step (by decide) rfl,
      ReadState.run_of_step (by decide) rfl, ReadState.run_of_size_le (by decide)]
    rfl
  have hsize : (Sharing.measure ⟨#[[], [0], [0, 1]], ∅⟩ 2).1 = 4 := by
    simp [Sharing.measure, SizeTable.fill, OperandRecord.operands, Std.HashMap.getD_insert]
  refine (parse_iff_of_run hrun ?_ 100000).mpr (by decide)
  simp [ReadState.result, closeBranch, Part.before, Part.orElse, Part.join, Sharing.add, Part.leaf,
    bind, Except.bind, pure, Except.pure, Item.marker?, hsize, maxExpandedSize]

/-- Of the two groups that `(a|(b` leaves open the outer one is reported. -/
theorem parse_unclosed_groups_barInside :
    ∃ error, Regex.parse barInside 100000 = .error error ∧
      error.fault.description = .ofString "Malformed regular expression" ∧ error.offset = 0 := by
  have hopen : (Token.unclosed (Token.stream barInside .normal 0)).countP (·.kind = .openGroup) =
      2 := by
    rw [stream_barInside]
    rfl
  obtain ⟨error, t, -, herror, hfault, hoffset, -, hopening, -⟩ :=
    parse_unclosed_groups (by decide) parse_barInside_closed hopen
  obtain ⟨-, hlast⟩ := hopening (by rw [stream_barInside]; rfl)
  rw [stream_barInside] at hlast
  obtain rfl : ⟨.openGroup, 0, 1⟩ = t := Option.some.inj hlast
  exact ⟨error, herror, hfault, hoffset⟩

/-- One parenthesis completes `a|(b`, but the error is not reported at the opening. -/
theorem parse_barOutside_at_bar :
    (∃ e, Regex.parse (barOutside ++ closingParens 1) 100000 = .ok e) ∧
      (Token.unclosed (Token.stream barOutside .normal 0)).countP (·.kind = .openGroup) = 1 ∧
      ∃ error, Regex.parse barOutside 100000 = .error error ∧ error.offset = 1 ∧
        ∀ t ∈ Token.stream barOutside .normal 0, t.kind = .openGroup → error.offset ≠ t.start := by
  have hrun : ReadState.run barOutside {} {} =
      .ok (⟨4, .normal, 1, [.part (.leaf (.literal (.unit 'b'))), .marker (.openGroup 0 2),
        .marker (.bar 1), .part (.leaf (.literal (.unit 'a')))]⟩, {}) := by
    rw [ReadState.run_of_step (by decide) rfl, ReadState.run_of_step (by decide) rfl,
      ReadState.run_of_step (by decide) rfl, ReadState.run_of_step (by decide) rfl,
      ReadState.run_of_size_le (by decide)]
    rfl
  have hread : Regex.read barOutside 100000 = .error ⟨.malformed, 1⟩ := by
    rw [Regex.read, if_neg (by decide), hrun]
    rfl
  refine ⟨⟨_, parse_barOutside_closed⟩, ?_, _, Regex.parse_of_read_error hread, rfl, ?_⟩
  · rw [stream_barOutside]
    rfl
  · rw [stream_barOutside]
    decide

end ExtendedRegex
