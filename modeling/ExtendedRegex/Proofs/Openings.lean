import ExtendedRegex.Proofs.Renumbering

/-!
Tokens that open something and those that close it. The openings that some tokens leave open are
kept as a list, the innermost one first; what is closed leaves this list again.
-/

set_option autoImplicit false
set_option relaxedAutoImplicit false

namespace ExtendedRegex

namespace Token

/-- Whether a token puts something on the stack that has to be closed. -/
def Kind.opens : Kind → Bool
  | openGroup | openBracket | openBound => true
  | _ => false

/-- Whether a token closes what another one has opened. -/
def Kind.closes : Kind → Kind → Bool
  | closeGroup, openGroup | closeBracket, openBracket | closeBound, openBound => true
  | _, _ => false

/-- The openings without a closing, behind one more token. -/
def track (opened : List Token) (t : Token) : List Token :=
  if t.kind.opens then t :: opened
  else
    match opened with
    | [] => []
    | inner :: outer => if t.kind.closes inner.kind then outer else opened

/-- The openings among some tokens that are not closed. -/
def unclosed (tokens : List Token) : List Token := tokens.foldl track []

variable {t inner : Token} {opened outer tokens above : List Token}

theorem track_of_opens (h : t.kind.opens = true) : track opened t = t :: opened := if_pos h

theorem track_of_closes (hopens : t.kind.opens = false) (h : t.kind.closes inner.kind = true) :
    track (inner :: outer) t = outer := by
  simp only [track, hopens, Bool.false_eq_true, if_false, h, if_true]

theorem track_of_neither (hopens : t.kind.opens = false)
    (h : ∀ inner ∈ opened, t.kind.closes inner.kind = false) : track opened t = opened := by
  cases opened with
  | nil => simp only [track, hopens, Bool.false_eq_true, if_false]
  | cons inner outer =>
    simp only [track, hopens, h inner List.mem_cons_self, Bool.false_eq_true, if_false]

theorem unclosed_concat (tokens : List Token) (t : Token) :
    unclosed (tokens ++ [t]) = track (unclosed tokens) t := by
  rw [unclosed, List.foldl_append]
  rfl

/-- Only a closing of the innermost opening itself changes what is below the openings above it. -/
theorem track_append (h : above = [] → t.kind.closes inner.kind = false) :
    track (above ++ inner :: outer) t = track above t ++ inner :: outer := by
  cases hopens : t.kind.opens with
  | true => rw [track_of_opens hopens, track_of_opens hopens, List.cons_append]
  | false =>
    cases above with
    | nil =>
      simp only [List.nil_append, track, hopens, h rfl, Bool.false_eq_true, if_false]
    | cons top above =>
      simp only [List.cons_append, track, hopens, Bool.false_eq_true, if_false]
      split <;> rfl

/-- An opening that is not left open has a closing behind it, and whatever is opened in between is
closed in between. -/
theorem exists_closing (h : tokens.foldl track (above ++ t :: outer) = []) :
    ∃ inside closing behind, tokens = inside ++ closing :: behind ∧
      closing.kind.closes t.kind = true ∧ inside.foldl track above = [] := by
  induction tokens generalizing above with
  | nil => simp at h
  | cons u tokens ih =>
    by_cases hcloses : above = [] ∧ u.kind.closes t.kind = true
    · exact ⟨[], u, tokens, rfl, hcloses.2, hcloses.1⟩
    · have hkeeps : above = [] → u.kind.closes t.kind = false := by simpa using hcloses
      rw [List.foldl_cons, track_append hkeeps] at h
      obtain ⟨inside, closing, behind, rfl, hkind, hinside⟩ := ih h
      exact ⟨u :: inside, closing, behind, rfl, hkind, hinside⟩

/-- Each opening among tokens that leave nothing open has its closing. -/
theorem exists_closing_of_unclosed {before behind : List Token} (ht : t.kind.opens = true)
    (h : unclosed (before ++ t :: behind) = []) :
    ∃ inside closing rest, behind = inside ++ closing :: rest ∧
      closing.kind.closes t.kind = true ∧ unclosed inside = [] := by
  rw [unclosed, List.foldl_append, List.foldl_cons, track_of_opens ht,
    ← List.nil_append (t :: List.foldl _ _ _)] at h
  exact exists_closing h

end Token

/-! ### Tokens of a mode -/

/-- Whether tokens of a kind are read outside of bounds and bracket expressions only. -/
def Token.Kind.outside : Token.Kind → Bool
  | any | quantifier _ | bar | openGroup | closeGroup | openBound | startAnchor | endAnchor => true
  | endOfPattern | unit _ | openBracket | closeBracket | closeBound | builtin _ _ => false

/-- Whether tokens of a kind are read in a mode. -/
def Mode.Reads (mode : Mode) (kind : Token.Kind) : Prop :=
  kind = .endOfPattern ∨ (∃ u, kind = .unit u) ∨ (∃ b negated, kind = .builtin b negated) ∨
    ∃ u, (u, kind) ∈ mode.special

namespace Mode

variable {pattern : Text} {mode : Mode} {offset : Nat} {t : Token} {kind : Token.Kind}

theorem reads_of_next (h : Token.next pattern mode offset = .ok t) : mode.Reads t.kind := by
  cases Token.standsAt_of_next h with
  | endOfPattern => exact .inl rfl
  | escaped | unit => exact .inr (.inl ⟨_, rfl⟩)
  | builtin => exact .inr (.inr (.inl ⟨_, _, rfl⟩))
  | special _ _ hkind => exact .inr (.inr (.inr ⟨_, mode.mem_special hkind⟩))

theorem Reads.eq_normal (h : mode.Reads kind) (hkind : kind.outside = true) : mode = .normal := by
  rcases h with rfl | ⟨u, rfl⟩ | ⟨b, negated, rfl⟩ | ⟨u, h⟩
  · cases hkind
  · cases hkind
  · cases hkind
  · cases mode with
    | normal => rfl
    | bound =>
      obtain ⟨-, rfl⟩ : u = '}' ∧ kind = .closeBound := by simpa [special] using h
      cases hkind
    | bracket negated outer =>
      obtain ⟨-, rfl⟩ | ⟨-, rfl⟩ : (u = '[' ∧ kind = .openBracket) ∨
          (u = ']' ∧ kind = .closeBracket) := by simpa [special] using h
      all_goals cases hkind

theorem Reads.ne_bound (h : mode.Reads kind)
    (hkind : kind = .openBracket ∨ kind = .closeBracket) : mode ≠ .bound := by
  rintro rfl
  rcases hkind with rfl | rfl <;> simp [Reads, special] at h

theorem Reads.ne_bracket (h : mode.Reads .closeBound) (negated : Bool) (outer : Mode) :
    mode ≠ .bracket negated outer := by
  rintro rfl
  simp [Reads, special] at h

end Mode

end ExtendedRegex
