import ExtendedRegex.Proofs.OrderedChoice
import Mathlib.Data.List.Induction

/-!
The groups that a match goes through, in the order in which they are left. The slots of a group hold
both ends of the last way through it, whatever was saved before by other rounds of a loop or by
other occurrences of the group, and both of them are unset if no way through it was taken.
-/

set_option autoImplicit false
set_option relaxedAutoImplicit false

namespace ExtendedRegex

/-- A way through a group, from where it is entered to where it is left. -/
structure Traversal where
  label : Nat
  start : Nat
  stop : Nat
deriving DecidableEq, Repr

namespace Traversal

def span (t : Traversal) : Span := ⟨t.start, t.stop⟩

/-- The last way through a group. -/
def last? (log : List Traversal) (label : Nat) : Option Traversal :=
  (log.filter fun t ↦ t.label = label).getLast?

variable {log : List Traversal} {t : Traversal} {label : Nat}

theorem last?_concat :
    last? (log ++ [t]) label = if t.label = label then some t else last? log label := by
  by_cases h : t.label = label <;> simp [last?, h]

theorem mem_of_last? (h : t ∈ last? log label) : t ∈ log ∧ t.label = label := by
  simpa using List.mem_filter.mp (List.mem_of_getLast? h)

end Traversal

namespace Captures

variable {c : Captures} {log log' : List Traversal} {t : Traversal} {label position : Nat}

/-- What is saved after some groups have been gone through. -/
def after (c : Captures) (log : List Traversal) : Captures :=
  log.foldl (fun c t ↦ (c.openAt t.label t.start).closeAt t.label t.stop) c

theorem after_append : c.after (log ++ log') = (c.after log).after log' := List.foldl_append

theorem after_concat :
    c.after (log ++ [t]) = ((c.after log).openAt t.label t.start).closeAt t.label t.stop :=
  after_append

/-- A start that is saved for a group stays until the group is entered again. -/
theorem after_openAt (h : ∀ t ∈ log, t.label ≠ label) :
    (c.openAt label position).after log = (c.after log).openAt label position := by
  induction log using List.reverseRecOn with
  | nil => rfl
  | append_singleton log t ih =>
    have hne : t.label ≠ label := h t (by simp)
    rw [after_concat, after_concat, ih fun t' ht' ↦ h t' (by simp [ht'])]
    simp only [openAt, closeAt, Captures.mk.injEq, and_true]
    exact Function.update_comm hne.symm _ _ _

theorem start_after : (c.after log).start label =
    ((Traversal.last? log label).map Traversal.start).or (c.start label) := by
  induction log using List.reverseRecOn with
  | nil => rfl
  | append_singleton log t ih =>
    rw [after_concat, Traversal.last?_concat]
    by_cases h : t.label = label
    · simp [openAt, closeAt, h]
    · simp [openAt, closeAt, h, ih, Function.update_of_ne (Ne.symm h)]

theorem stop_after : (c.after log).stop label =
    ((Traversal.last? log label).map Traversal.stop).or (c.stop label) := by
  induction log using List.reverseRecOn with
  | nil => rfl
  | append_singleton log t ih =>
    rw [after_concat, Traversal.last?_concat]
    by_cases h : t.label = label
    · simp [openAt, closeAt, h]
    · simp [openAt, closeAt, h, ih, Function.update_of_ne (Ne.symm h)]

end Captures

namespace Regex

/-! ### Groups and their occurrences -/

/-- The parts of a tree, from the whole tree down. -/
def subtrees (e : Regex) : List Regex :=
  e :: match e with
    | cat left right | alt left right => left.subtrees ++ right.subtrees
    | opt inner _ | star inner _ | plus inner _ | group _ inner => inner.subtrees
    | empty | any | literal _ | oneOf _ | startAnchor | endAnchor => []

theorem mem_subtrees_self (e : Regex) : e ∈ e.subtrees := by
  cases e <;> simp [subtrees]

theorem mem_subtrees_of_operand {e f : Regex} (h : f ∈ e.operands) : f ∈ e.subtrees := by
  cases e with
  | empty | any | literal | oneOf | startAnchor | endAnchor => simp [operands] at h
  | cat | alt =>
    simp only [operands, List.mem_cons, List.not_mem_nil, or_false] at h
    rcases h with rfl | rfl <;> simp [subtrees, mem_subtrees_self]
  | opt | star | plus | group =>
    obtain rfl := List.mem_singleton.mp h
    simp [subtrees, mem_subtrees_self]

theorem mem_subtrees_trans {e f g : Regex} (hf : f ∈ e.subtrees) (hg : g ∈ f.subtrees) :
    g ∈ e.subtrees := by
  induction e with
  | empty | any | literal | oneOf | startAnchor | endAnchor =>
    obtain rfl := List.mem_singleton.mp hf
    exact hg
  | cat left right ihLeft ihRight | alt left right ihLeft ihRight =>
    rw [subtrees] at hf ⊢
    rcases List.mem_cons.mp hf with rfl | hf
    · exact hg
    · rcases List.mem_append.mp hf with hf | hf
      · exact List.mem_cons_of_mem _ (List.mem_append_left _ (ihLeft hf))
      · exact List.mem_cons_of_mem _ (List.mem_append_right _ (ihRight hf))
  | opt inner _ ih | star inner _ ih | plus inner _ ih | group _ inner ih =>
    rw [subtrees] at hf ⊢
    rcases List.mem_cons.mp hf with rfl | hf
    · exact hg
    · exact List.mem_cons_of_mem _ (ih hf)

theorem nodeCount_le_of_mem_subtrees {e f : Regex} (h : f ∈ e.subtrees) :
    f.nodeCount ≤ e.nodeCount := by
  induction e with
  | empty | any | literal | oneOf | startAnchor | endAnchor =>
    obtain rfl := List.mem_singleton.mp h
    exact Nat.le_refl _
  | cat left right ihLeft ihRight | alt left right ihLeft ihRight =>
    rw [subtrees] at h
    rcases List.mem_cons.mp h with rfl | h
    · exact Nat.le_refl _
    · rw [nodeCount]
      rcases List.mem_append.mp h with h | h
      · have := ihLeft h
        omega
      · have := ihRight h
        omega
  | opt inner _ ih | star inner _ ih | plus inner _ ih | group _ inner ih =>
    rw [subtrees] at h
    rcases List.mem_cons.mp h with rfl | h
    · exact Nat.le_refl _
    · rw [nodeCount]
      have := ih h
      omega

/-- All groups with one label have the same inside, so that they are occurrences of one group. -/
def Coherent (e : Regex) : Prop :=
  ∀ label inner inner', group label inner ∈ e.subtrees → group label inner' ∈ e.subtrees →
    inner = inner'

theorem Coherent.of_mem {e f : Regex} (h : e.Coherent) (hf : f ∈ e.subtrees) : f.Coherent :=
  fun label inner inner' hinner hinner' ↦
    h label inner inner' (mem_subtrees_trans hf hinner) (mem_subtrees_trans hf hinner')

theorem Coherent.operand {e f : Regex} (h : e.Coherent) (hf : f ∈ e.operands) : f.Coherent :=
  h.of_mem (mem_subtrees_of_operand hf)

/-- No group occurs inside itself. -/
theorem Coherent.not_mem_inside {label : Nat} {inner inner' : Regex}
    (h : (group label inner).Coherent) : group label inner' ∉ inner.subtrees := by
  intro hmem
  have houter : group label inner ∈ (group label inner).subtrees := mem_subtrees_self _
  have hinside : group label inner' ∈ (group label inner).subtrees :=
    List.mem_cons_of_mem _ hmem
  obtain rfl := h label inner inner' houter hinside
  have := nodeCount_le_of_mem_subtrees hmem
  rw [nodeCount] at this
  omega

theorem mem_openings_iff {e : Regex} {label : Nat} :
    label ∈ e.openings ↔ ∃ inner, group label inner ∈ e.subtrees := by
  induction e with
  | empty | any | literal | oneOf | startAnchor | endAnchor => simp [openings, subtrees]
  | cat left right ihLeft ihRight | alt left right ihLeft ihRight =>
    simp [openings, subtrees, ihLeft, ihRight, exists_or]
  | opt inner _ ih | star inner _ ih | plus inner _ ih => simp [openings, subtrees, ih]
  | group label' inner ih =>
    simp only [openings, subtrees, List.mem_cons, ih, group.injEq, exists_or]
    simp

/-! ### Matches and the groups on their way -/

variable (subject : Text) (anchor : Int)

/-- A match of a tree from one position to another, and the ways through groups that are part of it,
in the order in which the groups are left. -/
inductive Traverses : Regex → Nat → List Traversal → Nat → Prop where
  | empty (p : Nat) : Traverses empty p [] p
  | unit {e : Regex} {p : Nat} (h : e.reads subject p) : Traverses e p [] (p + 1)
  | cat {left right : Regex} {p m q : Nat} {log log' : List Traversal}
      (hleft : Traverses left p log m) (hright : Traverses right m log' q) :
      Traverses (cat left right) p (log ++ log') q
  | altLeft {left right : Regex} {p q : Nat} {log : List Traversal}
      (h : Traverses left p log q) : Traverses (alt left right) p log q
  | altRight {left right : Regex} {p q : Nat} {log : List Traversal}
      (h : Traverses right p log q) : Traverses (alt left right) p log q
  | optSkip (inner : Regex) (greedy : Bool) (p : Nat) : Traverses (opt inner greedy) p [] p
  | optEnter {inner : Regex} {greedy : Bool} {p q : Nat} {log : List Traversal}
      (h : Traverses inner p log q) : Traverses (opt inner greedy) p log q
  | starLeave (inner : Regex) (greedy : Bool) (p : Nat) : Traverses (star inner greedy) p [] p
  | starRound {inner : Regex} {greedy : Bool} {p m q : Nat} {log log' : List Traversal}
      (hround : Traverses inner p log m) (hrest : Traverses (star inner greedy) m log' q) :
      Traverses (star inner greedy) p (log ++ log') q
  | plusLast {inner : Regex} {greedy : Bool} {p q : Nat} {log : List Traversal}
      (h : Traverses inner p log q) : Traverses (plus inner greedy) p log q
  | plusRound {inner : Regex} {greedy : Bool} {p m q : Nat} {log log' : List Traversal}
      (hround : Traverses inner p log m) (hrest : Traverses (plus inner greedy) m log' q) :
      Traverses (plus inner greedy) p (log ++ log') q
  | group {label : Nat} {inner : Regex} {p q : Nat} {log : List Traversal}
      (h : Traverses inner p log q) :
      Traverses (group label inner) p (log ++ [⟨label, p, q⟩]) q
  | startAnchor {p : Nat} (h : (p : Int) = anchor) : Traverses startAnchor p [] p
  | endAnchor {p : Nat} (h : p = subject.size) : Traverses endAnchor p [] p

variable {subject anchor}
variable {e : Regex} {p q : Nat} {log : List Traversal}

theorem Traverses.le (h : e.Traverses subject anchor p log q) : p ≤ q := by
  induction h with
  | empty | optSkip | starLeave | startAnchor | endAnchor => exact Nat.le_refl _
  | unit => exact Nat.le_succ _
  | cat _ _ ih ih' | starRound _ _ ih ih' | plusRound _ _ ih ih' => exact Nat.le_trans ih ih'
  | altLeft _ ih | altRight _ ih | optEnter _ ih | plusLast _ ih | group _ ih => exact ih

/-- Only a tree that consumes a single unit reads one. -/
theorem spans_of_reads (h : e.reads subject p) : e.Spans subject anchor p (p + 1) := by
  obtain ⟨u, -, hconsumes⟩ := (Option.any_eq_true _ _).mp h
  cases e with
  | any | literal | oneOf => exact ⟨h, rfl⟩
  | _ => simp [consumes] at hconsumes

theorem Traverses.spans (h : e.Traverses subject anchor p log q) :
    e.Spans subject anchor p q := by
  induction h with
  | empty => exact rfl
  | unit h => exact spans_of_reads h
  | cat _ _ ih ih' => exact ⟨_, ih, ih'⟩
  | altLeft _ ih => exact Or.inl ih
  | altRight _ ih => exact Or.inr ih
  | optSkip => exact Or.inl rfl
  | optEnter _ ih => exact Or.inr ih
  | starLeave => exact Relation.ReflTransGen.refl
  | starRound _ _ ih ih' => exact Relation.ReflTransGen.head ih ih'
  | plusLast _ ih => exact Relation.TransGen.single ih
  | plusRound _ _ ih ih' => exact Relation.TransGen.head ih ih'
  | group _ ih => exact ih
  | startAnchor h | endAnchor h => exact ⟨h, rfl⟩

/-- Every way through a group is a match of the inside of that group, within the whole match. -/
theorem Traverses.of_mem_log (h : e.Traverses subject anchor p log q) {t : Traversal}
    (ht : t ∈ log) :
    p ≤ t.start ∧ t.start ≤ t.stop ∧ t.stop ≤ q ∧
      ∃ inner, Regex.group t.label inner ∈ e.subtrees ∧
        inner.Spans subject anchor t.start t.stop := by
  induction h with
  | empty | unit | optSkip | starLeave | startAnchor | endAnchor => simp at ht
  | @cat left right p m q log log' hleft hright ih ih' =>
    have hle := hleft.le
    have hle' := hright.le
    rcases List.mem_append.mp ht with ht | ht
    · obtain ⟨hp, ht, hq, inner, hinner, hspans⟩ := ih ht
      exact ⟨hp, ht, by omega, inner, by simp [subtrees, hinner], hspans⟩
    · obtain ⟨hp, ht, hq, inner, hinner, hspans⟩ := ih' ht
      exact ⟨by omega, ht, hq, inner, by simp [subtrees, hinner], hspans⟩
  | altLeft _ ih | altRight _ ih | optEnter _ ih | plusLast _ ih =>
    obtain ⟨hp, ht, hq, inner, hinner, hspans⟩ := ih ht
    exact ⟨hp, ht, hq, inner, by simp [subtrees, hinner], hspans⟩
  | starRound hround hrest ih ih' | plusRound hround hrest ih ih' =>
    have hle := hround.le
    have hle' := hrest.le
    rcases List.mem_append.mp ht with ht | ht
    · obtain ⟨hp, ht, hq, inner, hinner, hspans⟩ := ih ht
      exact ⟨hp, ht, by omega, inner, by simp [subtrees, hinner], hspans⟩
    · obtain ⟨hp, ht, hq, inner, hinner, hspans⟩ := ih' ht
      exact ⟨by omega, ht, hq, inner, hinner, hspans⟩
  | @group label inner p q log hinside ih =>
    rcases List.mem_append.mp ht with ht | ht
    · obtain ⟨hp, ht, hq, inner', hinner', hspans⟩ := ih ht
      exact ⟨hp, ht, hq, inner', by simp [subtrees, hinner'], hspans⟩
    · obtain rfl := List.mem_singleton.mp ht
      exact ⟨Nat.le_refl _, hinside.le, Nat.le_refl _, inner, mem_subtrees_self _,
        hinside.spans⟩

/-- What a match saves is what it saves for the groups on its way. -/
theorem Passes.exists_traverses {s t : Nat × Captures} (hcoherent : e.Coherent)
    (h : e.Passes subject anchor s t) :
    ∃ log, e.Traverses subject anchor s.1 log t.1 ∧ t.2 = s.2.after log := by
  induction e generalizing s t with
  | empty =>
    obtain rfl : s = t := h
    exact ⟨[], .empty _, rfl⟩
  | any | literal | oneOf =>
    obtain ⟨hreads, rfl⟩ := h
    exact ⟨[], .unit hreads, rfl⟩
  | cat left right ihLeft ihRight =>
    obtain ⟨m, hleft, hright⟩ := h
    obtain ⟨log, hlog, hm⟩ := ihLeft (hcoherent.operand (by simp [operands])) hleft
    obtain ⟨log', hlog', ht⟩ :=
      ihRight (hcoherent.operand (by simp [operands])) hright
    exact ⟨log ++ log', .cat hlog hlog', by rw [ht, hm, Captures.after_append]⟩
  | alt left right ihLeft ihRight =>
    rcases h with h | h
    · obtain ⟨log, hlog, ht⟩ := ihLeft (hcoherent.operand (by simp [operands])) h
      exact ⟨log, .altLeft hlog, ht⟩
    · obtain ⟨log, hlog, ht⟩ := ihRight (hcoherent.operand (by simp [operands])) h
      exact ⟨log, .altRight hlog, ht⟩
  | opt inner greedy ih =>
    rcases h with rfl | h
    · exact ⟨[], .optSkip _ _ _, rfl⟩
    · obtain ⟨log, hlog, ht⟩ := ih (hcoherent.operand (by simp [operands])) h
      exact ⟨log, .optEnter hlog, ht⟩
  | star inner greedy ih =>
    have hinner : inner.Coherent := hcoherent.operand (by simp [operands])
    induction h using Relation.ReflTransGen.head_induction_on with
    | refl => exact ⟨[], .starLeave _ _ _, rfl⟩
    | head hround _ ihRounds =>
      obtain ⟨log, hlog, hm⟩ := ih hinner hround
      obtain ⟨log', hlog', ht⟩ := ihRounds
      exact ⟨log ++ log', .starRound hlog hlog', by rw [ht, hm, Captures.after_append]⟩
  | plus inner greedy ih =>
    have hinner : inner.Coherent := hcoherent.operand (by simp [operands])
    induction h using Relation.TransGen.head_induction_on with
    | single hround =>
      obtain ⟨log, hlog, ht⟩ := ih hinner hround
      exact ⟨log, .plusLast hlog, ht⟩
    | head hround _ ihRounds =>
      obtain ⟨log, hlog, hm⟩ := ih hinner hround
      obtain ⟨log', hlog', ht⟩ := ihRounds
      exact ⟨log ++ log', .plusRound hlog hlog', by rw [ht, hm, Captures.after_append]⟩
  | group label inner ih =>
    obtain ⟨m, hinside, rfl⟩ := h
    obtain ⟨log, hlog, hm⟩ :=
      ih (hcoherent.operand (by simp [operands])) hinside
    refine ⟨log ++ [⟨label, s.1, m.1⟩], .group hlog, ?_⟩
    -- The inside does not enter the group again, so its start is still the one saved first.
    have hother : ∀ t ∈ log, t.label ≠ label := by
      rintro t ht rfl
      obtain ⟨-, -, -, inner', hinner', -⟩ := hlog.of_mem_log ht
      exact hcoherent.not_mem_inside hinner'
    rw [Captures.after_concat, hm, Captures.after_openAt hother]
  | startAnchor =>
    obtain ⟨hposition, rfl⟩ := h
    exact ⟨[], .startAnchor hposition, rfl⟩
  | endAnchor =>
    obtain ⟨hposition, rfl⟩ := h
    exact ⟨[], .endAnchor hposition, rfl⟩

/-! ### What a search reports -/

variable (e subject anchor) in
/-- The slots that go with a match: those of the whole match, and for each group those of the last
way through it. -/
structure Records (slots : Slots) (start : Nat) (log : List Traversal) (stop : Nat) : Prop where
  traverses : e.Traverses subject anchor start log stop
  start_eq : slots.get 0 = some start
  stop_eq : slots.get 1 = some stop
  group_eq : ∀ k label, e.labels[k]? = some label →
    slots.get (2 * (k + 1)) = (Traversal.last? log label).map Traversal.start ∧
      slots.get (2 * (k + 1) + 1) = (Traversal.last? log label).map Traversal.stop

theorem records_after {start stop : Nat} {log : List Traversal}
    (h : e.Traverses subject anchor start log stop) :
    e.Records subject anchor (((Captures.unset.after log).slots e.labels start).setIfInBounds 1
      (some stop)) start log stop := by
  rw [Captures.slots_close]
  refine ⟨h, rfl, rfl, fun k label hlabel ↦ ?_⟩
  rw [(Captures.get_pairs k).1, (Captures.get_pairs k).2, hlabel, Option.bind_some,
    Option.bind_some, Captures.start_after, Captures.stop_after]
  exact ⟨Option.or_none, Option.or_none⟩

/-- The slots of a group are unset, or come from one way through the group. -/
theorem Records.exists_group {slots : Slots} {start stop : Nat} {log : List Traversal}
    (h : e.Records subject anchor slots start log stop) (hcoherent : e.Coherent) {k : Nat}
    (hk : k < e.labels.length) :
    ∃ label inner, e.labels[k]? = some label ∧ group label inner ∈ e.subtrees ∧
      (slots.get (2 * (k + 1)) = none ∧ slots.get (2 * (k + 1) + 1) = none ∨
        ∃ t ∈ Traversal.last? log label,
          slots.get (2 * (k + 1)) = some t.start ∧ slots.get (2 * (k + 1) + 1) = some t.stop ∧
            start ≤ t.start ∧ t.start ≤ t.stop ∧ t.stop ≤ stop ∧
            inner.Spans subject anchor t.start t.stop) := by
  have hlabel : e.labels[k]? = some e.labels[k] := List.getElem?_eq_getElem hk
  obtain ⟨inner, hinner⟩ :=
    mem_openings_iff.mp ((mem_labels_iff e).mp (List.getElem_mem hk))
  obtain ⟨hstart, hstop⟩ := h.group_eq k _ hlabel
  refine ⟨_, inner, hlabel, hinner, ?_⟩
  cases hlast : Traversal.last? log e.labels[k] with
  | none =>
    rw [hlast] at hstart hstop
    exact Or.inl ⟨hstart, hstop⟩
  | some t =>
    rw [hlast] at hstart hstop
    obtain ⟨hmem, hlabel'⟩ := Traversal.mem_of_last? hlast
    obtain ⟨hfrom, hle, hto, inner', hinner', hspans⟩ := h.traverses.of_mem_log hmem
    rw [hlabel'] at hinner'
    obtain rfl := hcoherent _ _ _ hinner hinner'
    exact Or.inr ⟨t, rfl, hstart, hstop, hfrom, hle, hto, hspans⟩

/-- The slots with which an attempt ends are those of a match. -/
theorem records_of_outcome (hcoherent : e.Coherent) {position : Nat} {slots : Slots}
    (h : e.compile.Outcome subject anchor List.Nodup [e.compile.start position] (some slots)) :
    ∃ log stop, e.Records subject anchor slots position log stop := by
  obtain ⟨t, ht, hslots⟩ := e.passes_of_outcome h
  obtain ⟨log, hlog, hsaved⟩ := ht.exists_traverses hcoherent
  refine ⟨log, t.1, ?_⟩
  rw [hslots, hsaved]
  exact records_after hlog

/-- A search ends with nothing, or with what goes with some match. -/
theorem scan_compile_records (hcoherent : e.Coherent) (subject : Text) (anchor : Int) {origin : Nat}
    (horigin : origin ≤ subject.size) :
    e.compile.scan subject anchor none (e.compile.states subject) 0 origin = .ok none ∨
      ∃ slots start log stop,
        e.compile.scan subject anchor none (e.compile.states subject) 0 origin =
            .ok (some slots) ∧
          origin ≤ start ∧ start ≤ subject.size ∧
          e.Records subject anchor slots start log stop := by
  rcases Program.scan_cases e.compile_wellFormed anchor horigin with
    hscan | ⟨start, slots, hscan, hle, hstart, houtcome⟩
  · exact Or.inl hscan
  · obtain ⟨log, stop, hrecords⟩ := records_of_outcome hcoherent houtcome
    exact Or.inr ⟨slots, start, log, stop, hscan, hle, hstart, hrecords⟩

/-- A search ends, and what it reports is real: the whole match and each group are matches of their
trees, and both ends of a group come from the last way through it on the way of the whole match. -/
theorem search_compile_traversals {e : Regex} (hcoherent : e.Coherent) (subject : Text)
    (anchor origin : Int) :
    ∃ result, e.compile.search subject origin ⟨some anchor, none⟩ = .ok result ∧
      ∀ found ∈ result, ∃ (slots : Slots) (start stop : Nat) (log : List Traversal),
        e.compile.scan subject anchor none (e.compile.states subject) 0 origin.toNat =
            .ok (some slots) ∧
          found = slots.found e.compile.groupCount ∧
          found.start = some start ∧ found.stop = some stop ∧
          origin ≤ start ∧ start ≤ stop ∧ stop ≤ subject.size ∧
          e.Spans subject anchor start stop ∧ e.Traverses subject anchor start log stop ∧
          ∀ k, k + 1 < e.compile.groupCount → ∃ label inner,
            e.labels[k]? = some label ∧ group label inner ∈ e.subtrees ∧
              (slots.get (2 * (k + 1)) = none ∧ slots.get (2 * (k + 1) + 1) = none ∨
                ∃ t ∈ Traversal.last? log label,
                  slots.get (2 * (k + 1)) = some t.start ∧
                    slots.get (2 * (k + 1) + 1) = some t.stop ∧
                    start ≤ t.start ∧ t.start ≤ t.stop ∧ t.stop ≤ stop ∧
                    inner.Spans subject anchor t.start t.stop) := by
  by_cases hinside : 0 ≤ origin ∧ origin ≤ subject.size
  · obtain ⟨origin, rfl⟩ := Int.eq_ofNat_of_zero_le hinside.1
    have horigin : origin ≤ subject.size := Int.ofNat_le.mp hinside.2
    rcases scan_compile_records hcoherent subject anchor horigin with
      hscan | ⟨slots, start, log, stop, hscan, hle, hstart, hrecords⟩
    · exact ⟨none, Program.search_of_scan horigin hscan, by simp⟩
    · refine ⟨_, Program.search_of_scan horigin hscan, ?_⟩
      simp only [Option.map_some, Option.mem_def, Option.some.injEq, forall_eq']
      have hspans := hrecords.traverses.spans
      obtain ⟨hle', hstop⟩ := hspans.within hstart
      refine ⟨slots, start, stop, log, hscan, rfl, hrecords.start_eq, hrecords.stop_eq,
        by omega, hle', hstop, hspans, hrecords.traverses, fun k hk ↦ ?_⟩
      rw [(code_compile e).2, Nat.add_lt_add_iff_right] at hk
      exact hrecords.exists_group hcoherent hk
  · refine ⟨none, ?_, by simp⟩
    have houtside : origin < 0 ∨ (subject.size : Int) < origin := by omega
    simp only [Program.search, if_pos houtside]
    rfl

/-- Something is found from an origin where the tree matches. -/
theorem search_ne_none_of_spans {origin stop : Nat} (h : e.Spans subject anchor origin stop)
    (horigin : origin ≤ subject.size) :
    e.compile.search subject origin ⟨some anchor, none⟩ ≠ .ok none := by
  have hp := e.compile_wellFormed
  obtain ⟨r, houtcome⟩ := Program.exists_outcome hp anchor horigin
  have hr : r ≠ none :=
    (Program.outcome_ne_none_iff hp horigin houtcome).mpr (e.live_start_compile_iff.mpr ⟨stop, h⟩)
  obtain ⟨slots, rfl⟩ := Option.ne_none_iff_exists'.mp hr
  have hscan := Program.scan_eq_some hp horigin (Nat.le_refl _) houtcome
    fun k' hle hlt ↦ absurd hle (by omega)
  rw [Program.search_of_scan horigin hscan]
  simp

/-- A group around a loop that can be left at once; the group occurs in a loop of its own and once
more after it. -/
def sharedGroup : Regex :=
  let inner := Regex.group 0 (.star (.literal (.unit 'a')) true)
  .cat (.star inner true) inner

theorem sharedGroup_coherent : sharedGroup.Coherent := by
  intro label inner inner' hinner hinner'
  simp only [sharedGroup, subtrees, List.mem_cons, List.mem_append, List.not_mem_nil, reduceCtorEq,
    group.injEq, or_false, false_or, or_self] at hinner hinner'
  rw [hinner.2, hinner'.2]

theorem search_sharedGroup :
    sharedGroup.Coherent ∧ ∃ found start stop log,
      sharedGroup.compile.search #['b', 'a', 'a'] (1 : Nat) ⟨some 0, none⟩ = .ok (some found) ∧
        found.start = some start ∧ found.stop = some stop ∧ 1 ≤ (start : Int) ∧
        sharedGroup.Traverses #['b', 'a', 'a'] 0 start log stop := by
  have hmatch : sharedGroup.Spans #['b', 'a', 'a'] 0 1 1 :=
    ⟨1, Relation.ReflTransGen.refl, Relation.ReflTransGen.refl⟩
  obtain ⟨result, hsearch, hreal⟩ :=
    search_compile_traversals sharedGroup_coherent #['b', 'a', 'a'] 0 (1 : Nat)
  cases result with
  | none => exact absurd hsearch (search_ne_none_of_spans hmatch (by decide))
  | some found =>
    obtain ⟨_, start, stop, log, -, -, hstart, hstop, hle, -, -, -, htraverses, -⟩ :=
      hreal found rfl
    exact ⟨sharedGroup_coherent, found, start, stop, log, hsearch, hstart, hstop, hle, htraverses⟩

end Regex

end ExtendedRegex
