import ExtendedRegex.Proofs.Spans

/-!
The ways in which a tree matches, in the order of preference: the left branch of an alternative
before the right one, and in optional parts and loops going on before leaving, or after it if they
are lazy. Where every round of a loop consumes something, an attempt with the program of a tree
finds the first of these ways, with all that it saves.
-/

set_option autoImplicit false
set_option relaxedAutoImplicit false

namespace ExtendedRegex

namespace Regex

/-- Whether a tree can match without consuming anything, as far as its shape tells: an anchor counts
as if it could hold anywhere. -/
def nullable : Regex → Bool
  | empty | opt _ _ | star _ _ | startAnchor | endAnchor => true
  | any | literal _ | oneOf _ => false
  | cat left right => left.nullable && right.nullable
  | alt left right => left.nullable || right.nullable
  | plus inner _ | group _ inner => inner.nullable

/-- Every round of every loop consumes something. -/
def LoopsConsume : Regex → Prop
  | empty | any | literal _ | oneOf _ | startAnchor | endAnchor => True
  | cat left right | alt left right => left.LoopsConsume ∧ right.LoopsConsume
  | opt inner _ | group _ inner => inner.LoopsConsume
  | star inner _ | plus inner _ => inner.nullable = false ∧ inner.LoopsConsume

/-- Going on and leaving, in the order of preference. -/
def prefer {α : Type} (greedy : Bool) (enter leave : List α) : List α :=
  if greedy then enter ++ leave else leave ++ enter

/-- The ways through a loop from where it goes on or is left. A round is followed only if it gets on
within the subject, which it does if it consumes something. -/
def rounds (size : Nat) (body : Nat × Captures → List (Nat × Captures)) (greedy : Bool)
    (s : Nat × Captures) : List (Nat × Captures) :=
  prefer greedy
    ((body s).flatMap fun t ↦
      if _h : s.1 < t.1 ∧ t.1 ≤ size then rounds size body greedy t else [])
    [s]
termination_by size - s.1

variable (subject : Text) (anchor : Int)

/-- Where a match of a tree ends and what is saved by then, for all ways in which it matches from a
position, in the order of preference. -/
def runs : Regex → Nat × Captures → List (Nat × Captures)
  | empty => fun s ↦ [s]
  | any => fun s ↦ if any.reads subject s.1 then [(s.1 + 1, s.2)] else []
  | literal l => fun s ↦ if (literal l).reads subject s.1 then [(s.1 + 1, s.2)] else []
  | oneOf set => fun s ↦ if (oneOf set).reads subject s.1 then [(s.1 + 1, s.2)] else []
  | cat left right => fun s ↦ (left.runs s).flatMap right.runs
  | alt left right => fun s ↦ left.runs s ++ right.runs s
  | opt inner greedy => fun s ↦ prefer greedy (inner.runs s) [s]
  | star inner greedy => rounds subject.size inner.runs greedy
  | plus inner greedy => fun s ↦ (inner.runs s).flatMap (rounds subject.size inner.runs greedy)
  | group label inner => fun s ↦
    (inner.runs (s.1, s.2.openAt label s.1)).map fun t ↦ (t.1, t.2.closeAt label t.1)
  | startAnchor => fun s ↦ if (s.1 : Int) = anchor then [s] else []
  | endAnchor => fun s ↦ if s.1 = subject.size then [s] else []

variable {subject anchor}

/-! ### How far a match gets -/

theorem reads_lt {e : Regex} {position : Nat} (h : e.reads subject position) :
    position < subject.size := by
  obtain ⟨u, hu, -⟩ := Option.any_eq_true _ _ |>.mp h
  exact (Array.getElem?_eq_some_iff.mp hu).1

/-- A match ends within the subject, at or after its start. -/
theorem Spans.within {e : Regex} {p q : Nat} (h : e.Spans subject anchor p q)
    (hp : p ≤ subject.size) : p ≤ q ∧ q ≤ subject.size := by
  induction e generalizing p q with
  | empty =>
    obtain rfl : p = q := h
    exact ⟨Nat.le_refl _, hp⟩
  | any | literal | oneOf =>
    obtain ⟨hreads, rfl⟩ := h
    exact ⟨Nat.le_succ p, reads_lt hreads⟩
  | cat left right ihLeft ihRight =>
    obtain ⟨m, hleft, hright⟩ := h
    obtain ⟨hpm, hm⟩ := ihLeft hleft hp
    obtain ⟨hmq, hq⟩ := ihRight hright hm
    exact ⟨Nat.le_trans hpm hmq, hq⟩
  | alt left right ihLeft ihRight =>
    rcases h with h | h
    · exact ihLeft h hp
    · exact ihRight h hp
  | opt inner greedy ih =>
    rcases h with rfl | h
    · exact ⟨Nat.le_refl _, hp⟩
    · exact ih h hp
  | star inner greedy ih =>
    induction h with
    | refl => exact ⟨Nat.le_refl _, hp⟩
    | tail _ hround ihRounds =>
      obtain ⟨hpm, hm⟩ := ihRounds
      obtain ⟨hmq, hq⟩ := ih hround hm
      exact ⟨Nat.le_trans hpm hmq, hq⟩
  | plus inner greedy ih =>
    induction h with
    | single hround => exact ih hround hp
    | tail _ hround ihRounds =>
      obtain ⟨hpm, hm⟩ := ihRounds
      obtain ⟨hmq, hq⟩ := ih hround hm
      exact ⟨Nat.le_trans hpm hmq, hq⟩
  | group label inner ih => exact ih h hp
  | startAnchor | endAnchor =>
    obtain ⟨-, rfl⟩ := h
    exact ⟨Nat.le_refl _, hp⟩

/-- A tree that is not nullable consumes something wherever it matches. -/
theorem Spans.lt {e : Regex} {p q : Nat} (h : e.Spans subject anchor p q)
    (hp : p ≤ subject.size) (hnullable : e.nullable = false) : p < q := by
  induction e generalizing p q with
  | empty | opt | star | startAnchor | endAnchor => simp [nullable] at hnullable
  | any | literal | oneOf =>
    obtain ⟨-, rfl⟩ := h
    exact Nat.lt_succ_self p
  | cat left right ihLeft ihRight =>
    obtain ⟨m, hleft, hright⟩ := h
    obtain ⟨hpm, hm⟩ := hleft.within hp
    rcases Bool.and_eq_false_iff.mp hnullable with hn | hn
    · exact Nat.lt_of_lt_of_le (ihLeft hleft hp hn) (hright.within hm).1
    · exact Nat.lt_of_le_of_lt hpm (ihRight hright hm hn)
  | alt left right ihLeft ihRight =>
    obtain ⟨hnLeft, hnRight⟩ := Bool.or_eq_false_iff.mp hnullable
    rcases h with h | h
    · exact ihLeft h hp hnLeft
    · exact ihRight h hp hnRight
  | plus inner greedy ih =>
    induction h with
    | single hround => exact ih hround hp hnullable
    | tail hrounds hround ihRounds =>
      have hwithin := Spans.within (e := inner.plus greedy) hrounds hp
      exact Nat.lt_trans ihRounds (ih hround hwithin.2 hnullable)
  | group label inner ih => exact ih h hp hnullable

/-! ### Ways in order and matches -/

theorem mem_prefer {α : Type} {greedy : Bool} {enter leave : List α} {a : α} :
    a ∈ prefer greedy enter leave ↔ a ∈ enter ∨ a ∈ leave := by
  cases greedy <;> simp [prefer, or_comm]

theorem map_prefer {α β : Type} (f : α → β) (greedy : Bool) (enter leave : List α) :
    (prefer greedy enter leave).map f = prefer greedy (enter.map f) (leave.map f) := by
  cases greedy <;> simp [prefer]

theorem mem_rounds {size : Nat} {body : Nat × Captures → List (Nat × Captures)} {greedy : Bool}
    {s t : Nat × Captures} (h : t ∈ rounds size body greedy s) :
    Relation.ReflTransGen (fun s t ↦ t ∈ body s) s t := by
  induction hn : size - s.1 using Nat.strongRecOn generalizing s with
  | _ n ih =>
    rw [rounds, mem_prefer] at h
    rcases h with h | h
    · obtain ⟨m, hm, hrest⟩ := List.mem_flatMap.mp h
      split at hrest
      · next hgetsOn => exact Relation.ReflTransGen.head hm (ih _ (by omega) hrest rfl)
      · simp at hrest
    · rw [List.mem_singleton.mp h]

/-- Every way in which a tree matches is a match of the tree. -/
theorem passes_of_mem_runs {e : Regex} {s t : Nat × Captures} (h : t ∈ e.runs subject anchor s) :
    e.Passes subject anchor s t := by
  induction e generalizing s t with
  | empty => exact (List.mem_singleton.mp h).symm
  | any | literal | oneOf =>
    obtain ⟨hreads, ht⟩ := List.mem_ite_nil_right.mp h
    exact ⟨hreads, List.mem_singleton.mp ht⟩
  | cat left right ihLeft ihRight =>
    obtain ⟨m, hleft, hright⟩ := List.mem_flatMap.mp h
    exact ⟨m, ihLeft hleft, ihRight hright⟩
  | alt left right ihLeft ihRight => exact (List.mem_append.mp h).imp ihLeft ihRight
  | opt inner greedy ih =>
    rcases mem_prefer.mp h with h | h
    · exact Or.inr (ih h)
    · exact Or.inl (List.mem_singleton.mp h).symm
  | star inner greedy ih => exact Relation.ReflTransGen.mono (fun _ _ ↦ ih) _ _ (mem_rounds h)
  | plus inner greedy ih =>
    obtain ⟨m, hround, hrounds⟩ := List.mem_flatMap.mp h
    have hrest : Relation.ReflTransGen (inner.Passes subject anchor) m t :=
      Relation.ReflTransGen.mono (fun _ _ ↦ ih) _ _ (mem_rounds hrounds)
    exact Relation.TransGen.head' (ih hround) hrest
  | group label inner ih =>
    obtain ⟨m, hinner, rfl⟩ := List.mem_map.mp h
    exact ⟨m, ih hinner, rfl⟩
  | startAnchor | endAnchor =>
    obtain ⟨hposition, ht⟩ := List.mem_ite_nil_right.mp h
    exact ⟨hposition, (List.mem_singleton.mp ht).symm⟩

theorem le_size_of_mem_runs {e : Regex} {s t : Nat × Captures} (h : t ∈ e.runs subject anchor s)
    (hs : s.1 ≤ subject.size) : t.1 ≤ subject.size :=
  ((passes_of_mem_runs h).spans.within hs).2

/-- Where the body consumes something, every round gets on within the subject. -/
theorem getsOn_of_mem_runs {e : Regex} {s t : Nat × Captures} (h : t ∈ e.runs subject anchor s)
    (hs : s.1 ≤ subject.size) (hnullable : e.nullable = false) :
    s.1 < t.1 ∧ t.1 ≤ subject.size :=
  ⟨(passes_of_mem_runs h).spans.lt hs hnullable, le_size_of_mem_runs h hs⟩

theorem rounds_eq {size : Nat} {body : Nat × Captures → List (Nat × Captures)} {greedy : Bool}
    {s : Nat × Captures} (h : ∀ t ∈ body s, s.1 < t.1 ∧ t.1 ≤ size) :
    rounds size body greedy s =
      prefer greedy ((body s).flatMap (rounds size body greedy)) [s] := by
  rw [rounds]
  congr 1
  exact List.flatMap_congr fun t ht ↦ dif_pos (h t ht)

/-- A loop whose body consumes something goes on through its body to itself, or is left. -/
theorem runs_star {inner : Regex} {greedy : Bool} (h : (inner.star greedy).LoopsConsume)
    {s : Nat × Captures} (hs : s.1 ≤ subject.size) :
    (inner.star greedy).runs subject anchor s =
      prefer greedy
        ((inner.runs subject anchor s).flatMap ((inner.star greedy).runs subject anchor)) [s] :=
  rounds_eq fun _ ht ↦ getsOn_of_mem_runs ht hs h.1

end Regex

/-! ### The code of a tree -/

namespace Program.Agree

variable {p : Program} {subject : Text} {anchor : Int} {j : Job} {i : Instr} {greedy : Bool}
  {jobs jobs' rest rest' : List Job}

theorem next (hcode : p.code[j.address]? = some i) (hi : i ≠ .accept) :
    p.Agree subject anchor [j] (j.next subject anchor i) := by
  rw [← successors_eq hcode]
  refine successors fun haccept ↦ hi ?_
  exact Option.some.inj (hcode.symm.trans haccept)

theorem prefer (h : p.Agree subject anchor jobs jobs') (hrest : p.Agree subject anchor rest rest') :
    p.Agree subject anchor (Regex.prefer greedy jobs rest) (Regex.prefer greedy jobs' rest') := by
  cases greedy with
  | true => exact h.append hrest
  | false => exact hrest.append h

theorem branch {enter leave : Nat}
    (hcode : p.code[j.address]? = some (.branch greedy enter leave)) :
    p.Agree subject anchor [j] (Regex.prefer greedy [j.jump enter] [j.jump leave]) := by
  have hnext : p.Agree subject anchor [j] (j.next subject anchor (.branch greedy enter leave)) :=
    next hcode (Instr.branch_ne_accept _ _ _)
  rw [Job.next_branch] at hnext
  exact hnext

end Program.Agree

namespace Regex

variable {p : Program} {subject : Text} {anchor : Int} {labels : List Nat} {start : Nat}

open Program (Agree)

theorem agree_jump {address target : Nat} (hjump : p.code[address]? = some (.jump target))
    (s : Nat × Captures) :
    p.Agree subject anchor [.resume labels start address s] [.resume labels start target s] :=
  Agree.next (j := .resume labels start address s) hjump (by simp)

theorem agree_open (hlabels : labels.Nodup) {address label : Nat}
    (hopen : p.code[address]? = some (.save (2 * groupNumber labels label)))
    (s : Nat × Captures) :
    p.Agree subject anchor [.resume labels start address s]
      [.resume labels start (address + 1) (s.1, s.2.openAt label s.1)] := by
  have hnext : p.Agree subject anchor [.resume labels start address s]
      [(Job.resume labels start address s).save (2 * groupNumber labels label)] :=
    Agree.next (j := .resume labels start address s) hopen (by simp)
  rwa [Job.resume_open hlabels] at hnext

theorem agree_close (hlabels : labels.Nodup) {address label : Nat}
    (hclose : p.code[address]? = some (.save (2 * groupNumber labels label + 1)))
    (s : Nat × Captures) :
    p.Agree subject anchor [.resume labels start address s]
      [.resume labels start (address + 1) (s.1, s.2.closeAt label s.1)] := by
  have hnext : p.Agree subject anchor [.resume labels start address s]
      [(Job.resume labels start address s).save (2 * groupNumber labels label + 1)] :=
    Agree.next (j := .resume labels start address s) hclose (by simp)
  rwa [Job.resume_close hlabels] at hnext

/-- The code of a loop, given that of its body: `fork` stands where the loop goes on at `enter` or
is left to `leave`. -/
theorem agree_rounds {body : Nat × Captures → List (Nat × Captures)} {greedy : Bool}
    {fork enter leave : Nat} (hfork : p.code[fork]? = some (.branch greedy enter leave))
    (hbody : ∀ s, s.1 ≤ subject.size → p.Agree subject anchor [.resume labels start enter s]
      ((body s).map (.resume labels start fork)))
    (hgetsOn : ∀ s, s.1 ≤ subject.size → ∀ t ∈ body s, s.1 < t.1 ∧ t.1 ≤ subject.size)
    {s : Nat × Captures} (hs : s.1 ≤ subject.size) :
    p.Agree subject anchor [.resume labels start fork s]
      ((rounds subject.size body greedy s).map (.resume labels start leave)) := by
  -- The rest of the subject gets shorter with every round.
  induction hn : subject.size - s.1 using Nat.strongRecOn generalizing s with
  | _ n ih =>
    have hrounds : p.Agree subject anchor ((body s).map (.resume labels start fork))
        (((body s).flatMap (rounds subject.size body greedy)).map
          (.resume labels start leave)) := by
      rw [List.map_flatMap]
      refine Agree.flatMap fun t ht ↦ ?_
      obtain ⟨hlt, hle⟩ := hgetsOn s hs t ht
      exact ih _ (by omega) hle rfl
    have hbranch : p.Agree subject anchor [.resume labels start fork s]
        (prefer greedy [.resume labels start enter s] [.resume labels start leave s]) :=
      Agree.branch hfork
    rw [rounds_eq (hgetsOn s hs), map_prefer]
    exact hbranch.trans (((hbody s hs).trans hrounds).prefer (.refl _))

/-- The code of a tree leads to the ways in which the tree matches, in their order. -/
theorem agree_runs (hlabels : labels.Nodup) {e : Regex} (hloops : e.LoopsConsume) {base : Nat}
    (hcode : p.HasCode base (e.code labels base)) {s : Nat × Captures} (hs : s.1 ≤ subject.size) :
    p.Agree subject anchor [.resume labels start base s]
      ((e.runs subject anchor s).map (.resume labels start (base + e.codeLength))) := by
  induction e generalizing base s with
  | empty => exact .refl _
  | any | literal | oneOf =>
    refine (Agree.next hcode.head (by simp)).trans ?_
    simp only [Job.next_any, Job.next_literal, Job.next_oneOf, runs, apply_ite (List.map _)]
    exact .refl _
  | cat left right ihLeft ihRight =>
    obtain ⟨hleft, hright⟩ := hcode.cat
    rw [runs, List.map_flatMap, codeLength, ← Nat.add_assoc]
    refine (ihLeft hloops.1 hleft hs).trans (Agree.flatMap fun t ht ↦ ?_)
    exact ihRight hloops.2 hright (le_size_of_mem_runs ht hs)
  | alt left right ihLeft ihRight =>
    obtain ⟨hfork, hleft, hjump, hright⟩ := hcode.alt
    rw [add_codeLength_alt] at hjump
    have hfirst := (ihLeft hloops.1 hleft hs).trans (Agree.map fun t _ ↦ agree_jump hjump t)
    have hsecond := ihRight hloops.2 hright hs
    rw [add_codeLength_alt] at hsecond
    rw [runs, List.map_append]
    have hsplit : p.Agree subject anchor [.resume labels start base s]
        [.resume labels start (base + 1) s, .resume labels start (base + left.codeLength + 2) s] :=
      Agree.next (j := .resume labels start base s) hfork (by simp)
    exact hsplit.trans (hfirst.append hsecond)
  | opt inner greedy ih =>
    obtain ⟨hfork, hinner⟩ := hcode.opt
    have henter := ih hloops hinner hs
    rw [Nat.add_right_comm] at henter
    rw [runs, map_prefer]
    exact (Agree.branch hfork).trans (henter.prefer (.refl _))
  | star inner greedy ih =>
    obtain ⟨hfork, hinner, hjump⟩ := hcode.star
    refine agree_rounds hfork (fun s hs ↦ ?_)
      (fun s hs t ht ↦ getsOn_of_mem_runs ht hs hloops.1) hs
    exact (ih hloops.2 hinner hs).trans (Agree.map fun t _ ↦ agree_jump hjump t)
  | plus inner greedy ih =>
    obtain ⟨hinner, hfork⟩ := hcode.plus
    rw [runs, List.map_flatMap]
    refine (ih hloops.2 hinner hs).trans (Agree.flatMap fun t ht ↦ ?_)
    exact agree_rounds hfork (fun s hs ↦ ih hloops.2 hinner hs)
      (fun s hs t ht ↦ getsOn_of_mem_runs ht hs hloops.1) (le_size_of_mem_runs ht hs)
  | group label inner ih =>
    obtain ⟨hopen, hinner, hclose⟩ := hcode.group
    rw [runs, List.map_map, ← add_codeLength_group]
    exact (agree_open hlabels hopen s).trans
      ((ih (s := (s.1, s.2.openAt label s.1)) hloops hinner hs).trans
        (Agree.map fun t _ ↦ agree_close hlabels hclose t))
  | startAnchor | endAnchor =>
    refine (Agree.next hcode.head (by simp)).trans ?_
    simp only [Job.next, runs, apply_ite (List.map _)]
    exact .refl _

/-- Of jobs that are all accepted, the first one is found. -/
theorem outcome_of_all_accept {jobs : List Job} (h : ∀ j ∈ jobs, p.Accepts j) :
    p.Outcome subject anchor (fun _ ↦ True) jobs (jobs.head?.map Job.slots) := by
  cases jobs with
  | nil => exact Program.outcome_nil
  | cons j jobs =>
    have hfirst : p.Outcome subject anchor (fun _ ↦ True) [j] (some j.slots) :=
      Program.outcome_of_accepts (h j List.mem_cons_self) trivial
    exact Program.outcome_append_of_some hfirst

variable (e : Regex)

/-- The program of a tree leads from a start to its acceptance, once for each way in which the tree
matches there. -/
theorem agree_compile (hloops : e.LoopsConsume) {position : Nat} (h : position ≤ subject.size) :
    e.compile.Agree subject anchor [e.compile.start position]
      ((e.runs subject anchor (position, .unset)).map fun t ↦
        (Job.resume e.labels position (1 + e.codeLength) t).save 1) := by
  have hcode := e.hasCode_compile
  have hend := hcode.tail.right
  rw [length_code] at hend
  have hstart : e.compile.Agree subject anchor [e.compile.start position]
      [.resume e.labels position 1 (position, .unset)] := by
    refine (Agree.next (j := e.compile.start position) hcode.head (by simp)).trans ?_
    rw [Job.next, start_compile]
    exact .refl _
  have hruns : e.compile.Agree subject anchor [.resume e.labels position 1 (position, .unset)]
      ((e.runs subject anchor (position, .unset)).map
        (.resume e.labels position (1 + e.codeLength))) :=
    agree_runs (nodup_eraseDups _) hloops hcode.tail.left h
  refine hstart.trans (hruns.trans (Agree.map fun t _ ↦ ?_))
  exact Agree.next (j := .resume e.labels position (1 + e.codeLength) t) hend.head (by simp)

theorem accepts_compile (position : Nat) (t : Nat × Captures) :
    e.compile.Accepts ((Job.resume e.labels position (1 + e.codeLength) t).save 1) := by
  have hend := e.hasCode_compile.tail.right.tail.head
  rwa [length_code] at hend

/-- Where every round of a loop consumes something, an attempt finds the first of the ways in which
the tree matches, with the spans of its groups, and nothing if there is none. -/
theorem searchAt_compile_runs (hloops : e.LoopsConsume) (anchor : Int) {position : Nat}
    (h : position ≤ subject.size) :
    e.compile.searchAt subject position ⟨some anchor, none⟩ =
      .ok ((e.runs subject anchor (position, .unset)).head?.map fun t ↦
        ⟨some position, some t.1, (some ⟨position, t.1⟩ :: e.labels.map t.2.span).toArray⟩) := by
  have haccept : ∀ j ∈ (e.runs subject anchor (position, .unset)).map fun t ↦
      (Job.resume e.labels position (1 + e.codeLength) t).save 1, e.compile.Accepts j := by
    intro j hj
    obtain ⟨t, -, rfl⟩ := List.mem_map.mp hj
    exact accepts_compile e position t
  have houtcome := (agree_compile e hloops h _).mpr (outcome_of_all_accept haccept)
  rw [Program.searchAt_of_outcome e.compile_wellFormed h houtcome.nodup, List.head?_map,
    Option.map_map, Option.map_map, (code_compile e).2]
  congr 2
  funext t
  exact Captures.found_slots

/-- A choice between two groups of one letter. -/
def eitherLetter : Regex :=
  .alt (.group 0 (.literal (.unit 'a'))) (.group 1 (.literal (.unit 'b')))

theorem loopsConsume_eitherLetter : (eitherLetter.star true).LoopsConsume := by
  simp [eitherLetter, LoopsConsume, nullable]

theorem runs_eitherLetter (c : Captures) :
    (eitherLetter.star true).runs #['a', 'b'] 0 (0, c) =
      [(2, (((c.openAt 0 0).closeAt 0 1).openAt 1 1).closeAt 1 2), (1, (c.openAt 0 0).closeAt 0 1),
        (0, c)] := by
  have hfirst : ∀ c, eitherLetter.runs #['a', 'b'] 0 (0, c) = [(1, (c.openAt 0 0).closeAt 0 1)] :=
    fun _ ↦ rfl
  have hsecond : ∀ c, eitherLetter.runs #['a', 'b'] 0 (1, c) = [(2, (c.openAt 1 1).closeAt 1 2)] :=
    fun _ ↦ rfl
  have hthird : ∀ c, eitherLetter.runs #['a', 'b'] 0 (2, c) = [] := fun _ ↦ rfl
  have hloops := loopsConsume_eitherLetter
  rw [runs_star hloops (Nat.zero_le 2), hfirst, List.flatMap_singleton,
    runs_star hloops (Nat.le_succ 1), hsecond, List.flatMap_singleton,
    runs_star hloops (Nat.le_refl 2), hthird]
  rfl

theorem searchAt_eitherLetter :
    (eitherLetter.star true).LoopsConsume ∧ 0 ≤ (#['a', 'b'] : Text).size ∧
      (eitherLetter.star true).compile.searchAt #['a', 'b'] (0 : Nat) ⟨some 0, none⟩ =
        .ok (some ⟨some 0, some 2, #[some ⟨0, 2⟩, some ⟨0, 1⟩, some ⟨1, 2⟩]⟩) := by
  refine ⟨loopsConsume_eitherLetter, by decide, ?_⟩
  rw [searchAt_compile_runs (eitherLetter.star true) loopsConsume_eitherLetter 0 (by decide),
    runs_eitherLetter]
  rfl

end Regex

end ExtendedRegex
