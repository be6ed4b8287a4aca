import ExtendedRegex.Proofs.Layout
import ExtendedRegex.Proofs.Scan

/-!
The search as a machine that takes one job after another. Compiled programs are well formed, and the
machine that executes a well-formed program stays in bounds: whatever it has done so far, the next
job stands at an instruction of the program and at a position of the subject, the table has a bit for
it, and there is a slot for what it saves.
-/

set_option autoImplicit false
set_option relaxedAutoImplicit false

namespace ExtendedRegex

/-- A search under way. -/
structure Machine where
  seen : StateSet
  steps : Nat
  /-- The start that is being tried. -/
  start : Nat
  jobs : List Job

inductive Progress where
  | running (m : Machine)
  | ended (result : Except LimitExceeded (Option Slots))

namespace Machine

variable (p : Program) (subject : Text) (anchor : Int) (limit : Option Int) (last : Nat)

/-- Takes the first of the jobs that wait. When none is left, the next start is tried, up to the last
one. -/
def advance (m : Machine) : Progress :=
  match m.jobs with
  | [] =>
    if m.start < last then
      .running { m with start := m.start + 1, jobs := [p.start (m.start + 1)] }
    else .ended (.ok none)
  | j :: jobs =>
    match m.seen.visit j.address j.position with
    | (false, seen) => .running { m with seen, jobs }
    | (true, seen) =>
      match exceeded? limit (m.steps + 1), p.code[j.address]? with
      | some e, _ => .ended (.error e)
      | none, some .accept => .ended (.ok (some j.slots))
      | none, _ =>
        .running { m with seen, steps := m.steps + 1, jobs := p.successors subject anchor j ++ jobs }

/-- How far the machine is after so many jobs. -/
def run : Nat → Machine → Progress
  | 0, m => .running m
  | n + 1, m =>
    match m.advance p subject anchor limit last with
    | .running m' => run n m'
    | .ended result => .ended result

/-- The machine in front of the first job of a start, with nothing in its table. -/
def initial (start : Nat) : Machine := ⟨p.states subject, 0, start, [p.start start]⟩

variable {p subject anchor limit last}
variable {seen seen' : StateSet} {steps start : Nat} {j : Job} {jobs : List Job} {m m' : Machine}
  {result : Except LimitExceeded (Option Slots)}

/-! ### The machine and the search -/

theorem advance_skip (hvisit : seen.visit j.address j.position = (false, seen')) :
    advance p subject anchor limit last ⟨seen, steps, start, j :: jobs⟩ =
      .running ⟨seen', steps, start, jobs⟩ := by
  simp only [advance, hvisit]

theorem advance_exceeded {e : LimitExceeded}
    (hvisit : seen.visit j.address j.position = (true, seen'))
    (hlimit : exceeded? limit (steps + 1) = some e) :
    advance p subject anchor limit last ⟨seen, steps, start, j :: jobs⟩ = .ended (.error e) := by
  simp only [advance, hvisit, hlimit]

theorem advance_accept (hvisit : seen.visit j.address j.position = (true, seen'))
    (hlimit : exceeded? limit (steps + 1) = none) (haccept : p.Accepts j) :
    advance p subject anchor limit last ⟨seen, steps, start, j :: jobs⟩ =
      .ended (.ok (some j.slots)) := by
  unfold Program.Accepts at haccept
  simp only [advance, hvisit, hlimit, haccept]

theorem advance_step (hvisit : seen.visit j.address j.position = (true, seen'))
    (hlimit : exceeded? limit (steps + 1) = none) (haccept : ¬ p.Accepts j) :
    advance p subject anchor limit last ⟨seen, steps, start, j :: jobs⟩ =
      .running ⟨seen', steps + 1, start, p.successors subject anchor j ++ jobs⟩ := by
  unfold Program.Accepts at haccept
  simp only [advance, hvisit, hlimit]

theorem advance_next (h : start < last) :
    advance p subject anchor limit last ⟨seen, steps, start, []⟩ =
      .running ⟨seen, steps, start + 1, [p.start (start + 1)]⟩ := by
  simp only [advance, if_pos h]

theorem advance_last (h : ¬ start < last) :
    advance p subject anchor limit last ⟨seen, steps, start, []⟩ = .ended (.ok none) := by
  simp only [advance, if_neg h]

variable (p subject anchor limit last) in
/-- Whether the machine comes to a result. -/
def Ends (m : Machine) (result : Except LimitExceeded (Option Slots)) : Prop :=
  ∃ n, m.run p subject anchor limit last n = .ended result

theorem Ends.of_advance (hadvance : m.advance p subject anchor limit last = .running m')
    (h : m'.Ends p subject anchor limit last result) :
    m.Ends p subject anchor limit last result := by
  obtain ⟨n, hn⟩ := h
  exact ⟨n + 1, by simp only [run, hadvance, hn]⟩

theorem ends_of_advance (hadvance : m.advance p subject anchor limit last = .ended result) :
    m.Ends p subject anchor limit last result :=
  ⟨1, by simp only [run, hadvance]⟩

/-- The machine explores the jobs that wait. If none is accepted, it goes on from there. -/
theorem ends_of_explore
    (h : match p.explore subject anchor limit seen steps jobs with
      | .error e => result = .error e
      | .ok ⟨some slots, _, _⟩ => result = .ok (some slots)
      | .ok ⟨none, seen', steps'⟩ => Ends p subject anchor limit last ⟨seen', steps', start, []⟩ result) :
    Ends p subject anchor limit last ⟨seen, steps, start, jobs⟩ result := by
  induction seen, steps, jobs using Program.explore_induction p subject anchor limit with
  | nil seen steps => rwa [Program.explore_nil] at h
  | skip seen steps j jobs seen' hvisit ih =>
    rw [Program.explore_skip hvisit] at h
    exact (ih h).of_advance (advance_skip hvisit)
  | exceeded seen steps j jobs seen' e hvisit hlimit =>
    rw [Program.explore_exceeded hvisit hlimit] at h
    obtain rfl := h
    exact ends_of_advance (advance_exceeded hvisit hlimit)
  | accept seen steps j jobs seen' hvisit hlimit haccept =>
    rw [Program.explore_accept hvisit hlimit haccept] at h
    obtain rfl := h
    exact ends_of_advance (advance_accept hvisit hlimit haccept)
  | step seen steps j jobs seen' hvisit hlimit haccept ih =>
    rw [Program.explore_step hvisit hlimit haccept] at h
    exact (ih h).of_advance (advance_step hvisit hlimit haccept)

/-- Trying all starts up to the end of the subject, the machine comes to the result of the scan. -/
theorem ends_scan (seen : StateSet) (steps start : Nat) (h : start ≤ subject.size) :
    Ends p subject anchor limit subject.size ⟨seen, steps, start, [p.start start]⟩
      (p.scan subject anchor limit seen steps start) := by
  refine ends_of_explore ?_
  rw [Program.scan, if_neg (Nat.not_lt.mpr h)]
  rcases p.explore subject anchor limit seen steps [p.start start] with
    e | ⟨_ | slots, seen', steps'⟩
  · rfl
  · by_cases hlast : start < subject.size
    · exact (ends_scan seen' steps' (start + 1) hlast).of_advance (advance_next hlast)
    · have hscan : p.scan subject anchor limit seen' steps' (start + 1) = .ok none := by
        rw [Program.scan, if_pos (by omega)]
      dsimp only
      rw [hscan]
      exact ends_of_advance (advance_last hlast)
  · rfl
termination_by subject.size - start

/-- Trying one start only, it comes to the result of the exploration from there. -/
theorem ends_explore :
    Ends p subject anchor limit start ⟨seen, steps, start, [p.start start]⟩
      ((p.explore subject anchor limit seen steps [p.start start]).map Explored.slots) := by
  refine ends_of_explore ?_
  rcases p.explore subject anchor limit seen steps [p.start start] with
    e | ⟨_ | slots, seen', steps'⟩
  · rfl
  · exact ends_of_advance (advance_last (Nat.lt_irrefl start))
  · rfl

end Machine

/-! ### Bounds -/

/-- All that is accessed for a job is there: the word of the table with its bit, its instruction, its
position of the subject, a pair of slots for each group, and the slot that the instruction saves to. -/
structure Job.InBounds (j : Job) (p : Program) (subject : Text) (seen : StateSet) : Prop
    extends j.Within p subject where
  word_lt : seen.key j.address j.position / 32 < seen.words.size
  slots_size : j.slots.size = 2 * p.groupCount
  slot_lt : ∀ i, p.code[j.address]? = some i → ∀ slot ∈ i.slot?, slot < j.slots.size

namespace Machine

variable {p : Program} {subject : Text} {anchor : Int} {limit : Option Int} {last : Nat}
variable {seen seen' : StateSet} {steps start : Nat} {j : Job} {jobs : List Job} {m m' : Machine}
  {result : Except LimitExceeded (Option Slots)}

variable (p subject last) in
/-- What is kept from one job to the next. -/
structure Sound (m : Machine) : Prop where
  fits : p.Fits subject m.seen
  start_le : m.start ≤ last
  within : ∀ j ∈ m.jobs, j.Within p subject
  slots_size : ∀ j ∈ m.jobs, j.slots.size = 2 * p.groupCount

theorem Sound.inBounds (h : m.Sound p subject last) (hp : p.WellFormed) (hj : j ∈ m.jobs) :
    j.InBounds p subject m.seen := by
  have hwithin := h.within j hj
  have hposition : j.position < m.seen.width := by
    rw [h.fits.width_eq]
    exact Nat.lt_succ_of_le hwithin.position_le
  have hkey := StateSet.key_lt h.fits.hasRoom hwithin.address_lt hposition
  refine ⟨hwithin, by omega, h.slots_size j hj, fun i hi slot hslot ↦ ?_⟩
  rw [h.slots_size j hj]
  exact hp.slot_lt i (Array.mem_of_getElem? hi) slot hslot

variable (p subject last) in
/-- The same of what comes after a job; slots that are returned have a pair for each group. -/
def SoundProgress : Progress → Prop
  | .running m => m.Sound p subject last
  | .ended (.ok (some slots)) => slots.size = 2 * p.groupCount
  | .ended _ => True

theorem slots_size_start (hgroups : 0 < p.groupCount) (start : Nat) :
    (p.start start).slots.size = 2 * p.groupCount := by
  simp only [Program.start, Slots.unset, Array.size_replicate]
  omega

variable (anchor limit) in
/-- One job keeps the machine sound. -/
theorem sound_advance (hp : p.WellFormed) (hgroups : 0 < p.groupCount) (hlast : last ≤ subject.size)
    (h : m.Sound p subject last) :
    SoundProgress p subject last (m.advance p subject anchor limit last) := by
  obtain ⟨seen, steps, start, jobs⟩ := m
  cases jobs with
  | nil =>
    by_cases hstart : start < last
    · rw [advance_next hstart]
      have hwithin : (p.start (start + 1)).Within p subject :=
        Program.start_within hp (Nat.le_trans hstart hlast)
      exact ⟨h.fits, hstart, by simpa using hwithin, by simpa using slots_size_start hgroups _⟩
    · rw [advance_last hstart]
      trivial
  | cons j jobs =>
    have hj := h.within j List.mem_cons_self
    rcases hvisit : seen.visit j.address j.position with ⟨_ | _, seen'⟩
    · rw [advance_skip hvisit]
      obtain rfl := StateSet.eq_of_not_visit hvisit
      exact ⟨h.fits, h.start_le, fun k hk ↦ h.within k (List.mem_cons_of_mem _ hk),
        fun k hk ↦ h.slots_size k (List.mem_cons_of_mem _ hk)⟩
    · cases hlimit : exceeded? limit (steps + 1) with
      | some e =>
        rw [advance_exceeded hvisit hlimit]
        trivial
      | none =>
        by_cases haccept : p.Accepts j
        · rw [advance_accept hvisit hlimit haccept]
          exact h.slots_size j List.mem_cons_self
        · rw [advance_step hvisit hlimit haccept]
          obtain ⟨-, hfits, -⟩ := Program.visit_new h.fits hj hvisit
          refine ⟨hfits, h.start_le, fun k hk ↦ ?_, fun k hk ↦ ?_⟩
          · rcases List.mem_append.mp hk with hk | hk
            · exact Program.successors_within hp hj hk
            · exact h.within k (List.mem_cons_of_mem _ hk)
          · rcases List.mem_append.mp hk with hk | hk
            · obtain ⟨_, hstep⟩ := Program.mem_successors_iff.mp hk
              exact hstep.slots_size.trans (h.slots_size j List.mem_cons_self)
            · exact h.slots_size k (List.mem_cons_of_mem _ hk)

variable (anchor limit) in
theorem sound_run (hp : p.WellFormed) (hgroups : 0 < p.groupCount) (hlast : last ≤ subject.size)
    (h : m.Sound p subject last) (n : Nat) :
    SoundProgress p subject last (m.run p subject anchor limit last n) := by
  induction n generalizing m with
  | zero => exact h
  | succ n ih =>
    have hnext := sound_advance anchor limit hp hgroups hlast h
    rw [run]
    split
    · next m' heq =>
      rw [heq] at hnext
      exact ih hnext
    · next result heq => rwa [heq] at hnext

theorem sound_initial (hp : p.WellFormed) (hgroups : 0 < p.groupCount) (hstart : start ≤ last)
    (hlast : last ≤ subject.size) : (initial p subject start).Sound p subject last where
  fits := Program.fits_states
  start_le := hstart
  within := by simpa [initial] using Program.start_within hp (Nat.le_trans hstart hlast)
  slots_size := by simpa [initial] using slots_size_start hgroups start

variable (p subject anchor limit last start result) in
/-- From a start on, the machine comes to a result, and everything is in bounds until then: the jobs
that wait while it is running, and the slots of the groups in what it returns. -/
structure Completes : Prop where
  ends : (initial p subject start).Ends p subject anchor limit last result
  inBounds : ∀ n m, (initial p subject start).run p subject anchor limit last n = .running m →
    ∀ j ∈ m.jobs, j.InBounds p subject m.seen
  slots_size : ∀ slots, result = .ok (some slots) → slots.size = 2 * p.groupCount

theorem Ends.completes (hp : p.WellFormed) (hgroups : 0 < p.groupCount) (hstart : start ≤ last)
    (hlast : last ≤ subject.size)
    (h : (initial p subject start).Ends p subject anchor limit last result) :
    Completes p subject anchor limit last start result := by
  have hsound := sound_run anchor limit hp hgroups hlast (sound_initial hp hgroups hstart hlast)
  refine ⟨h, fun n m hrun j hj ↦ ?_, ?_⟩
  · have hm := hsound n
    rw [hrun] at hm
    exact Sound.inBounds hm hp hj
  · rintro slots rfl
    obtain ⟨n, hn⟩ := h
    have hended := hsound n
    rwa [hn] at hended

/-- The machine of a compiled program. -/
theorem completes_compile (e : Regex) {options : SearchOptions} (h : start ≤ subject.size) :
    (∃ result,
      Completes e.compile subject (options.anchor.getD start) options.maxSteps subject.size start
        result ∧
      e.compile.search subject start options =
        result.map (Option.map (·.found e.compile.groupCount))) ∧
      ∃ result,
        Completes e.compile subject (options.anchor.getD start) options.maxSteps start start
          result ∧
        e.compile.searchAt subject start options =
          result.map (Option.map (·.found e.compile.groupCount)) := by
  have hp := e.compile_wellFormed
  have hgroups : 0 < e.compile.groupCount := by
    rw [(Regex.code_compile e).2]
    exact Nat.succ_pos _
  constructor
  · exact ⟨_, Ends.completes hp hgroups h (Nat.le_refl _) (ends_scan _ 0 start h),
      Program.search_eq_scan h⟩
  · refine ⟨_, Ends.completes hp hgroups (Nat.le_refl _) h ends_explore, ?_⟩
    rw [Program.searchAt_eq_explore h]
    rcases e.compile.explore subject (options.anchor.getD start) options.maxSteps
      (e.compile.states subject) 0 [e.compile.start start] with _ | _ <;> rfl

end Machine

/-- Every compiled program is well formed. It accepts at its last instruction and nowhere else (a
branch that is left open stands as an acceptance, so none is left open), branches lead to addresses
of the program, the slots that are saved are those of its groups, and both slots of each group are.
When it is executed, by a search or by an attempt at one position, everything that is accessed is
there, whatever the subject, the start, the anchor and the limit are. -/
theorem Regex.compile_inBounds (e : Regex) :
    (∀ address, e.compile.code[address]? = some .accept ↔ address + 1 = e.compile.code.size) ∧
      (∀ i ∈ e.compile.code, (∀ target ∈ i.targets, target < e.compile.code.size) ∧
        ∀ slot ∈ i.slot?, slot < 2 * e.compile.groupCount) ∧
      (∀ k < e.compile.groupCount,
        .save (2 * k) ∈ e.compile.code ∧ .save (2 * k + 1) ∈ e.compile.code) ∧
      ∀ (subject : Text) (start : Nat) (options : SearchOptions), start ≤ subject.size →
        (∃ result,
          Machine.Completes e.compile subject (options.anchor.getD start) options.maxSteps
            subject.size start result ∧
          e.compile.search subject start options =
            result.map (Option.map (·.found e.compile.groupCount))) ∧
          ∃ result,
            Machine.Completes e.compile subject (options.anchor.getD start) options.maxSteps start
              start result ∧
            e.compile.searchAt subject start options =
              result.map (Option.map (·.found e.compile.groupCount)) := by
  have hp := e.compile_wellFormed
  exact ⟨fun _ ↦ getElem?_compile_accept_iff e,
    fun i hi ↦ ⟨hp.target_lt i hi, hp.slot_lt i hi⟩, fun _ hk ↦ save_mem_compile e hk,
    fun _ _ _ h ↦ Machine.completes_compile e h⟩

theorem Regex.compile_inBounds_repeatedGroup :
    1 < repeatedGroup.compile.groupCount ∧ 1 ≤ (#['b', 'a', 'a'] : Text).size ∧
      (.save 2 ∈ repeatedGroup.compile.code ∧ .save 3 ∈ repeatedGroup.compile.code) ∧
      ∃ result,
        Machine.Completes repeatedGroup.compile #['b', 'a', 'a'] 0 (some 7) 3 1 result ∧
        repeatedGroup.compile.search #['b', 'a', 'a'] (1 : Nat) ⟨some 0, some 7⟩ =
          result.map (Option.map (·.found repeatedGroup.compile.groupCount)) := by
  obtain ⟨-, -, hsaves, hruns⟩ := compile_inBounds repeatedGroup
  have hgroups : 1 < repeatedGroup.compile.groupCount := by
    rw [(code_compile repeatedGroup).2]
    decide
  have hstart : 1 ≤ (#['b', 'a', 'a'] : Text).size := by decide
  exact ⟨hgroups, hstart, hsaves 1 hgroups,
    (hruns #['b', 'a', 'a'] 1 ⟨some 0, some 7⟩ hstart).1⟩

end ExtendedRegex
