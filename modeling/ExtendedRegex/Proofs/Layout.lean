import ExtendedRegex.Program.Lowering
import ExtendedRegex.Proofs.Runs

/-!
The code of a tree laid out by recursion on the tree: every operand stands at a known distance from
the start, so that targets can be written down before the code they point to. Lowering by tasks,
with branches filled in later, gives the same code.
-/

set_option autoImplicit false
set_option relaxedAutoImplicit false

namespace ExtendedRegex

namespace Regex

/-- The labels of the groups from left to right as they open, with repetitions. -/
def openings : Regex → List Nat
  | cat left right | alt left right => left.openings ++ right.openings
  | opt inner _ | star inner _ | plus inner _ => inner.openings
  | group label inner => label :: inner.openings
  | empty | any | literal _ | oneOf _ | startAnchor | endAnchor => []

/-- The labels of the groups, each in the place of its first opening. -/
def labels (e : Regex) : List Nat := e.openings.eraseDups

def codeLength : Regex → Nat
  | empty => 0
  | any | literal _ | oneOf _ | startAnchor | endAnchor => 1
  | cat left right => left.codeLength + right.codeLength
  | alt left right => left.codeLength + right.codeLength + 2
  | opt inner _ | plus inner _ => inner.codeLength + 1
  | star inner _ | group _ inner => inner.codeLength + 2

/-- Group zero is the whole match, so the first label has number one. -/
def groupNumber (labels : List Nat) (label : Nat) : Nat := labels.idxOf label + 1

/-- The code of a tree from an address on. -/
def code (labels : List Nat) : Regex → Nat → List Instr
  | empty, _ => []
  | any, _ => [.any]
  | literal l, _ => [.literal l]
  | oneOf set, _ => [.oneOf set.tree]
  | startAnchor, _ => [.startAnchor]
  | endAnchor, _ => [.endAnchor]
  | cat left right, base => left.code labels base ++ right.code labels (base + left.codeLength)
  | alt left right, base =>
    let second := base + left.codeLength + 2
    .split (base + 1) second :: (left.code labels (base + 1) ++
      .jump (second + right.codeLength) :: right.code labels second)
  | opt inner greedy, base =>
    .branch greedy (base + 1) (base + inner.codeLength + 1) :: inner.code labels (base + 1)
  | star inner greedy, base =>
    .branch greedy (base + 1) (base + inner.codeLength + 2) ::
      (inner.code labels (base + 1) ++ [.jump base])
  | plus inner greedy, base =>
    inner.code labels base ++ [.branch greedy base (base + inner.codeLength + 1)]
  | group label inner, base =>
    .save (2 * groupNumber labels label) ::
      (inner.code labels (base + 1) ++ [.save (2 * groupNumber labels label + 1)])

@[simp] theorem length_code (labels : List Nat) (e : Regex) (base : Nat) :
    (e.code labels base).length = e.codeLength := by
  induction e generalizing base with
  | cat left right ihLeft ihRight => simp [code, codeLength, ihLeft, ihRight]
  | alt left right ihLeft ihRight =>
    simp [code, codeLength, ihLeft, ihRight]
    omega
  | opt inner greedy ih | plus inner greedy ih => simp [code, codeLength, ih]
  | star inner greedy ih | group label inner ih => simp [code, codeLength, ih]
  | empty | any | literal | oneOf | startAnchor | endAnchor => rfl

/-- The right branch of an alternative ends where the alternative ends. -/
theorem add_codeLength_alt (base : Nat) (left right : Regex) :
    base + left.codeLength + 2 + right.codeLength = base + (left.alt right).codeLength := by
  simp only [codeLength]
  omega

theorem add_codeLength_group (base label : Nat) (inner : Regex) :
    base + 1 + inner.codeLength + 1 = base + (group label inner).codeLength := by
  simp only [codeLength]
  omega

end Regex

/-! ### Numbers of groups -/

theorem nodup_eraseDups (l : List Nat) : l.eraseDups.Nodup := by
  induction hn : l.length using Nat.strongRecOn generalizing l with
  | _ n ih =>
    cases l with
    | nil => simp
    | cons a l =>
      rw [List.eraseDups_cons, List.nodup_cons]
      have hlength : (l.filter fun b ↦ !b == a).length < n := by
        have := List.length_filter_le (fun b ↦ !b == a) l
        rw [← hn, List.length_cons]
        omega
      exact ⟨by simp [List.mem_eraseDups], ih _ hlength _ rfl⟩

theorem eraseDups_prefix_append (l l' : List Nat) : l.eraseDups <+: (l ++ l').eraseDups := by
  rw [List.eraseDups_append]
  exact List.prefix_append _ _

theorem eraseDups_concat (l : List Nat) (a : Nat) :
    (l ++ [a]).eraseDups = if a ∈ l then l.eraseDups else l.eraseDups ++ [a] := by
  rw [List.eraseDups_append]
  by_cases h : a ∈ l <;> simp [List.removeAll, h, List.eraseDups_cons]

theorem groupNumber_of_initial {l l' : List Nat} (h : l <+: l') {label : Nat} (hmem : label ∈ l) :
    Regex.groupNumber l' label = Regex.groupNumber l label := by
  obtain ⟨l'', rfl⟩ := h
  simp [Regex.groupNumber, List.idxOf_append, hmem]

/-- Numbers follow the first openings: a group comes after all that open before it for the first
time. -/
theorem groupNumber_first {before : List Nat} {label : Nat} (hnew : label ∉ before)
    (after : List Nat) :
    Regex.groupNumber (before ++ label :: after).eraseDups label = before.eraseDups.length + 1 := by
  have hnew' : label ∉ before.eraseDups := fun hmem ↦ hnew (List.mem_eraseDups.mp hmem)
  have hprefix : (before ++ [label]).eraseDups <+: (before ++ label :: after).eraseDups := by
    have happend := eraseDups_prefix_append (before ++ [label]) after
    rwa [List.append_assoc, List.singleton_append] at happend
  rw [groupNumber_of_initial hprefix (by simp [List.mem_eraseDups]), eraseDups_concat, if_neg hnew]
  simp [Regex.groupNumber, List.idxOf_append, hnew']

/-- The groups of a draft are those opened so far, with their numbers. -/
structure Draft.Opened (d : Draft) (opened : List Nat) : Prop where
  size_eq : d.groups.size = opened.eraseDups.length
  number_eq : ∀ label, d.groups[label]? =
    if label ∈ opened then some (Regex.groupNumber opened.eraseDups label) else none

namespace Draft

theorem opened_nil : Draft.Opened {} [] := ⟨rfl, fun label ↦ by simp⟩

theorem number_spec {d : Draft} {opened : List Nat} (h : d.Opened opened) (label : Nat) :
    (d.number label).1 = Regex.groupNumber (opened ++ [label]).eraseDups label ∧
      (d.number label).2.code = d.code ∧ (d.number label).2.Opened (opened ++ [label]) := by
  have hnumber := h.number_eq label
  rw [eraseDups_concat]
  by_cases hmem : label ∈ opened
  · rw [if_pos hmem] at hnumber
    simp only [number, hnumber, if_pos hmem, true_and]
    refine ⟨by rw [h.size_eq, eraseDups_concat, if_pos hmem], fun other ↦ ?_⟩
    rw [h.number_eq, eraseDups_concat, if_pos hmem]
    by_cases hother : other = label
    · simp [hother, hmem]
    · simp [hother]
  · rw [if_neg hmem] at hnumber
    have hnew : label ∉ opened.eraseDups := fun hin ↦ hmem (List.mem_eraseDups.mp hin)
    have hlast : Regex.groupNumber (opened.eraseDups ++ [label]) label = d.groups.size + 1 := by
      simp [Regex.groupNumber, List.idxOf_append, hnew, h.size_eq]
    have habsent : label ∉ d.groups := by
      rw [Std.HashMap.mem_iff_isSome_getElem?, hnumber]
      simp
    simp only [number, hnumber, if_neg hmem, hlast, true_and]
    refine ⟨?_, fun other ↦ ?_⟩
    · rw [Std.HashMap.size_insert, if_neg habsent, eraseDups_concat, if_neg hmem, h.size_eq,
        List.length_append, List.length_singleton]
    · rw [Std.HashMap.getElem?_insert, eraseDups_concat, if_neg hmem]
      by_cases hother : other = label
      · subst hother
        simp [hlast]
      · have hne : ¬ label = other := fun heq ↦ hother heq.symm
        simp only [beq_iff_eq, hne, ↓reduceIte, h.number_eq, List.mem_append, List.mem_singleton,
          hother, or_false]
        split
        · next hin =>
          rw [groupNumber_of_initial (List.prefix_append _ _) (List.mem_eraseDups.mpr hin)]
        · rfl

theorem Opened.emit {d : Draft} {opened : List Nat} (h : d.Opened opened) (i : Instr) :
    (d.emit i).Opened opened :=
  ⟨h.size_eq, h.number_eq⟩

theorem Opened.patch {d : Draft} {opened : List Nat} (h : d.Opened opened) (address : Nat)
    (i : Instr) : (d.patch address i).Opened opened :=
  ⟨h.size_eq, h.number_eq⟩

theorem code_emit (d : Draft) (i : Instr) : (d.emit i).code = d.code.push i := rfl

/-- Filling in an instruction behind which more code has been emitted. -/
theorem code_patch {d : Draft} {before after : Array Instr} {address : Nat} {i : Instr}
    (h : d.code = before.push i ++ after) (haddress : address = before.size) (i' : Instr) :
    (d.patch address i').code = before.push i' ++ after := by
  apply Array.toList_inj.mp
  simp [patch, h, haddress]

/-- Lowering a tree appends its code and opens its groups, whatever tasks are left. -/
theorem run_lower (e : Regex) :
    ∀ {d : Draft} {opened labels : List Nat}, d.Opened opened →
      (opened ++ e.openings).eraseDups <+: labels → ∀ tasks,
        ∃ d' : Draft, d'.Opened (opened ++ e.openings) ∧
          d'.code = d.code ++ (e.code labels d.code.size).toArray ∧
          d.run (.lower e :: tasks) = d'.run tasks := by
  induction e with
  | empty =>
    intro d opened labels h _ tasks
    exact ⟨d, by simpa [Regex.openings] using h, by simp [Regex.code], by rw [run]⟩
  | any | literal | oneOf | startAnchor | endAnchor =>
    intro d opened labels h _ tasks
    refine ⟨d.emit _, ?_, ?_, by rw [run]⟩
    · simpa only [Regex.openings, List.append_nil] using h.emit _
    · simp [Regex.code, code_emit]
  | cat left right ihLeft ihRight =>
    intro d opened labels h hlabels tasks
    simp only [Regex.openings, ← List.append_assoc] at hlabels ⊢
    obtain ⟨d₁, hopened₁, hcode₁, hrun₁⟩ :=
      ihLeft h ((eraseDups_prefix_append _ _).trans hlabels) (.lower right :: tasks)
    obtain ⟨d₂, hopened₂, hcode₂, hrun₂⟩ := ihRight hopened₁ hlabels tasks
    refine ⟨d₂, hopened₂, ?_, by rw [run, hrun₁, hrun₂]⟩
    simp [hcode₂, hcode₁, Regex.code]
  | alt left right ihLeft ihRight =>
    intro d opened labels h hlabels tasks
    simp only [Regex.openings, ← List.append_assoc] at hlabels ⊢
    obtain ⟨d₁, hopened₁, hcode₁, hrun₁⟩ :=
      ihLeft (h.emit .hole) ((eraseDups_prefix_append _ _).trans hlabels)
        (.otherwise d.code.size right :: tasks)
    obtain ⟨d₂, hopened₂, hcode₂, hrun₂⟩ :=
      ihRight (hopened₁.emit .hole) hlabels (.closeAlt d.code.size d₁.code.size :: tasks)
    refine ⟨_, (hopened₂.patch _ _).patch _ _, ?_, by rw [run, hrun₁, run, hrun₂, run]⟩
    have hholes : d₂.code = (d.code.push .hole) ++
        ((left.code labels (d.code.size + 1)).toArray.push .hole ++
          (right.code labels (d₁.code.size + 1)).toArray) := by
      simp [hcode₂, hcode₁, code_emit, Nat.add_assoc]
    have hfork := code_patch hholes rfl (.split (d.code.size + 1) (d₁.code.size + 1))
    rw [← Array.append_assoc, ← Array.push_append] at hfork
    have hsize : d₁.code.size = d.code.size + left.codeLength + 1 := by
      simp [hcode₁, code_emit]
      omega
    rw [code_patch hfork (by simp [hsize]; omega)]
    apply Array.toList_inj.mp
    simp [Regex.code, hcode₂, hsize, code_emit]
    omega
  | opt inner greedy ih =>
    intro d opened labels h hlabels tasks
    obtain ⟨d₁, hopened₁, hcode₁, hrun₁⟩ :=
      ih (h.emit .hole) hlabels (.closeOpt d.code.size greedy :: tasks)
    refine ⟨_, hopened₁.patch _ _, ?_, by rw [run, hrun₁, run]⟩
    rw [code_patch hcode₁ rfl]
    simp [Regex.code, hcode₁, code_emit, Nat.add_assoc]
  | star inner greedy ih =>
    intro d opened labels h hlabels tasks
    obtain ⟨d₁, hopened₁, hcode₁, hrun₁⟩ :=
      ih (h.emit .hole) hlabels (.closeStar d.code.size greedy :: tasks)
    refine ⟨_, (hopened₁.emit _).patch _ _, ?_, by rw [run, hrun₁, run]⟩
    have hjump : (d₁.emit (.jump d.code.size)).code =
        d.code.push .hole ++
          (inner.code labels (d.code.size + 1) ++ [Instr.jump d.code.size]).toArray := by
      simp [hcode₁, code_emit]
    rw [code_patch hjump rfl]
    simp [Regex.code, hcode₁, code_emit, Nat.add_assoc]
  | plus inner greedy ih =>
    intro d opened labels h hlabels tasks
    obtain ⟨d₁, hopened₁, hcode₁, hrun₁⟩ := ih h hlabels (.closePlus d.code.size greedy :: tasks)
    refine ⟨_, hopened₁.emit _, ?_, by rw [run, hrun₁, run]⟩
    simp [Regex.code, hcode₁, code_emit, Nat.add_assoc]
  | group label inner ih =>
    intro d opened labels h hlabels tasks
    have hopenings : opened ++ (Regex.group label inner).openings =
        opened ++ [label] ++ inner.openings := by
      simp [Regex.openings]
    rw [hopenings] at hlabels ⊢
    have hnumber := number_spec h label
    rcases hd : d.number label with ⟨k, d₀⟩
    rw [hd] at hnumber
    dsimp only at hnumber
    obtain ⟨hk, hcode, hopened⟩ := hnumber
    have hk' : k = Regex.groupNumber labels label := by
      rw [hk, groupNumber_of_initial ((eraseDups_prefix_append _ _).trans hlabels)]
      simp [List.mem_eraseDups]
    obtain ⟨d₁, hopened₁, hcode₁, hrun₁⟩ :=
      ih (hopened.emit (.save (2 * k))) hlabels (.emit (.save (2 * k + 1)) :: tasks)
    refine ⟨d₁.emit (.save (2 * k + 1)), hopened₁.emit _, ?_, ?_⟩
    · simp [Regex.code, hcode₁, code_emit, hcode, hk']
    · rw [run, hd]
      dsimp only
      rw [hrun₁, run]

end Draft

/-! ### Programs that hold the code of a tree -/

namespace Program

/-- The instructions stand in the program from an address on. -/
def HasCode (p : Program) (base : Nat) (is : List Instr) : Prop :=
  ∀ k i, is[k]? = some i → p.code[base + k]? = some i

variable {p : Program} {base : Nat} {i : Instr} {is is' : List Instr}

theorem HasCode.head (h : p.HasCode base (i :: is)) : p.code[base]? = some i :=
  h 0 i rfl

theorem HasCode.tail (h : p.HasCode base (i :: is)) : p.HasCode (base + 1) is := by
  intro k i' hk
  have hnext := h (k + 1) i' hk
  rwa [← Nat.add_assoc, Nat.add_right_comm] at hnext

theorem HasCode.left (h : p.HasCode base (is ++ is')) : p.HasCode base is := by
  intro k i hk
  obtain ⟨hlt, -⟩ := List.getElem?_eq_some_iff.mp hk
  exact h k i (by rw [List.getElem?_append_left hlt, hk])

theorem HasCode.right (h : p.HasCode base (is ++ is')) : p.HasCode (base + is.length) is' := by
  intro k i hk
  rw [Nat.add_assoc]
  refine h _ i ?_
  rw [List.getElem?_append_right (Nat.le_add_right _ _), Nat.add_sub_cancel_left, hk]

variable {labels : List Nat} {left right inner : Regex} {greedy : Bool} {label : Nat}

theorem HasCode.cat (h : p.HasCode base ((left.cat right).code labels base)) :
    p.HasCode base (left.code labels base) ∧
      p.HasCode (base + left.codeLength) (right.code labels (base + left.codeLength)) := by
  have hright := HasCode.right h
  rw [Regex.length_code] at hright
  exact ⟨HasCode.left h, hright⟩

theorem HasCode.alt (h : p.HasCode base ((left.alt right).code labels base)) :
    p.code[base]? = some (.split (base + 1) (base + left.codeLength + 2)) ∧
      p.HasCode (base + 1) (left.code labels (base + 1)) ∧
      p.code[base + 1 + left.codeLength]? =
        some (.jump (base + left.codeLength + 2 + right.codeLength)) ∧
      p.HasCode (base + left.codeLength + 2)
        (right.code labels (base + left.codeLength + 2)) := by
  have hrest := (HasCode.tail h).right
  rw [Regex.length_code] at hrest
  have hright := hrest.tail
  rw [show base + 1 + left.codeLength + 1 = base + left.codeLength + 2 by omega] at hright
  exact ⟨HasCode.head h, (HasCode.tail h).left, hrest.head, hright⟩

theorem HasCode.opt (h : p.HasCode base ((inner.opt greedy).code labels base)) :
    p.code[base]? = some (.branch greedy (base + 1) (base + inner.codeLength + 1)) ∧
      p.HasCode (base + 1) (inner.code labels (base + 1)) :=
  ⟨HasCode.head h, HasCode.tail h⟩

theorem HasCode.star (h : p.HasCode base ((inner.star greedy).code labels base)) :
    p.code[base]? = some (.branch greedy (base + 1) (base + inner.codeLength + 2)) ∧
      p.HasCode (base + 1) (inner.code labels (base + 1)) ∧
      p.code[base + 1 + inner.codeLength]? = some (.jump base) := by
  have hrest := (HasCode.tail h).right
  rw [Regex.length_code] at hrest
  exact ⟨HasCode.head h, (HasCode.tail h).left, hrest.head⟩

theorem HasCode.plus (h : p.HasCode base ((inner.plus greedy).code labels base)) :
    p.HasCode base (inner.code labels base) ∧
      p.code[base + inner.codeLength]? =
        some (.branch greedy base (base + inner.codeLength + 1)) := by
  have hrest := HasCode.right h
  rw [Regex.length_code] at hrest
  exact ⟨HasCode.left h, hrest.head⟩

theorem HasCode.group (h : p.HasCode base ((Regex.group label inner).code labels base)) :
    p.code[base]? = some (.save (2 * Regex.groupNumber labels label)) ∧
      p.HasCode (base + 1) (inner.code labels (base + 1)) ∧
      p.code[base + 1 + inner.codeLength]? =
        some (.save (2 * Regex.groupNumber labels label + 1)) := by
  have hrest := (HasCode.tail h).right
  rw [Regex.length_code] at hrest
  exact ⟨HasCode.head h, (HasCode.tail h).left, hrest.head⟩

end Program

/-! ### Instructions of the code of a tree -/

namespace Instr

/-- An instruction that can stand in the code of a tree with so many groups: it branches to an
address up to the last one, and saves into a slot of one of the groups or of the whole match. -/
structure Inside (i : Instr) (last groups : Nat) : Prop where
  ne_accept : i ≠ .accept
  target_le : ∀ target ∈ i.targets, target ≤ last
  slot_lt : ∀ slot ∈ i.slot?, slot < 2 * (groups + 1)

variable {i : Instr} {last groups : Nat}

theorem Inside.mono {last' : Nat} (h : i.Inside last groups) (hle : last ≤ last') :
    i.Inside last' groups :=
  { h with target_le := fun target htarget ↦ Nat.le_trans (h.target_le target htarget) hle }

theorem inside_jump {target : Nat} (h : target ≤ last) : (jump target).Inside last groups :=
  ⟨by simp, by simpa [targets] using h, by simp [slot?]⟩

theorem inside_split {primary secondary : Nat} (h : primary ≤ last) (h' : secondary ≤ last) :
    (split primary secondary).Inside last groups :=
  ⟨by simp, by simpa [targets] using ⟨h, h'⟩, by simp [slot?]⟩

theorem inside_branch {greedy : Bool} {enter leave : Nat} (henter : enter ≤ last)
    (hleave : leave ≤ last) : (branch greedy enter leave).Inside last groups := by
  cases greedy with
  | true => exact inside_split henter hleave
  | false => exact inside_split hleave henter

theorem inside_save {slot : Nat} (h : slot < 2 * (groups + 1)) : (save slot).Inside last groups :=
  ⟨by simp, by simp [targets], by simpa [slot?] using h⟩

end Instr

namespace Regex

/-- Branches of the code of a tree lead into that code or right behind it, and it saves into the
slots of its groups only. -/
theorem inside_of_mem_code {labels : List Nat} {e : Regex} {base : Nat} {i : Instr}
    (hlabels : ∀ label ∈ e.openings, label ∈ labels) (hi : i ∈ e.code labels base) :
    i.Inside (base + e.codeLength) labels.length := by
  induction e generalizing base with
  | empty => simp [code] at hi
  | any | literal | oneOf | startAnchor | endAnchor =>
    obtain rfl := List.mem_singleton.mp hi
    exact ⟨by simp, by simp [Instr.targets], by simp [Instr.slot?]⟩
  | cat left right ihLeft ihRight =>
    simp only [openings, List.mem_append] at hlabels
    simp only [code, List.mem_append, codeLength] at hi ⊢
    rcases hi with hi | hi
    · exact (ihLeft (fun label h ↦ hlabels label (Or.inl h)) hi).mono (by omega)
    · exact (ihRight (fun label h ↦ hlabels label (Or.inr h)) hi).mono (by omega)
  | alt left right ihLeft ihRight =>
    simp only [openings, List.mem_append] at hlabels
    simp only [code, List.mem_append, List.mem_cons, codeLength] at hi ⊢
    rcases hi with rfl | hi | rfl | hi
    · exact Instr.inside_split (by omega) (by omega)
    · exact (ihLeft (fun label h ↦ hlabels label (Or.inl h)) hi).mono (by omega)
    · exact Instr.inside_jump (by omega)
    · exact (ihRight (fun label h ↦ hlabels label (Or.inr h)) hi).mono (by omega)
  | opt inner greedy ih =>
    simp only [code, List.mem_cons, codeLength] at hi ⊢
    rcases hi with rfl | hi
    · exact Instr.inside_branch (by omega) (by omega)
    · exact (ih hlabels hi).mono (by omega)
  | star inner greedy ih =>
    simp only [code, List.mem_cons, List.mem_append, List.not_mem_nil, or_false, codeLength] at hi ⊢
    rcases hi with rfl | hi | rfl
    · exact Instr.inside_branch (by omega) (by omega)
    · exact (ih hlabels hi).mono (by omega)
    · exact Instr.inside_jump (by omega)
  | plus inner greedy ih =>
    simp only [code, List.mem_cons, List.mem_append, List.not_mem_nil, or_false, codeLength] at hi ⊢
    rcases hi with hi | rfl
    · exact (ih hlabels hi).mono (by omega)
    · exact Instr.inside_branch (by omega) (by omega)
  | group label inner ih =>
    have hlabel : labels.idxOf label < labels.length :=
      List.idxOf_lt_length_of_mem (hlabels label (by simp [openings]))
    simp only [code, List.mem_cons, List.mem_append, List.not_mem_nil, or_false, codeLength,
      groupNumber] at hi ⊢
    rcases hi with rfl | hi | rfl
    · exact Instr.inside_save (by omega)
    · exact (ih (fun l h ↦ hlabels l (by simp [openings, h])) hi).mono (by omega)
    · exact Instr.inside_save (by omega)

/-- The groups of a tree are saved at both ends. -/
theorem save_mem_code {labels : List Nat} {e : Regex} {base label : Nat}
    (h : label ∈ e.openings) :
    Instr.save (2 * groupNumber labels label) ∈ e.code labels base ∧
      Instr.save (2 * groupNumber labels label + 1) ∈ e.code labels base := by
  induction e generalizing base with
  | empty | any | literal | oneOf | startAnchor | endAnchor => simp [openings] at h
  | cat left right ihLeft ihRight =>
    simp only [code, List.mem_append]
    rcases List.mem_append.mp h with h | h
    · exact (ihLeft h).imp Or.inl Or.inl
    · exact (ihRight h).imp Or.inr Or.inr
  | alt left right ihLeft ihRight =>
    simp only [code, List.mem_append, List.mem_cons, reduceCtorEq, false_or]
    rcases List.mem_append.mp h with h | h
    · exact (ihLeft h).imp Or.inl Or.inl
    · exact (ihRight h).imp Or.inr Or.inr
  | opt inner greedy ih => exact (ih h).imp (List.mem_cons_of_mem _) (List.mem_cons_of_mem _)
  | star inner greedy ih =>
    simp only [code, List.mem_append, List.mem_cons]
    exact (ih h).imp (fun hi ↦ Or.inr (Or.inl hi)) (fun hi ↦ Or.inr (Or.inl hi))
  | plus inner greedy ih =>
    exact (ih h).imp (List.mem_append_left _) (List.mem_append_left _)
  | group label' inner ih =>
    simp only [code, List.mem_append, List.mem_cons]
    rcases List.mem_cons.mp h with rfl | h
    · exact ⟨Or.inl rfl, Or.inr (Or.inr (Or.inl rfl))⟩
    · exact (ih h).imp (fun hi ↦ Or.inr (Or.inl hi)) (fun hi ↦ Or.inr (Or.inl hi))

variable (e : Regex)

/-- The code of a program: the whole match is saved around the code of the tree. -/
theorem code_compile :
    e.compile.code.toList = .save 0 :: (e.code e.labels 1 ++ [.save 1, .accept]) ∧
      e.compile.groupCount = e.labels.length + 1 := by
  obtain ⟨d, hopened, hcode, hrun⟩ := Draft.run_lower e (Draft.opened_nil.emit (.save 0))
    (List.prefix_refl e.labels) [.emit (.save 1), .emit .accept]
  have hcompile : Draft.run {} [.emit (.save 0), .lower e, .emit (.save 1), .emit .accept] =
      (d.emit (.save 1)).emit .accept := by
    rw [Draft.run, hrun, Draft.run, Draft.run, Draft.run]
  simp only [compile, hcompile]
  refine ⟨?_, ?_⟩
  · simp [Draft.code_emit, hcode]
  · exact congrArg (· + 1) hopened.size_eq

theorem compile_eq :
    e.compile = ⟨(.save 0 :: (e.code e.labels 1 ++ [.save 1, .accept])).toArray,
      e.labels.length + 1⟩ := by
  obtain ⟨hcode, hgroups⟩ := code_compile e
  rw [← hcode, Array.toArray_toList, ← hgroups]

theorem hasCode_compile :
    e.compile.HasCode 0 (.save 0 :: (e.code e.labels 1 ++ [.save 1, .accept])) := by
  intro k i hk
  rw [Nat.zero_add, ← Array.getElem?_toList, (code_compile e).1, hk]

theorem size_code_compile : e.compile.code.size = e.codeLength + 3 := by
  rw [← Array.length_toList, (code_compile e).1]
  simp

theorem mem_labels_iff {label : Nat} : label ∈ e.labels ↔ label ∈ e.openings :=
  List.mem_eraseDups

/-- The instructions of a program in front of its acceptance. -/
theorem inside_of_mem_compile {i : Instr} (hi : i ∈ e.compile.code) :
    i = .accept ∨ i.Inside (e.codeLength + 2) e.labels.length := by
  rw [← Array.mem_toList_iff, (code_compile e).1] at hi
  simp only [List.mem_cons, List.mem_append, List.not_mem_nil, or_false] at hi
  rcases hi with rfl | hi | rfl | rfl
  · exact Or.inr (Instr.inside_save (by omega))
  · have hinside := inside_of_mem_code (fun label h ↦ (mem_labels_iff e).mpr h) hi
    exact Or.inr (hinside.mono (by omega))
  · exact Or.inr (Instr.inside_save (by omega))
  · exact Or.inl rfl

/-- Both ends of every group are saved. -/
theorem save_mem_compile {k : Nat} (hk : k < e.compile.groupCount) :
    .save (2 * k) ∈ e.compile.code ∧ .save (2 * k + 1) ∈ e.compile.code := by
  rw [(code_compile e).2] at hk
  simp only [← Array.mem_toList_iff, (code_compile e).1, List.mem_cons, List.mem_append]
  cases k with
  | zero => exact ⟨Or.inl rfl, Or.inr (Or.inr (Or.inl rfl))⟩
  | succ k =>
    have hk' : k < e.labels.length := Nat.lt_of_succ_lt_succ hk
    have hnumber : groupNumber e.labels e.labels[k] = k + 1 :=
      congrArg (· + 1) ((nodup_eraseDups e.openings).idxOf_getElem k hk')
    have hsaves : .save (2 * (k + 1)) ∈ e.code e.labels 1 ∧
        .save (2 * (k + 1) + 1) ∈ e.code e.labels 1 := by
      rw [← hnumber]
      exact save_mem_code ((mem_labels_iff e).mp (List.getElem_mem hk'))
    exact hsaves.imp (fun hi ↦ Or.inr (Or.inl hi)) (fun hi ↦ Or.inr (Or.inl hi))

/-- A program accepts at its last instruction and nowhere else. -/
theorem getElem?_compile_accept_iff {address : Nat} :
    e.compile.code[address]? = some .accept ↔ address + 1 = e.compile.code.size := by
  have hfront : Instr.accept ∉ Instr.save 0 :: (e.code e.labels 1 ++ [.save 1]) := by
    simp only [List.mem_cons, List.mem_append, List.not_mem_nil, reduceCtorEq, false_or, or_false]
    intro hmem
    exact (inside_of_mem_code (fun label h ↦ (mem_labels_iff e).mpr h) hmem).ne_accept rfl
  have hcode : e.compile.code.toList =
      (Instr.save 0 :: (e.code e.labels 1 ++ [.save 1])) ++ [.accept] := by
    simp [(code_compile e).1]
  rw [← Array.getElem?_toList, ← Array.length_toList, hcode, List.length_append,
    List.length_singleton, Nat.add_right_cancel_iff, List.getElem?_append]
  split
  · next hlt =>
    constructor
    · intro h
      exact absurd (List.mem_of_getElem? h) hfront
    · omega
  · next hge =>
    rw [List.getElem?_singleton]
    split
    · next hzero =>
      simp only [true_iff]
      omega
    · next hpos =>
      simp only [reduceCtorEq, false_iff]
      omega

/-- A program is the code of its tree, laid out from address one on, between the instructions for the
whole match. A group has the same number wherever it occurs in that code, and the number counts the
groups up to it in the order of their first openings. -/
theorem compile_laidOut :
    e.compile.code.toList = .save 0 :: (e.code e.labels 1 ++ [.save 1, .accept]) ∧
      ∀ before label after, e.openings = before ++ label :: after → label ∉ before →
        groupNumber e.labels label = before.eraseDups.length + 1 := by
  refine ⟨(code_compile e).1, fun before label after hopenings hnew ↦ ?_⟩
  rw [labels, hopenings]
  exact groupNumber_first hnew after

/-- A group that occurs again, as the second branch of an alternative with another group. -/
def repeatedGroup : Regex :=
  let first := group 3 (literal (.unit 'a'))
  cat first (alt (star (group 1 any) false) first)

theorem compile_repeatedGroup :
    repeatedGroup.openings = [3] ++ 1 :: [3] ∧ 1 ∉ [3] ∧
      groupNumber repeatedGroup.labels 1 = 2 ∧
      repeatedGroup.compile.code.toList =
        [.save 0, .save 2, .literal (.unit 'a'), .save 3, .split 5 11, .split 10 6, .save 4, .any,
          .save 5, .jump 5, .jump 14, .save 2, .literal (.unit 'a'), .save 3, .save 1, .accept] := by
  obtain ⟨hcode, hnumber⟩ := compile_laidOut repeatedGroup
  have hopenings : repeatedGroup.openings = [3] ++ 1 :: [3] := rfl
  have hnew : 1 ∉ [3] := by decide
  refine ⟨hopenings, hnew, hnumber [3] 1 [3] hopenings hnew, ?_⟩
  rw [hcode]
  rfl

theorem compile_wellFormed : e.compile.WellFormed where
  accept_last := by
    rw [← Array.getLast?_toList, (code_compile e).1]
    simp [List.getLast?_cons]
  target_lt := by
    intro i hi target htarget
    rw [size_code_compile]
    rcases inside_of_mem_compile e hi with rfl | hinside
    · simp [Instr.targets] at htarget
    · exact Nat.lt_succ_of_le (hinside.target_le target htarget)
  slot_lt := by
    intro i hi slot hslot
    rw [(code_compile e).2]
    rcases inside_of_mem_compile e hi with rfl | hinside
    · simp [Instr.slot?] at hslot
    · exact hinside.slot_lt slot hslot

end Regex

end ExtendedRegex
