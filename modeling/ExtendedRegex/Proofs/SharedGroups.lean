import ExtendedRegex.Proofs.Reading
import ExtendedRegex.Proofs.Traversals
import ExtendedRegex.Regex.Groups
import ExtendedRegex.Regex.Outline
import Mathlib.Data.List.Perm.Basic

/-!
Groups of trees with shared parts. A tree that is given as an outline uses an entry as often as
other entries refer to it, and a group that is used in several places is one group. The walk over
the tree that counts groups and the lowering that numbers them both find the entries of groups that
the last entry reaches, each of them once, and all code of one group saves into the same two
slots.
-/

set_option autoImplicit false
set_option relaxedAutoImplicit false

namespace ExtendedRegex

namespace Regex

variable {e f : Regex} {seen : Std.HashSet Nat} {label : Nat}

/-! ### Counting -/

/-- The labels that are known once a tree has been walked. -/
def visit (seen : Std.HashSet Nat) : Regex → Std.HashSet Nat
  | cat left right | alt left right => visit (visit seen left) right
  | opt inner _ | star inner _ | plus inner _ => visit seen inner
  | group label inner => if label ∈ seen then seen else visit (seen.insert label) inner
  | empty | any | literal _ | oneOf _ | startAnchor | endAnchor => seen

/-- Pending trees are walked one after another. -/
theorem collectGroups_eq_foldl (seen : Std.HashSet Nat) (pending : List Regex) :
    collectGroups seen pending = pending.foldl visit seen := by
  fun_induction collectGroups seen pending with
  | case1 => rfl
  | case7 seen label inner pending hseen ih =>
    rw [ih, List.foldl_cons, visit, if_pos hseen]
  | case8 seen label inner pending hseen ih =>
    rw [ih, List.foldl_cons, List.foldl_cons, visit, if_neg hseen]
  | _ => simp_all [visit]

theorem mem_openings_of_mem_subtrees (h : f ∈ e.subtrees) {l : Nat} (hl : l ∈ f.openings) :
    l ∈ e.openings := by
  obtain ⟨inner, hinner⟩ := mem_openings_iff.mp hl
  exact mem_openings_iff.mpr ⟨inner, mem_subtrees_trans h hinner⟩

/-- A walk adds all labels of a tree, if the inside of each group of the tree that is known already
is known, too. -/
theorem mem_visit (hcoherent : f.Coherent)
    (hseen : ∀ label inner, label ∈ seen → group label inner ∈ f.subtrees →
      ∀ l ∈ inner.openings, l ∈ seen) :
    label ∈ visit seen f ↔ label ∈ seen ∨ label ∈ f.openings := by
  induction f generalizing seen label with
  | empty | any | literal | oneOf | startAnchor | endAnchor => simp [visit, openings]
  | cat left right ihLeft ihRight | alt left right ihLeft ihRight =>
    have hleft : ∀ l, l ∈ visit seen left ↔ l ∈ seen ∨ l ∈ left.openings := fun l ↦
      ihLeft (hcoherent.operand (by simp [operands])) fun l i hl hi ↦
        hseen l i hl (List.mem_cons_of_mem _ (List.mem_append_left _ hi))
    have hright : label ∈ visit (visit seen left) right ↔
        label ∈ visit seen left ∨ label ∈ right.openings := by
      refine ihRight (hcoherent.operand (by simp [operands])) fun l i hl hi l' hl' ↦ ?_
      rw [hleft] at hl ⊢
      rcases hl with hl | hl
      · exact Or.inl (hseen l i hl (List.mem_cons_of_mem _ (List.mem_append_right _ hi)) l' hl')
      · -- A group that the left tree has as well has the same inside there.
        obtain ⟨i', hi'⟩ := mem_openings_iff.mp hl
        obtain rfl := hcoherent l i i' (List.mem_cons_of_mem _ (List.mem_append_right _ hi))
          (List.mem_cons_of_mem _ (List.mem_append_left _ hi'))
        exact Or.inr (mem_openings_of_mem_subtrees hi' (List.mem_cons_of_mem _ hl'))
    rw [visit, hright, hleft, openings, List.mem_append, or_assoc]
  | opt inner _ ih | star inner _ ih | plus inner _ ih =>
    exact ih (hcoherent.operand (by simp [operands])) fun l i hl hi ↦
      hseen l i hl (List.mem_cons_of_mem _ hi)
  | group l inner ih =>
    rw [visit, openings]
    split
    · next hknown =>
      have hinside := hseen l inner hknown (mem_subtrees_self _)
      constructor
      · exact Or.inl
      · rintro (h | h)
        · exact h
        · rcases List.mem_cons.mp h with rfl | h
          · exact hknown
          · exact hinside label h
    · have hinner : ∀ l' i, l' ∈ seen.insert l → group l' i ∈ inner.subtrees →
          ∀ l'' ∈ i.openings, l'' ∈ seen.insert l := by
        intro l' i hl' hi l'' hl''
        rcases Std.HashSet.mem_insert.mp hl' with heq | hl'
        · obtain rfl := beq_iff_eq.mp heq
          exact absurd hi hcoherent.not_mem_inside
        · exact Std.HashSet.mem_insert.mpr
            (Or.inr (hseen l' i hl' (List.mem_cons_of_mem _ hi) l'' hl''))
      rw [ih (hcoherent.operand (by simp [operands])) hinner, Std.HashSet.mem_insert, beq_iff_eq,
        List.mem_cons, eq_comm]
      tauto

/-- The groups that are counted are those with a number. -/
theorem groupCount_eq (hcoherent : e.Coherent) : e.groupCount = e.labels.length := by
  have hmem : ∀ l, l ∈ (collectGroups ∅ [e]).toList ↔ l ∈ e.labels := by
    intro l
    rw [Std.HashSet.mem_toList, collectGroups_eq_foldl, List.foldl_cons, List.foldl_nil,
      mem_visit hcoherent (by simp), mem_labels_iff]
    simp
  have hnodup : (collectGroups ∅ [e]).toList.Nodup :=
    Std.HashSet.distinct_toList.imp fun h ↦ by simpa using h
  rw [groupCount, ← Std.HashSet.length_toList]
  exact ((List.perm_ext_iff_of_nodup hnodup (nodup_eraseDups _)).mpr hmem).length_eq

theorem group_mem_sequence {l : List Regex} {inner : Regex} :
    group label inner ∈ (sequence l).subtrees ↔ ∃ t ∈ l, group label inner ∈ t.subtrees := by
  cases l with
  | nil => simp [sequence, subtrees]
  | cons t rest =>
    rw [sequence]
    induction rest generalizing t with
    | nil => simp
    | cons t' rest ih => simp [ih, subtrees, or_assoc]

/-! ### Occurrences in the code -/

/-- The parts of a tree, one for each occurrence, with the address of its code in the code of the
whole tree. -/
def placed (e : Regex) (base : Nat) : List (Regex × Nat) :=
  (e, base) :: match e with
    | cat left right => left.placed base ++ right.placed (base + left.codeLength)
    | alt left right => left.placed (base + 1) ++ right.placed (base + left.codeLength + 2)
    | opt inner _ | star inner _ | group _ inner => inner.placed (base + 1)
    | plus inner _ => inner.placed base
    | empty | any | literal _ | oneOf _ | startAnchor | endAnchor => []

theorem map_fst_placed (e : Regex) (base : Nat) : (e.placed base).map Prod.fst = e.subtrees := by
  induction e generalizing base with
  | empty | any | literal | oneOf | startAnchor | endAnchor => rfl
  | cat left right ihLeft ihRight | alt left right ihLeft ihRight =>
    simp [placed, subtrees, ihLeft, ihRight]
  | opt inner _ ih | star inner _ ih | plus inner _ ih | group _ inner ih =>
    simp [placed, subtrees, ih]

theorem hasCode_of_mem_cons {p : Program} {labels : List Nat} {base address : Nat}
    {rest : List (Regex × Nat)} (hcode : p.HasCode base (e.code labels base))
    (hrest : (f, address) ∈ rest → p.HasCode address (f.code labels address))
    (h : (f, address) ∈ (e, base) :: rest) : p.HasCode address (f.code labels address) := by
  rcases List.mem_cons.mp h with h | h
  · obtain ⟨rfl, rfl⟩ := Prod.mk.inj h
    exact hcode
  · exact hrest h

/-- A program with the code of a tree has the code of each part at the address of that part. -/
theorem hasCode_of_mem_placed {p : Program} {labels : List Nat} {base address : Nat}
    (hcode : p.HasCode base (e.code labels base)) (h : (f, address) ∈ e.placed base) :
    p.HasCode address (f.code labels address) := by
  induction e generalizing base with
  | empty | any | literal | oneOf | startAnchor | endAnchor =>
    exact hasCode_of_mem_cons hcode (fun h ↦ absurd h List.not_mem_nil) h
  | cat left right ihLeft ihRight =>
    obtain ⟨hleft, hright⟩ := hcode.cat
    exact hasCode_of_mem_cons hcode
      (fun h ↦ (List.mem_append.mp h).elim (ihLeft hleft) (ihRight hright)) h
  | alt left right ihLeft ihRight =>
    obtain ⟨-, hleft, -, hright⟩ := hcode.alt
    exact hasCode_of_mem_cons hcode
      (fun h ↦ (List.mem_append.mp h).elim (ihLeft hleft) (ihRight hright)) h
  | opt inner greedy ih => exact hasCode_of_mem_cons hcode (ih hcode.opt.2) h
  | star inner greedy ih => exact hasCode_of_mem_cons hcode (ih hcode.star.2.1) h
  | plus inner greedy ih => exact hasCode_of_mem_cons hcode (ih hcode.plus.1) h
  | group label inner ih => exact hasCode_of_mem_cons hcode (ih hcode.group.2.1) h

/-- Wherever a group occurs, its code saves into the slots of its number. -/
theorem saves_of_mem_placed {inner : Regex} {address : Nat}
    (h : (group label inner, address) ∈ e.placed 1) :
    e.compile.code[address]? = some (.save (2 * groupNumber e.labels label)) ∧
      e.compile.code[address + 1 + inner.codeLength]? =
        some (.save (2 * groupNumber e.labels label + 1)) := by
  obtain ⟨hopen, -, hclose⟩ :=
    (hasCode_of_mem_placed e.hasCode_compile.tail.left h).group
  exact ⟨hopen, hclose⟩

end Regex

/-! ### Outlines -/

/-- The positions that an entry refers to. -/
def OutlineEntry.operands : OutlineEntry → List Nat
  | leaf _ | unknown _ => []
  | cat left right | alt left right => [left, right]
  | quantified _ inner _ | group inner => [inner]
  | sequence parts => parts

/-- Whether an entry that is to be a node without operands is one. -/
def OutlineEntry.Proper : OutlineEntry → Prop
  | leaf e => e.operands = []
  | _ => True

namespace Outline

variable {o : Outline} {entries : List OutlineEntry} {entry : OutlineEntry} {e inner : Regex}
  {k label : Nat}

variable (entries) in
/-- Whether an entry refers to another one. -/
def Refers (k k' : Nat) : Prop := ∃ entry, entries[k]? = some entry ∧ k' ∈ entry.operands

variable (entries) in
/-- Whether an entry is that of a group. -/
def IsGroup (k : Nat) : Prop := ∃ inner, entries[k]? = some (.group inner)

theorem tree_push (r : Except OutlineError Regex) (k : Nat) :
    tree (Array.push o r) k = if k = o.size then r else o.tree k := by
  rw [tree, tree, Array.getElem?_push]
  split <;> rfl

theorem lt_size_of_tree (h : o.tree k = .ok e) : k < o.size := by
  by_contra hk
  rw [tree, Array.getElem?_eq_none (Nat.not_lt.mp hk)] at h
  cases h

theorem ofEntries_concat :
    ofEntries (entries ++ [entry]) =
      Array.push (ofEntries entries) ((ofEntries entries).build entry) := by
  simp [ofEntries, List.foldl_append]

theorem size_ofEntries (entries : List OutlineEntry) :
    (ofEntries entries).size = entries.length := by
  induction entries using List.reverseRecOn with
  | nil => rfl
  | append_singleton entries entry ih =>
    rw [ofEntries_concat, Array.size_push, ih, List.length_append, List.length_singleton]

/-- A tree is built from its entry and from the trees of entries in front of it. -/
theorem exists_of_tree (h : (ofEntries entries).tree k = .ok e) :
    ∃ entry o, entries[k]? = some entry ∧ o.size = k ∧ build o entry = .ok e ∧
      ∀ k' t, o.tree k' = .ok t → (ofEntries entries).tree k' = .ok t := by
  induction entries using List.reverseRecOn with
  | nil => cases h
  | append_singleton entries entry ih =>
    have hkeep : ∀ k' t, (ofEntries entries).tree k' = .ok t →
        (ofEntries (entries ++ [entry])).tree k' = .ok t := by
      intro k' t ht
      rw [ofEntries_concat, tree_push, if_neg (Nat.ne_of_lt (lt_size_of_tree ht)), ht]
    rw [ofEntries_concat, tree_push] at h
    split at h
    · next hk =>
      refine ⟨entry, ofEntries entries, ?_, hk.symm, h, hkeep⟩
      rw [hk, size_ofEntries, List.getElem?_concat_length]
    · obtain ⟨entry', o, hentry, hsize, hbuild, htrees⟩ := ih h
      refine ⟨entry', o, ?_, hsize, hbuild, fun k' t ht ↦ hkeep k' t (htrees k' t ht)⟩
      rw [List.getElem?_append_left (List.getElem?_eq_some_iff.mp hentry).1, hentry]

theorem mem_of_mapM {parts : List Nat} {trees : List Regex}
    (h : parts.mapM o.tree = .ok trees) :
    (∀ k ∈ parts, ∃ t, o.tree k = .ok t) ∧
      ∀ t, t ∈ trees ↔ ∃ k ∈ parts, o.tree k = .ok t := by
  induction parts generalizing trees with
  | nil =>
    cases h
    simp
  | cons k parts ih =>
    rw [List.mapM_cons] at h
    obtain ⟨t, ht, h⟩ := exists_of_bind_eq_ok h
    obtain ⟨trees', htrees, h⟩ := exists_of_bind_eq_ok h
    cases h
    obtain ⟨hfound, hmem⟩ := ih htrees
    refine ⟨List.forall_mem_cons.mpr ⟨⟨t, ht⟩, hfound⟩, fun t' ↦ ?_⟩
    simp [hmem, ht, eq_comm]

/-- The groups of a tree that is built are those of the trees it is built from, and the one that is
made. -/
theorem group_mem_build (hproper : entry.Proper) (h : o.build entry = .ok e) :
    (∀ k ∈ entry.operands, ∃ t, o.tree k = .ok t) ∧
      ∀ label inner, .group label inner ∈ e.subtrees ↔
        (∃ k, entry = .group k) ∧ label = o.size ∧ e = .group label inner ∨
          ∃ k ∈ entry.operands, ∃ t, o.tree k = .ok t ∧ .group label inner ∈ t.subtrees := by
  cases entry with
  | unknown kind => cases h
  | leaf e' =>
    cases h
    refine ⟨by simp [OutlineEntry.operands], fun label inner ↦ ?_⟩
    cases e with
    | empty | any | literal | oneOf | startAnchor | endAnchor =>
      simp [OutlineEntry.operands, Regex.subtrees]
    | cat | alt | opt | star | plus | group => cases hproper
  | cat left right | alt left right =>
    obtain ⟨l, hl, h⟩ := exists_of_bind_eq_ok h
    obtain ⟨r, hr, h⟩ := exists_of_bind_eq_ok h
    cases h
    simp [OutlineEntry.operands, Regex.subtrees, hl, hr]
  | quantified q k greedy =>
    obtain ⟨t, ht, h⟩ := exists_of_bind_eq_ok h
    cases h
    cases q <;> simp [OutlineEntry.operands, Quantifier.apply, Regex.subtrees, ht]
  | group k =>
    obtain ⟨t, ht, h⟩ := exists_of_bind_eq_ok h
    cases h
    simp only [OutlineEntry.operands, Regex.subtrees, List.mem_cons, List.not_mem_nil, or_false,
      forall_eq, exists_eq_left, ht, Except.ok.injEq, exists_eq_left', exists_eq', true_and,
      Regex.group.injEq]
    refine fun label inner ↦ or_congr_left ⟨?_, ?_⟩
    · rintro ⟨rfl, rfl⟩
      exact ⟨⟨k, rfl⟩, rfl, rfl, rfl⟩
    · rintro ⟨-, rfl, -, rfl⟩
      exact ⟨rfl, rfl⟩
  | sequence parts =>
    obtain ⟨trees, htrees, h⟩ := exists_of_bind_eq_ok h
    cases h
    obtain ⟨hfound, hmem⟩ := mem_of_mapM htrees
    simp only [OutlineEntry.operands, Regex.group_mem_sequence, hmem, reduceCtorEq, exists_false,
      false_and, false_or]
    refine ⟨hfound, fun label inner ↦ ⟨?_, ?_⟩⟩
    · rintro ⟨t, ⟨k, hk, ht⟩, hgroup⟩
      exact ⟨k, hk, t, ht, hgroup⟩
    · rintro ⟨k, hk, t, ht, hgroup⟩
      exact ⟨t, ⟨k, hk, ht⟩, hgroup⟩

/-! ### Groups that are reached -/

section Reaching

variable {k' : Nat}

/-- An entry that has a tree refers to entries in front of it only, and they have trees. -/
theorem lt_of_refers (hproper : ∀ entry ∈ entries, entry.Proper)
    (h : (ofEntries entries).tree k = .ok e) (hrefers : Refers entries k k') :
    k' < k ∧ ∃ t, (ofEntries entries).tree k' = .ok t := by
  obtain ⟨entry, o, hentry, hsize, hbuild, htrees⟩ := exists_of_tree h
  obtain ⟨entry', hentry', hmem⟩ := hrefers
  obtain rfl := Option.some.inj (hentry.symm.trans hentry')
  obtain ⟨t, ht⟩ :=
    (group_mem_build (hproper entry (List.mem_of_getElem? hentry)) hbuild).1 k' hmem
  exact ⟨hsize ▸ lt_size_of_tree ht, t, htrees k' t ht⟩

theorem le_of_reaches (hproper : ∀ entry ∈ entries, entry.Proper)
    (h : (ofEntries entries).tree k = .ok e)
    (hreaches : Relation.ReflTransGen (Refers entries) k k') :
    k' ≤ k ∧ ∃ t, (ofEntries entries).tree k' = .ok t := by
  induction hreaches with
  | refl => exact ⟨Nat.le_refl k, e, h⟩
  | tail _ hrefers ih =>
    obtain ⟨hle, t, ht⟩ := ih
    obtain ⟨hlt, ht'⟩ := lt_of_refers hproper ht hrefers
    exact ⟨by omega, ht'⟩

/-- The groups of a tree are the trees of the entries it reaches that are labelled by their own
position. -/
theorem group_mem_tree (hproper : ∀ entry ∈ entries, entry.Proper)
    (h : (ofEntries entries).tree k = .ok e) :
    .group label inner ∈ e.subtrees ↔
      Relation.ReflTransGen (Refers entries) k label ∧
        (ofEntries entries).tree label = .ok (.group label inner) := by
  induction k using Nat.strongRecOn generalizing e with
  | _ k ih =>
    obtain ⟨entry, o, hentry, hsize, hbuild, htrees⟩ := exists_of_tree h
    obtain ⟨hfound, hmem⟩ :=
      group_mem_build (hproper entry (List.mem_of_getElem? hentry)) hbuild
    rw [hmem]
    constructor
    · rintro (⟨-, hlabel, rfl⟩ | ⟨k', hk', t, ht, hgroup⟩)
      · obtain rfl : label = k := hlabel.trans hsize
        exact ⟨.refl, h⟩
      · obtain ⟨hreaches, hlabel⟩ :=
          (ih k' (hsize ▸ lt_size_of_tree ht) (htrees k' t ht)).mp hgroup
        exact ⟨.head ⟨entry, hentry, hk'⟩ hreaches, hlabel⟩
    · rintro ⟨hreaches, hlabel⟩
      rcases hreaches.cases_head with rfl | ⟨k', ⟨entry', hentry', hk'⟩, hreaches⟩
      · obtain rfl := Except.ok.inj (h.symm.trans hlabel)
        exact (hmem _ _).mp (Regex.mem_subtrees_self _)
      · obtain rfl := Option.some.inj (hentry.symm.trans hentry')
        obtain ⟨t, ht⟩ := hfound k' hk'
        exact Or.inr ⟨k', hk', t, ht,
          (ih k' (hsize ▸ lt_size_of_tree ht) (htrees k' t ht)).mpr ⟨hreaches, hlabel⟩⟩

theorem coherent_of_tree (hproper : ∀ entry ∈ entries, entry.Proper)
    (h : (ofEntries entries).tree k = .ok e) : e.Coherent := by
  intro label inner inner' hinner hinner'
  have htree := ((group_mem_tree hproper h).mp hinner).2
  have htree' := ((group_mem_tree hproper h).mp hinner').2
  exact (Regex.group.inj (Except.ok.inj (htree.symm.trans htree'))).2

/-- An entry with a tree is that of a group if the tree is labelled by its position. -/
theorem isGroup_iff (hproper : ∀ entry ∈ entries, entry.Proper)
    (h : (ofEntries entries).tree k = .ok e) :
    IsGroup entries k ↔ ∃ inner, e = .group k inner := by
  obtain ⟨entry, o, hentry, hsize, hbuild, htrees⟩ := exists_of_tree h
  constructor
  · rintro ⟨k', hgroup⟩
    obtain rfl := Option.some.inj (hentry.symm.trans hgroup)
    obtain ⟨t, -, hbuild⟩ := exists_of_bind_eq_ok hbuild
    cases hbuild
    exact ⟨t, by rw [hsize]⟩
  · rintro ⟨inner, rfl⟩
    rcases (group_mem_build (hproper entry (List.mem_of_getElem? hentry)) hbuild).2 _ _ |>.mp
      (Regex.mem_subtrees_self _) with ⟨⟨k', rfl⟩, -⟩ | ⟨k', -, t, ht, hgroup⟩
    · exact ⟨k', hentry⟩
    · -- An entry in front of the group does not reach it.
      have hlt : k' < k := hsize ▸ lt_size_of_tree ht
      have hreaches := ((group_mem_tree hproper (htrees k' t ht)).mp hgroup).1
      have hle := (le_of_reaches hproper (htrees k' t ht) hreaches).1
      omega

theorem mem_labels_of_tree (hproper : ∀ entry ∈ entries, entry.Proper)
    (h : (ofEntries entries).tree k = .ok e) :
    label ∈ e.labels ↔
      Relation.ReflTransGen (Refers entries) k label ∧ IsGroup entries label := by
  rw [Regex.mem_labels_iff, Regex.mem_openings_iff]
  constructor
  · rintro ⟨inner, hinner⟩
    obtain ⟨hreaches, htree⟩ := (group_mem_tree hproper h).mp hinner
    exact ⟨hreaches, (isGroup_iff hproper htree).mpr ⟨inner, rfl⟩⟩
  · rintro ⟨hreaches, hgroup⟩
    obtain ⟨-, t, ht⟩ := le_of_reaches hproper h hreaches
    obtain ⟨inner, rfl⟩ := (isGroup_iff hproper ht).mp hgroup
    exact ⟨inner, (group_mem_tree hproper h).mpr ⟨hreaches, ht⟩⟩

end Reaching

end Outline

/-- The two ways of counting groups agree. A tree in which groups with one label are one group has
as many groups as it has labels: each is counted once, there is one number more for the whole match,
and each has a number of its own and saves into the slots of that number wherever it occurs in the
code. The tree of an outline is such a tree, and its groups are the entries of groups that the last
entry reaches, however entries are shared. -/
theorem sharedGroups_counted :
    (∀ e : Regex, e.Coherent →
      ∃ nodes : List Nat, nodes.Nodup ∧ (∀ k, k ∈ nodes ↔ ∃ inner, .group k inner ∈ e.subtrees) ∧
        e.groupCount = nodes.length ∧ e.compile.groupCount = nodes.length + 1 ∧
        (e.placed 1).map Prod.fst = e.subtrees ∧
        ∃ number : Nat → Nat, (∀ k ∈ nodes, ∀ k' ∈ nodes, number k = number k' → k = k') ∧
          (∀ k ∈ nodes, 1 ≤ number k ∧ number k < e.compile.groupCount) ∧
          ∀ k inner address, (.group k inner, address) ∈ e.placed 1 →
            e.compile.code[address]? = some (.save (2 * number k)) ∧
            e.compile.code[address + 1 + inner.codeLength]? = some (.save (2 * number k + 1))) ∧
    ∀ (entries : List OutlineEntry) (e : Regex), (∀ entry ∈ entries, entry.Proper) →
      (Outline.ofEntries entries).root = .ok e →
      e.Coherent ∧ ∀ k, (∃ inner, .group k inner ∈ e.subtrees) ↔
        Relation.ReflTransGen (Outline.Refers entries) (entries.length - 1) k ∧
          Outline.IsGroup entries k := by
  refine ⟨fun e hcoherent ↦ ⟨e.labels, nodup_eraseDups _, fun k ↦ ?_,
    Regex.groupCount_eq hcoherent, (Regex.code_compile e).2, e.map_fst_placed 1,
    Regex.groupNumber e.labels,
    fun k hk k' _ heq ↦ (List.idxOf_inj hk).mp (Nat.succ.inj heq), fun k hk ↦ ?_,
    fun k inner address ↦ Regex.saves_of_mem_placed⟩, fun entries e hproper hroot ↦ ?_⟩
  · rw [Regex.mem_labels_iff, Regex.mem_openings_iff]
  · have hlt := List.idxOf_lt_length_of_mem hk
    rw [(Regex.code_compile e).2, Regex.groupNumber]
    exact ⟨Nat.le_add_left 1 _, Nat.succ_lt_succ hlt⟩
  · rw [Outline.root, Outline.size_ofEntries] at hroot
    refine ⟨Outline.coherent_of_tree hproper hroot, fun k ↦ ?_⟩
    rw [← Regex.mem_openings_iff, ← Regex.mem_labels_iff]
    exact Outline.mem_labels_of_tree hproper hroot

/-- The entries of `((a)*(a))(a)`, where the last group is the one in the loop, and the one behind
the loop is like it, but another one. -/
def twinGroups : List OutlineEntry :=
  [.leaf (.literal (.unit 'a')), .group 0, .group 0, .quantified .star 1 true, .cat 3 2, .group 4,
    .cat 5 1]

/-- The tree of those entries. -/
def twinGroupsTree : Regex :=
  let a : Regex := .literal (.unit 'a')
  .cat (.group 5 (.cat (.star (.group 1 a) true) (.group 2 a))) (.group 1 a)

theorem sharedGroups_twinGroups :
    (∀ entry ∈ twinGroups, entry.Proper) ∧
      (Outline.ofEntries twinGroups).root = .ok twinGroupsTree ∧
      twinGroupsTree.Coherent ∧
      twinGroupsTree.groupCount = 3 ∧ twinGroupsTree.compile.groupCount = 4 ∧
      Relation.ReflTransGen (Outline.Refers twinGroups) 6 2 := by
  have hproper : ∀ entry ∈ twinGroups, entry.Proper := by
    simp [twinGroups, OutlineEntry.Proper, Regex.operands]
  have hroot : (Outline.ofEntries twinGroups).root = .ok twinGroupsTree := rfl
  obtain ⟨hcoherent, hreached⟩ := sharedGroups_counted.2 twinGroups twinGroupsTree hproper hroot
  obtain ⟨nodes, hnodup, hnodes, hcount, hnumbers, -⟩ := sharedGroups_counted.1 _ hcoherent
  have hmem : ∀ k, k ∈ nodes ↔ k ∈ [1, 2, 5] := by
    intro k
    rw [hnodes]
    simp only [twinGroupsTree, Regex.subtrees, List.mem_cons, List.mem_append, List.not_mem_nil,
      Regex.group.injEq, reduceCtorEq, or_false, false_or, exists_or, exists_and_left, exists_eq,
      and_true]
    omega
  have hthree : nodes.length = 3 :=
    ((List.perm_ext_iff_of_nodup hnodup (by decide)).mpr hmem).length_eq
  rw [hthree] at hcount hnumbers
  have htwo : ∃ inner, .group 2 inner ∈ twinGroupsTree.subtrees :=
    (hnodes 2).mp ((hmem 2).mpr (by decide))
  exact ⟨hproper, hroot, hcoherent, hcount, hnumbers, ((hreached 2).mp htwo).1⟩

end ExtendedRegex
