import ExtendedRegex.Pattern.Bracket
import ExtendedRegex.Proofs.Membership
import ExtendedRegex.Proofs.Reading
import ExtendedRegex.Proofs.Written

/-!
Bracket expressions as they are written: items one after another, among them further bracket
expressions. A bracket expression stands for the units of its items, or for all others if it is
negated. Each item leaves an entry on the stack of the reader: one or three items of the stack that
add some units to the set of the surrounding brackets.
-/

set_option autoImplicit false
set_option relaxedAutoImplicit false

namespace ExtendedRegex

namespace Written

/-! ### What is written -/

/-- An item that is no bracket expression. A hyphen cannot be the end of a range. -/
inductive SetItem where
  | unit (u : CodeUnit)
  | range (a b : CodeUnit) (ha : a ≠ '-') (hb : b ≠ '-')
  | builtin (b : Builtin) (negated : Bool)

/-- An item, or a bracket expression around further ones. -/
inductive Member where
  | item (i : SetItem)
  | nested (negated : Bool) (members : List Member)

/-- Between brackets only the brackets themselves and the backslash are special. -/
def bracketUnit (u : CodeUnit) : List CodeUnit := (Mode.bracket false .normal).write u

def bracketText (negated : Bool) (inside : List CodeUnit) : List CodeUnit :=
  ('[' : CodeUnit) :: ((if negated then [('^' : CodeUnit)] else []) ++ inside ++ [(']' : CodeUnit)])

def SetItem.render : SetItem → List CodeUnit
  | unit u => bracketUnit u
  | range a b _ _ => bracketUnit a ++ ('-' : CodeUnit) :: bracketUnit b
  | builtin b negated => [('\\' : CodeUnit), builtinName b negated]

mutual

def Member.render : Member → List CodeUnit
  | .item i => i.render
  | .nested negated members => bracketText negated (renderAll members)

def renderAll : List Member → List CodeUnit
  | [] => []
  | m :: members => m.render ++ renderAll members

end

/-- Whether an item stands for a unit. -/
def SetItem.has : SetItem → CodeUnit → Bool
  | unit v, u => u = v
  | range a b _ _, u => u.IsBetween a b
  | builtin b negated, u => b.has u != negated

mutual

/-- Whether a member stands for a unit. -/
def Member.has (u : CodeUnit) : Member → Bool
  | .item i => i.has u
  | .nested negated members => anyHas u members != negated

/-- Whether one of the members does. -/
def anyHas (u : CodeUnit) : List Member → Bool
  | [] => false
  | m :: members => m.has u || anyHas u members

end

theorem renderAll_eq_flatMap (members : List Member) :
    renderAll members = members.flatMap Member.render := by
  induction members with
  | nil => rfl
  | cons m members ih => rw [renderAll, ih, List.flatMap_cons]

theorem anyHas_eq_any (u : CodeUnit) (members : List Member) :
    anyHas u members = members.any (·.has u) := by
  induction members with
  | nil => rfl
  | cons m members ih => rw [anyHas, ih, List.any_cons]

mutual

/-- How deep bracket expressions are nested. -/
def Member.depth : Member → Nat
  | .item _ => 0
  | .nested _ members => depthOf members + 1

def depthOf : List Member → Nat
  | [] => 0
  | m :: members => max m.depth (depthOf members)

end

mutual

/-- Whether all bracket expressions in a member have a property. -/
def Member.Every (P : Bool → List Member → Prop) : Member → Prop
  | .item _ => True
  | .nested negated members => P negated members ∧ EveryIn P members

def EveryIn (P : Bool → List Member → Prop) : List Member → Prop
  | [] => True
  | m :: members => m.Every P ∧ EveryIn P members

end

/-- What can stand between brackets. There is something between them, none of the members is empty,
a hyphen stands for itself only behind everything else, and a caret cannot come first where it would
negate. -/
structure Proper (negated : Bool) (members : List Member) : Prop where
  ne_nil : members ≠ []
  inhabited : ∀ m ∈ members, ∃ u, m.has u = true
  hyphen : .item (.unit '-') ∉ members.dropLast
  caret : negated = false → (renderAll members).head? ≠ some ('^' : CodeUnit)

/-- A unit, or a bracket expression that is not negated and stands for this unit only. -/
def Member.IsUnit (u : CodeUnit) : Member → Prop
  | .item (.unit v) => v = u
  | .nested false members => ∀ v, anyHas v members = decide (v = u)
  | _ => False

def Member.IsRange : Member → Prop
  | .item (.range _ _ _ _) => True
  | _ => False

/-- Brackets around a hyphen that is taken for the hyphen of a range: it comes first, and anything
but a range comes next, or it stands behind a unit or a range and in front of a unit. -/
def Misread (members : List Member) : Prop :=
  ∃ before m next after, members = before ++ m :: next :: after ∧ m.IsUnit '-' ∧
    (before = [] ∧ ¬ next.IsRange ∨
      (∃ last ∈ before.getLast?, last.IsRange ∨ ∃ u, last.IsUnit u) ∧ ∃ u, next.IsUnit u)

/-! ### Entries -/

/-- What a member leaves on the stack. -/
inductive Entry where
  | unit (u : CodeUnit)
  | range (a b : CodeUnit) (hb : b ≠ '-')
  | set (s : CodeSet)

namespace Entry

/-- The units of an entry are added to a set. -/
def addTo (s : CodeSet) : Entry → CodeSet
  | unit u => s.insert (.single u.code)
  | range a b _ => s.insert (.between a.code b.code)
  | set t => s.union t

/-- The entry of a bracket expression around a set. -/
def ofSet (negated : Bool) (s : CodeSet) : Entry :=
  match negated, s.single? with
  | false, some code => unit code.toNat.toUInt16
  | false, none => set s
  | true, _ => set s.complement

/-- What adding an entry means for the units of the set. -/
def Denotes (e : Entry) (has : CodeUnit → Bool) : Prop :=
  ∀ ⦃s : CodeSet⦄ ⦃f : CodeUnit → Bool⦄, s.Denotes f → (e.addTo s).Denotes fun u ↦ has u || f u

theorem denotes_set {s : CodeSet} {f : CodeUnit → Bool} (h : s.Denotes f) : (set s).Denotes f :=
  fun _ _ h' ↦ h'.union h

theorem denotes_ofSet {s : CodeSet} {f : CodeUnit → Bool} (h : s.Denotes f) (negated : Bool) :
    (ofSet negated s).Denotes fun u ↦ f u != negated := by
  unfold ofSet
  split
  · next code hsingle =>
    obtain ⟨u, rfl, hf⟩ := h.single?_eq_some_iff.mp hsingle
    intro t g ht
    rw [addTo, CodeUnit.toUInt16_code]
    exact (ht.insert_single u).congr fun v ↦ by simp [hf]
  · exact denotes_set (h.congr fun u ↦ (Bool.bne_false _).symm)
  · exact denotes_set (h.complement.congr fun u ↦ (Bool.bne_true _).symm)

theorem ofSet_eq_unit_iff {s : CodeSet} {f : CodeUnit → Bool} (h : s.Denotes f) {negated : Bool}
    {u : CodeUnit} :
    ofSet negated s = unit u ↔ negated = false ∧ ∀ v, f v = decide (v = u) := by
  unfold ofSet
  split
  · next code hsingle =>
    obtain ⟨v, rfl, hf⟩ := h.single?_eq_some_iff.mp hsingle
    rw [CodeUnit.toUInt16_code, unit.injEq]
    refine ⟨fun huv ↦ ⟨rfl, huv ▸ hf⟩, fun ⟨_, hf'⟩ ↦ ?_⟩
    simpa [hf'] using hf v
  · next hsingle =>
    refine ⟨fun hset ↦ Entry.noConfusion hset, fun ⟨_, hf⟩ ↦ ?_⟩
    have := h.single?_eq_some_iff.mpr ⟨u, rfl, hf⟩
    simp [hsingle] at this
  · simp

theorem ofSet_ne_range (negated : Bool) (s : CodeSet) {a b : CodeUnit} {hb : b ≠ '-'} :
    ofSet negated s ≠ range a b hb := by
  unfold ofSet
  split <;> simp

end Entry

def SetItem.entry : SetItem → Entry
  | unit u => .unit u
  | range a b _ hb => .range a b hb
  | builtin b negated => .set (if negated then b.set.complement else b.set)

mutual

def Member.entry : Member → Entry
  | .item i => i.entry
  | .nested negated members => .ofSet negated (setOf members)

/-- The set that is gathered from members, the last one first. -/
def setOf : List Member → CodeSet
  | [] => .empty
  | m :: members => m.entry.addTo (setOf members)

end

theorem SetItem.denotes_entry (i : SetItem) : i.entry.Denotes i.has := by
  cases i with
  | unit u => exact fun _ _ h ↦ h.insert_single u
  | range a b _ hb => exact fun _ _ h ↦ h.insert_between a b
  | builtin b negated =>
    refine Entry.denotes_set ?_
    cases negated with
    | false => exact b.denotes_set.congr fun u ↦ (Bool.bne_false _).symm
    | true => exact b.denotes_set.complement.congr fun u ↦ (Bool.bne_true _).symm

mutual

theorem Member.denotes_entry (m : Member) : m.entry.Denotes (m.has ·) := by
  match m with
  | .item i => exact i.denotes_entry
  | .nested negated members => exact Entry.denotes_ofSet (denotes_setOf members) negated

theorem denotes_setOf (members : List Member) : (setOf members).Denotes (anyHas · members) := by
  match members with
  | [] => exact .empty
  | m :: members => exact m.denotes_entry (denotes_setOf members)

end

theorem Member.entry_eq_unit_iff {m : Member} {u : CodeUnit} :
    m.entry = .unit u ↔ m.IsUnit u := by
  cases m with
  | item i => cases i <;> simp [entry, SetItem.entry, IsUnit]
  | nested negated members =>
    rw [entry, Entry.ofSet_eq_unit_iff (denotes_setOf members)]
    cases negated <;> simp [IsUnit]

theorem Member.isRange_iff {m : Member} : m.IsRange ↔ ∃ a b hb, m.entry = .range a b hb := by
  cases m with
  | item i =>
    cases i with
    | unit | builtin => simp [IsRange, entry, SetItem.entry]
    | range a b ha hb => exact ⟨fun _ ↦ ⟨a, b, hb, rfl⟩, fun _ ↦ trivial⟩
  | nested negated members => simp [IsRange, entry, Entry.ofSet_ne_range]

theorem setOf_eq_foldr (members : List Member) :
    setOf members = (members.map Member.entry).foldr (fun e s ↦ e.addTo s) .empty := by
  induction members with
  | nil => rfl
  | cons m members ih => rw [setOf, ih, List.map_cons, List.foldr_cons]

/-- Something is gathered from members between brackets. -/
theorem isEmpty_setOf {negated : Bool} {members : List Member} (h : Proper negated members) :
    (setOf members).isEmpty = false := by
  obtain ⟨m, members', rfl⟩ := List.exists_cons_of_ne_nil h.ne_nil
  obtain ⟨u, hu⟩ := h.inhabited m List.mem_cons_self
  refine Bool.eq_false_iff.mpr fun hempty ↦ ?_
  have hnone := (denotes_setOf _).isEmpty_iff.mp hempty u
  simp [anyHas, hu] at hnone

end Written

end ExtendedRegex
