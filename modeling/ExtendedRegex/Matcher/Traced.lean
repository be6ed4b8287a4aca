import ExtendedRegex.Search.Found

/-!
Results together with a log. The log of a computation that fails keeps what happened before the
failure.
-/

set_option autoImplicit false
set_option relaxedAutoImplicit false

namespace ExtendedRegex

inductive Event where
  /-- A pattern was compiled to a program with so many explicit groups and instructions. -/
  | compiled (pattern : Text) (groups instructions : Nat)
  | listed (listing : List String)
  /-- A search from an offset ended, with a match or without. -/
  | searched (origin : Int) (found : Option Found)
deriving DecidableEq, Repr

structure Traced (α : Type) where
  log : List Event
  result : Except LimitExceeded α

namespace Traced

variable {α β : Type}

protected def pure (a : α) : Traced α := ⟨[], .ok a⟩

protected def bind (t : Traced α) (f : α → Traced β) : Traced β :=
  match t.result with
  | .error e => ⟨t.log, .error e⟩
  | .ok a => ⟨t.log ++ (f a).log, (f a).result⟩

instance : Monad Traced where
  pure := Traced.pure
  bind := Traced.bind

theorem result_bind {t : Traced α} {f : α → Traced β} {a : α} (h : t.result = .ok a) :
    (t >>= f).result = (f a).result := by
  change (Traced.bind t f).result = _
  rw [Traced.bind, h]

/-- The matches of the searches in the log. -/
def found (t : Traced α) : List Found :=
  t.log.filterMap fun
    | .searched _ found => found
    | _ => none

end Traced

end ExtendedRegex
