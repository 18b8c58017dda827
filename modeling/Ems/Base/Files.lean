import Mathlib.Logic.Function.Basic

/-!
# A file system as a set of paths

Nothing is said of a path but whether it exists. `mkfifo` makes one that does not, unless
it fails for a reason of its own; `unlink` takes away one that does. A path that was made
and is unlinked leaves no trace (`unlink_made`), one that was there before does
(`unlink_eq_self`).
-/

namespace Base

variable {P : Type} [DecidableEq P]

/-- The paths that exist. -/
abbrev Files (P : Type) := P → Bool

namespace Files

/-- `mkfifo(path)`, and whether it succeeds. It fails if the path exists, or if `fault`. -/
def mkfifo (fault : Bool) (files : Files P) (path : P) : Files P × Bool :=
  if files path || fault then (files, false) else (Function.update files path true, true)

/-- `unlink(path)`, and whether it succeeds. It fails if the path does not exist. -/
def unlink (files : Files P) (path : P) : Files P × Bool :=
  if files path then (Function.update files path false, true) else (files, false)

variable {files : Files P} {path : P}

theorem mkfifo_fault (files : Files P) (path : P) : mkfifo true files path = (files, false) := by
  apply if_pos
  rw [Bool.or_true]

theorem mkfifo_present (fault : Bool) (h : files path = true) :
    mkfifo fault files path = (files, false) := by
  apply if_pos
  rw [h, Bool.true_or]

theorem mkfifo_absent (h : files path = false) :
    mkfifo false files path = (Function.update files path true, true) := by
  apply if_neg
  rw [h]
  exact Bool.false_ne_true

theorem unlink_present (h : files path = true) :
    unlink files path = (Function.update files path false, true) := if_pos h

theorem unlink_absent (h : files path = false) : unlink files path = (files, false) := by
  apply if_neg
  rw [h]
  exact Bool.false_ne_true

/-- Other paths stay. -/
theorem unlink_of_ne {other : P} (h : other ≠ path) : (unlink files path).1 other = files other := by
  unfold unlink
  split
  next => exact Function.update_of_ne h ..
  next => rfl

/-- An unlinked path does not exist. -/
theorem unlink_self (files : Files P) (path : P) : (unlink files path).1 path = false := by
  unfold unlink
  split
  next => exact Function.update_self ..
  next h => exact Bool.eq_false_iff.mpr h

/-- The path is gone that was made. -/
theorem unlink_made (h : files path = false) :
    unlink (Function.update files path true) path = (files, true) := by
  rw [unlink_present (Function.update_self ..), Function.update_idem, ← h, Function.update_eq_self]

/-- Only the path that does not exist can be unlinked without a trace. -/
theorem unlink_eq_self : (unlink files path).1 = files ↔ files path = false := by
  constructor
  · intro h
    rw [← h]
    exact unlink_self files path
  · intro h
    rw [unlink_absent h]

end Files

end Base
