import Ems.Jobs.Locking
import Ems.Server.Programs

/-!
# The locks an operation returns with

For each of the nine operations, whatever its library calls answer: it returns, gives back
only locks that it holds and keeps none of them (`Program.Returns`). Four things can go
wrong. In the first part, `ems_show` and `ems_list_events` leave `file_Lock` locked when
`snprintf` fails after a flush, and `ems_show` leaves its buffer when an event has no
columns and more than `BUFSIZ` rows. In the second part, `ems_sigusr1_action` leaves the
lock of the list locked when `pthread_mutex_lock` fails, and never returns when an event
has 2^64 - 1 rows, or 2^64 - 1 columns and a row.
-/

namespace Ems

open Conc Conc.Program

/-- **Exactly then** an operation returns with nothing locked. -/
theorem returns_free (c : Jobs.Programs.Op)
    (answers : Nat → (e : Jobs.Programs.Action) → Jobs.Programs.Answer e)
    (d : Server.Programs.Op)
    (replies : Nat → (e : Server.Programs.Action) → Server.Programs.Answer e) :
    (c.code.Returns answers 0 (fun _ => none) ↔
      Jobs.Programs.Tidy (c.code.trace answers 0) ∧ ¬ c.Undefined (c.code.trace answers 0)) ∧
    (d.code.Returns replies 0 (fun _ => none) ↔
      d.Fair (d.code.trace replies 0) ∧ ¬ d.Undefined (d.code.trace replies 0)) := by
  constructor
  · exact (Jobs.Programs.code_ordered c).returns_iff
  · exact (Server.Programs.code_ordered d).returns_iff

/-- One event, and every library call succeeds but `pthread_mutex_lock`. -/
def mutexFails : Nat → (e : Server.Programs.Action) → Server.Programs.Answer e
  | _, .initialized => true
  | _, .rdlock => true
  | _, .wrlock => true
  | _, .mutexLock _ => false
  | _, .lookup _ => some 0
  | _, .load _ => ⟨1, 0, 1, 1, [0]⟩
  | _, .malloc => true
  | _, .mutexInit => true
  | _, .calloc n => some (List.replicate n.toNat 0)
  | _, .append _ => true
  | _, .readSeat _ _ => 0
  | _, .writeSeat _ _ _ => ()
  | _, .bump _ => 1
  | _, .eventNum => 1
  | _, .head => true
  | _, .behind => 0
  | _, .nodeId _ => 1
  | _, .safeWrite _ => true
  | _, .writeSeats _ _ => true
  | _, .printf _ => ()

/-- It returns with the lock of the list. -/
theorem sigusr1_keeps_rwl :
    ¬ Server.Programs.Op.sigusr1Action.code.Returns mutexFails 0 (fun _ => none) :=
  fun h => absurd (h .rwl) nofun

end Ems
