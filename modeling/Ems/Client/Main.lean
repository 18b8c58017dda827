import Ems.Client.Api
import Ems.Parse.Files

/-!
# The client's `main`

The loop of `client/main.c` over a job file: it takes the next command from the file and
calls the operation of `api.c` that the command stands for, until the file is at its end,
and then `ems_quit`. The file does not depend on what the server says, so the loop makes
the calls of `callsFrom`, one after the other (`main_eq`).

Mirroring notes:
- `xs` and `ys` are not initialised. `parse_reserve` writes their first elements, but
  `ems_reserve` sends them whole; what they hold in the `i`-th turn is `stack i`.
- `WAIT`, `HELP`, a comment and a line that is not understood touch neither a pipe nor
  the `.out` file. `BARRIER` is such a line here.
- The loop has a case for every value of `enum Command`, and leaves only at `EOC`.
-/

namespace Ems.Client

open Base Parse Wire Server Proto

/-- What the two arrays of `main` hold when a turn of its loop begins. -/
abbrev Stack := Nat → SeatArray × SeatArray

/-- The array when its first elements have been written. -/
def fill (memory : SeatArray) (seats : List UInt64) : SeatArray :=
  ⟨(seats ++ memory.1.drop seats.length).take Proto.maxReservationSize, by
    have hlen := memory.2
    rw [List.length_take, List.length_append, List.length_drop]
    omega⟩

/-- The call of a command. -/
def callOf (memory : SeatArray × SeatArray) : Decoded → Option Call
  | .create eventId numRows numCols => some (.create eventId numRows numCols)
  | .reserve eventId coords =>
    some (.reserve eventId (UInt64.ofNat coords.length) (fill memory.1 (coords.map (·.1)))
      (fill memory.2 (coords.map (·.2))))
  | .showEvent eventId => some (.showEvent eventId)
  | .listEvents => some .listEvents
  | _ => none

/-- The turns of the loop from the `i`-th on, `file` being what is left of the job file.
The fuel bounds their number; a turn whose parser does something undefined has no program. -/
def turns (junk : Nat → UInt8) (uninit : List UInt8) (stack : Stack) :
    Nat → Nat → List UInt8 → Option (Program UInt32)
  | 0, _, _ => none
  | fuel + 1, i, file =>
    match (decode uninit).run file with
    | none => none
    | some (.eoc, _) =>
      some (do
        Talk.act .quit
        emsQuit)
    | some (command, rest) =>
      match callOf (stack i) command with
      | none => turns junk uninit stack fuel (i + 1) rest
      | some c =>
        (turns junk uninit stack fuel (i + 1) rest).map fun next => do
          Talk.act (.enter c)
          let ret ← call junk c
          Talk.act (.leave ret)
          next

/-- `main` when the pipes and the files are open. -/
def main (junk : Nat → UInt8) (uninit : List UInt8) (stack : Stack) (file : List UInt8) :
    Option (Program UInt32) :=
  turns junk uninit stack (file.length + 1) 0 file

/-- The calls of the commands, the first one being that of the `i`-th turn. -/
def callsFrom (stack : Stack) : Nat → List Decoded → List Call
  | _, [] => []
  | i, d :: ds => (callOf (stack i) d).toList ++ callsFrom stack (i + 1) ds

/-- One turn, and what is left of the session. -/
theorem turn_eq {junk : Nat → UInt8} (c : Option Call) {rest : Option (Program UInt32)}
    {calls : List Call} (h : rest = some (session junk calls)) :
    (match c with
      | none => rest
      | some c =>
        rest.map fun next => do
          Talk.act (.enter c)
          let ret ← call junk c
          Talk.act (.leave ret)
          next) = some (session junk (c.toList ++ calls)) := by
  subst h
  cases c with
  | none => rfl
  | some c => rfl

theorem turns_eq {junk : Nat → UInt8} {uninit : List UInt8} {stack : Stack} (fuel : Nat) :
    ∀ (i : Nat) (file : List UInt8) (D : List Decoded),
      decodeUpTo (decode uninit) fuel file = some D →
      turns junk uninit stack fuel i file = some (session junk (callsFrom stack i D)) := by
  induction fuel with
  | zero => intro i file D h; cases h
  | succ fuel ih =>
    intro i file D h
    unfold decodeUpTo at h
    unfold turns
    cases hrun : (decode uninit).run file with
    | none =>
      rw [hrun] at h
      cases h
    | some x =>
      obtain ⟨d, rest⟩ := x
      rw [hrun] at h
      by_cases hd : d = .eoc
      · subst hd
        cases h
        rfl
      · have hmap : (decodeUpTo (decode uninit) fuel rest).map (d :: ·) = some D := by
          cases d <;> first | exact absurd rfl hd | exact h
        obtain ⟨ds, hds, rfl⟩ := Option.map_eq_some_iff.mp hmap
        refine Eq.trans ?_ (turn_eq (callOf (stack i) d) (ih (i + 1) rest ds hds))
        cases d <;> first | exact absurd rfl hd | rfl

/-- **The loop of `main`** makes the calls of the file's commands, and then `ems_quit`. -/
theorem main_eq {junk : Nat → UInt8} {uninit : List UInt8} {stack : Stack} {file : List UInt8}
    {D : List Decoded} (h : decodeAll (decode uninit) file = some D) :
    main junk uninit stack file = some (session junk (callsFrom stack 0 D)) :=
  turns_eq _ 0 file D h

end Ems.Client
