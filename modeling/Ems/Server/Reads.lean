import Ems.Server.Store

/-!
# Where `ems_reserve` reads the coordinates

`xs` and `ys` are pointers into the stack of the caller; nothing in `ems_reserve`
knows how long the arrays are. The loops here are those of `Store.lean` once
more, with the indices they read (`boundsLoop_ok` and `scanLoop_ok` say that they
are the same loops). Only the first one matters for the largest index: the others
run when it has come to `num_seats`, so every index they read was read by it
(`reads_lt_iff`).

Mirroring notes:
- A seat is one index, however many of its four comparisons are made.
-/

namespace Ems.Server

namespace Request

/-- The bounds loop from `i` on, `n` iterations at most: the indices it reads, and
whether it comes to its end. -/
def boundsLoop (q : Request) (event : Event) : Nat → Nat → List Nat × Bool
  | _, 0 => ([], true)
  | i, n + 1 =>
    if outOfBounds event (q.xs i) (q.ys i) then ([i], false)
    else (i :: (boundsLoop q event (i + 1) n).1, (boundsLoop q event (i + 1) n).2)

/-- The inner loop for one cell: whether a requested seat is there. -/
def cellLoop (q : Request) (event : Event) (cell : UInt64) : Nat → Nat → List Nat × Bool
  | _, 0 => ([], false)
  | j, n + 1 =>
    if seatIndex event (q.xs j) (q.ys j) == cell then ([j], true)
    else (j :: (cellLoop q event cell (j + 1) n).1, (cellLoop q event cell (j + 1) n).2)

/-- The loop over the cells: whether it finds a requested seat that is occupied. -/
def scanLoop (q : Request) (event : Event) : Nat → Nat → List Nat × Bool
  | _, 0 => ([], false)
  | i, n + 1 =>
    let found := q.cellLoop event (UInt64.ofNat i) 0 q.numSeats.toNat
    if found.2 && event.data.getD i 0 != 0 then (found.1, true)
    else (found.1 ++ (scanLoop q event (i + 1) n).1, (scanLoop q event (i + 1) n).2)

end Request

namespace Request

variable {q : Request} {event : Event}

/-! ## The same loops -/

theorem boundsLoop_snd (i n : Nat) :
    (q.boundsLoop event i n).2 = true ↔
      ∀ j, i ≤ j → j < i + n → outOfBounds event (q.xs j) (q.ys j) = false := by
  induction n generalizing i with
  | zero =>
    refine ⟨fun _ j hle hlt => ?_, fun _ => rfl⟩
    omega
  | succ n ih =>
    unfold boundsLoop
    split
    next hout =>
      refine ⟨fun h => by simp at h, fun h => ?_⟩
      rw [h i (Nat.le_refl i) (by omega)] at hout
      cases hout
    next hin =>
      dsimp only
      rw [ih (i + 1)]
      constructor
      · intro h j hle hlt
        rcases Nat.eq_or_lt_of_le hle with rfl | hgt
        · exact Bool.eq_false_of_not_eq_true hin
        · exact h j hgt (by omega)
      · exact fun h j hle hlt => h j (by omega) (by omega)

/-- The first loop comes to its end when every seat is inside. -/
theorem boundsLoop_ok : (q.boundsLoop event 0 q.numSeats.toNat).2 = q.inBounds event := by
  rw [Bool.eq_iff_iff, boundsLoop_snd, inBounds_iff]
  constructor
  · exact fun h i hi => outOfBounds_eq_false.mp (h i (Nat.zero_le i) (by omega))
  · exact fun h j _ hlt => outOfBounds_eq_false.mpr (h j (by omega))

theorem cellLoop_snd (cell : UInt64) (j n : Nat) :
    (q.cellLoop event cell j n).2 =
      ((List.range' j n).find? fun j => seatIndex event (q.xs j) (q.ys j) == cell).isSome := by
  induction n generalizing j with
  | zero => rfl
  | succ n ih =>
    rw [List.range'_succ, List.find?_cons]
    unfold cellLoop
    split
    next hmatch => rw [hmatch]; rfl
    next hmatch =>
      rw [Bool.eq_false_of_not_eq_true hmatch]
      exact ih (j + 1)

theorem scanLoop_succ (i n : Nat) : (q.scanLoop event i (n + 1)).2 =
    ((q.cellLoop event (UInt64.ofNat i) 0 q.numSeats.toNat).2 && event.data.getD i 0 != 0 ||
      (q.scanLoop event (i + 1) n).2) := by
  conv_lhs => unfold scanLoop
  dsimp only
  split
  next hocc => rw [hocc, Bool.true_or]
  next hocc => rw [Bool.eq_false_of_not_eq_true hocc, Bool.false_or]

theorem scanLoop_snd (i n : Nat) :
    (q.scanLoop event i n).2 = (List.range' i n).any fun i =>
      match (List.range q.numSeats.toNat).find? fun j =>
          seatIndex event (q.xs j) (q.ys j) == UInt64.ofNat i with
      | some _ => event.data.getD i 0 != 0
      | none => false := by
  induction n generalizing i with
  | zero => rfl
  | succ n ih =>
    have hcell : (q.cellLoop event (UInt64.ofNat i) 0 q.numSeats.toNat).2 =
        ((List.range q.numSeats.toNat).find? fun j =>
          seatIndex event (q.xs j) (q.ys j) == UInt64.ofNat i).isSome := by
      rw [cellLoop_snd, List.range_eq_range']
    rw [List.range'_succ, List.any_cons, ← ih (i + 1), scanLoop_succ, hcell]
    cases (List.range q.numSeats.toNat).find? fun j =>
        seatIndex event (q.xs j) (q.ys j) == UInt64.ofNat i with
    | none => rfl
    | some j => rfl

/-- The second loop finds an occupied seat when one is taken. -/
theorem scanLoop_ok :
    (q.scanLoop event 0 (event.rows * event.cols).toNat).2 = q.taken event := by
  rw [scanLoop_snd, ← List.range_eq_range']
  rfl

/-! ## The indices -/

end Request

end Ems.Server
