import Ems.Jobs.Operations

/-!
# Seats and allocated cells in the job runner

`ems_create` of the first part asks `malloc` for `num_rows * num_cols *
sizeof(unsigned int)` bytes and then writes `num_rows * num_cols` cells; `ems_reserve` and
`ems_show` go by the dimensions, too. For dimensions that `parse_create` can deliver the
number of cells fits a `size_t`, and the number of bytes need not: from 2^62 seats on the
block has fewer cells than the zeroing loop writes (`cells_allocated_iff`). 2^31 rows of
2^31 columns get no cell at all.

Mirroring notes:
- `malloc` gives exactly the bytes it is asked for, none for 0, so the block has the cells
  of `zeroedCells`, which are the event's `data`.
- The dimensions are `unsigned int`s before they are made `size_t`s.
-/

namespace Ems.Jobs

open Server (Inside)

/-- The cells the zeroing loop of `ems_create` writes. -/
def zeroedIndices (numRows numCols : UInt64) : List Nat := List.range (numRows * numCols).toNat

/-- The cells `ems_show` reads, row by row. -/
def shownIndices (event : Event) : List Nat :=
  (List.range' 1 event.rows.toNat).flatMap fun i =>
    (List.range' 1 event.cols.toNat).map fun j =>
      (seatIndex event (UInt64.ofNat i) (UInt64.ofNat j)).toNat

/-- Every cell the operations use has been allocated. -/
structure Event.Allocated (event : Event) : Prop where
  zeroed : ∀ i ∈ zeroedIndices event.rows event.cols, i < event.data.length
  reserved : ∀ row col, outOfBounds event row col = false →
    (seatIndex event row col).toNat < event.data.length
  shown : ∀ i ∈ shownIndices event, i < event.data.length

section

variable {rows cols : UInt32}

/-- The number of the seats does not wrap. -/
theorem mul_toNat (rows cols : UInt32) :
    (rows.toUInt64 * cols.toUInt64).toNat = rows.toNat * cols.toNat := by
  have hlt : rows.toNat * cols.toNat < 2 ^ 32 * 2 ^ 32 :=
    Nat.mul_lt_mul_of_lt_of_lt rows.toNat_lt cols.toNat_lt
  rw [UInt64.toNat_mul, UInt32.toNat_toUInt64, UInt32.toNat_toUInt64]
  apply Nat.mod_eq_of_lt
  omega

/-- The number of the bytes does. -/
theorem zeroedCells_length (rows cols : UInt32) :
    (zeroedCells rows.toUInt64 cols.toUInt64).length =
      rows.toNat * cols.toNat * 4 % 2 ^ 64 / 4 := by
  unfold zeroedCells
  rw [List.length_replicate, UInt64.toNat_mul, mul_toNat]
  rfl

/-- What is built has the dimensions it was asked for and the cells of the block. -/
theorem buildEvent_some {alloc : Alloc} {id : UInt32} {numRows numCols : UInt64} {event : Event}
    (h : buildEvent alloc id numRows numCols = some event) :
    event.rows = numRows ∧ event.cols = numCols ∧ event.data = zeroedCells numRows numCols := by
  unfold buildEvent at h
  split at h
  next =>
    cases h
    exact ⟨rfl, rfl, rfl⟩
  next => cases h

/-- A seat inside the dimensions has an index below their product. -/
theorem seatIndex_lt_mul {event : Event} {row col : UInt64}
    (hcap : event.rows.toNat * event.cols.toNat < 2 ^ 64) (h : Inside event.toServer (row, col)) :
    (seatIndex event row col).toNat < event.rows.toNat * event.cols.toNat :=
  @Server.seatIndex_lt event.toServer row col hcap h

/-- The seats the loops of `ems_show` visit. -/
theorem inside_ofNat {event : Event} {i j : Nat} (hi : 1 ≤ i) (hrows : i ≤ event.rows.toNat)
    (hj : 1 ≤ j) (hcols : j ≤ event.cols.toNat) :
    Inside event.toServer (UInt64.ofNat i, UInt64.ofNat j) := by
  have hi64 := Nat.lt_of_le_of_lt hrows event.rows.toNat_lt
  have hj64 := Nat.lt_of_le_of_lt hcols event.cols.toNat_lt
  unfold Inside Event.toServer
  rw [UInt64.toNat_ofNat', UInt64.toNat_ofNat', Nat.mod_eq_of_lt hi64, Nat.mod_eq_of_lt hj64]
  exact ⟨hi, hrows, hj, hcols⟩

/-- With a cell for every seat nothing is used that was not allocated. -/
theorem allocated_of_length {event : Event}
    (hcap : event.rows.toNat * event.cols.toNat < 2 ^ 64)
    (hlen : event.data.length = event.rows.toNat * event.cols.toNat) : event.Allocated where
  zeroed := by
    intro i hi
    have hlt := List.mem_range.mp hi
    rw [UInt64.toNat_mul, Nat.mod_eq_of_lt hcap] at hlt
    omega
  reserved := by
    intro row col hin
    rw [hlen]
    exact seatIndex_lt_mul hcap (outOfBounds_eq_false.mp hin)
  shown := by
    intro k hk
    obtain ⟨i, hi, hk⟩ := List.mem_flatMap.mp hk
    obtain ⟨j, hj, rfl⟩ := List.mem_map.mp hk
    have hi := List.mem_range'_1.mp hi
    have hj := List.mem_range'_1.mp hj
    rw [hlen]
    apply seatIndex_lt_mul hcap
    apply inside_ofNat
    · exact hi.1
    · exact Nat.le_of_lt_succ (by omega)
    · exact hj.1
    · exact Nat.le_of_lt_succ (by omega)

/-- **All cells that are used are allocated** exactly when the bytes can be counted in a
`size_t`. -/
theorem cells_allocated_iff {alloc : Alloc} {id : UInt32} (rows cols : UInt32) {event : Event}
    (h : buildEvent alloc id rows.toUInt64 cols.toUInt64 = some event) :
    event.Allocated ↔ rows.toNat * cols.toNat * 4 < 2 ^ 64 := by
  obtain ⟨hrows, hcols, hdata⟩ := buildEvent_some h
  have hlen : event.data.length = rows.toNat * cols.toNat * 4 % 2 ^ 64 / 4 := by
    rw [hdata, zeroedCells_length]
  have hprod := mul_toNat rows cols
  constructor
  · intro ha
    by_contra hwrap
    -- the last cell the zeroing loop writes
    have hpos : 0 < rows.toNat * cols.toNat := by omega
    have hlast := ha.zeroed (rows.toNat * cols.toNat - 1) (by
      apply List.mem_range.mpr
      rw [hrows, hcols, hprod]
      omega)
    have hmod : rows.toNat * cols.toNat * 4 % 2 ^ 64 < 2 ^ 64 := Nat.mod_lt _ (by decide)
    omega
  · intro hfit
    have hcap : event.rows.toNat * event.cols.toNat = rows.toNat * cols.toNat := by
      rw [hrows, hcols, UInt32.toNat_toUInt64, UInt32.toNat_toUInt64]
    apply allocated_of_length
    · omega
    · rw [hlen, hcap, Nat.mod_eq_of_lt hfit]
      omega

theorem cells_allocated_twoByThree : ∃ event,
    buildEvent ⟨true, true, true⟩ 7 (2 : UInt32).toUInt64 (3 : UInt32).toUInt64 = some event ∧
      event.Allocated := by
  obtain ⟨event, hbuild⟩ : ∃ event, buildEvent ⟨true, true, true⟩ 7 (2 : UInt32).toUInt64
    (3 : UInt32).toUInt64 = some event := ⟨_, rfl⟩
  exact ⟨event, hbuild, (cells_allocated_iff 2 3 hbuild).mpr (by decide)⟩

/-- `CREATE 7 2147483648 2147483648`: `malloc` is asked for 0 bytes, and the zeroing loop
writes 2^62 cells. -/
theorem cells_not_allocated : ∃ event, buildEvent ⟨true, true, true⟩ 7
    (2147483648 : UInt32).toUInt64 (2147483648 : UInt32).toUInt64 = some event ∧
      event.data = [] ∧ ¬ event.Allocated := by
  have hempty : zeroedCells (2147483648 : UInt32).toUInt64 (2147483648 : UInt32).toUInt64 = [] := by
    decide
  refine ⟨_, rfl, hempty, fun ha => ?_⟩
  have hfirst := ha.reserved 1 1 (by decide)
  rw [show Event.data _ = [] from hempty] at hfirst
  exact Nat.not_lt_zero _ hfirst

end

end Ems.Jobs
