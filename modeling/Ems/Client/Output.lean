import Ems.Client.Api
import Ems.Server.Snapshot

/-!
# What a session prints

The matrix of an event, row by row, and the list of the ids are what `ems_show` and
`ems_list_events` are for; here is that the client's loops over the bytes it has
received print just that. One event is an exception. With 2^64 - 1 rows, and therefore
no columns, it can be created and asked for, and then the outer loop of `ems_show` never
ends (`showText_max`).
-/

namespace Ems.Client

open Wire Server Proto

/-! ## Counting up to the bound -/

/-- The iterations from the `i`-th on. -/
theorem forText_eq {n : UInt64} (hn : n.toNat + 1 < 2 ^ 64) {body : UInt64 → Option (List Char)}
    {text : Nat → List Char}
    (hbody : ∀ i < n.toNat, body (UInt64.ofNat (i + 1)) = some (text i)) (k : Nat) :
    ∀ {fuel i : Nat}, i + k = n.toNat → k < fuel →
      forText n body fuel (UInt64.ofNat (i + 1)) = some ((List.range' i k).flatMap text) := by
  induction k with
  | zero =>
    intro fuel i hi hfuel
    obtain ⟨fuel, rfl⟩ := Nat.exists_eq_add_of_lt hfuel
    have hgt : ¬ UInt64.ofNat (i + 1) ≤ n := by
      rw [UInt64.le_iff_toNat_le, UInt64.toNat_ofNat', Nat.mod_eq_of_lt (by omega)]
      omega
    unfold forText
    rw [if_neg hgt]
    rfl
  | succ k ih =>
    intro fuel i hi hfuel
    obtain ⟨fuel, rfl⟩ := Nat.exists_eq_add_of_lt (Nat.zero_lt_of_lt hfuel)
    have hle : UInt64.ofNat (i + 1) ≤ n := by
      rw [UInt64.le_iff_toNat_le, UInt64.toNat_ofNat', Nat.mod_eq_of_lt (by omega)]
      omega
    have hnext : UInt64.ofNat (i + 1) + 1 = UInt64.ofNat (i + 1 + 1) := by
      rw [UInt64.ofNat_add (i + 1) 1]
      rfl
    unfold forText
    rw [if_pos hle, hbody i (by omega), hnext, ih (i := i + 1) (by omega) (by omega),
      List.range'_succ, List.flatMap_cons]
    rfl

/-- The loop visits every index once. -/
theorem loopText_eq {n : UInt64} (hn : n.toNat + 1 < 2 ^ 64) {body : UInt64 → Option (List Char)}
    (text : Nat → List Char)
    (hbody : ∀ i < n.toNat, body (UInt64.ofNat (i + 1)) = some (text i)) :
    loopText n body = some ((List.range n.toNat).flatMap text) := by
  rw [List.range_eq_range']
  exact forText_eq hn hbody n.toNat (Nat.zero_add _) (by omega)

/-- Every counter is within the largest bound. -/
theorem loopText_max {n : UInt64} (hn : n.toNat + 1 = 2 ^ 64) (body : UInt64 → Option (List Char)) :
    loopText n body = none := by
  have hle : ∀ i : UInt64, i ≤ n := by
    intro i
    rw [UInt64.le_iff_toNat_le]
    have := i.toNat_lt
    omega
  have hfor : ∀ (fuel : Nat) (i : UInt64), forText n body fuel i = none := by
    intro fuel
    induction fuel with
    | zero => intro i; rfl
    | succ fuel ih =>
      intro i
      unfold forText
      rw [if_pos (hle i), ih]
      cases body i <;> rfl
  exact hfor _ _

/-! ## The matrix -/

/-- The seats of an event, row by row. -/
def matrix (event : Server.Event) : List (List UInt32) :=
  (List.range event.rows.toNat).map fun i =>
    (List.range event.cols.toNat).map fun j => event.data.getD (i * event.cols.toNat + j) 0

/-- A row. -/
def line (row : List UInt32) : List Char := [' '].intercalate (row.map decimal) ++ ['\n']

/-- What `SHOW` is for. -/
def render (event : Server.Event) : List Char := (matrix event).flatMap line

/-- The loops of `ems_show` end, and the number of its seats is what it should be. -/
structure Printable (event : Server.Event) : Prop where
  fits : event.rows.toNat * event.cols.toNat * 4 < 2 ^ 64
  ends : event.rows.toNat + 1 < 2 ^ 64

instance (event : Server.Event) : Decidable (Printable event) :=
  decidable_of_iff (event.rows.toNat * event.cols.toNat * 4 < 2 ^ 64 ∧ event.rows.toNat + 1 < 2 ^ 64)
    ⟨fun h => ⟨h.1, h.2⟩, fun h => ⟨h.fits, h.ends⟩⟩

/-- An element and a blank behind it unless it is the last one. -/
theorem flatMap_separated {sep : List Char} {text : Nat → List Char} {n : Nat} (k : Nat) :
    ∀ i, i + k = n → (List.range' i k).flatMap (fun j => text j ++ if j + 1 < n then sep else []) =
      sep.intercalate ((List.range' i k).map text) := by
  induction k with
  | zero => intro i _; rfl
  | succ k ih =>
    intro i hi
    rw [List.range'_succ, List.flatMap_cons, ih (i + 1) (by omega), List.map_cons]
    cases k with
    | zero =>
      rw [if_neg (by omega)]
      simp
    | succ k =>
      rw [if_pos (by omega), List.range'_succ, List.map_cons, List.intercalate_cons_cons,
        List.append_assoc]

/-- A word of an array in memory. -/
theorem word_toWords {ns : List UInt32} {i : UInt64} (hi : i.toNat < ns.length) :
    word (toWords 4 (ns.map UInt32.toNat)) i = ns.getD i.toNat 0 := by
  have hmap : (ns.map UInt32.toNat).getD i.toNat 0 = (ns.getD i.toNat 0).toNat := by
    simp [List.getD_eq_getElem?_getD, hi]
  unfold word
  rw [take_drop_toWords (by rw [List.length_map]; exact hi), hmap]
  exact uint_le4 _

/-- `(i - 1) * num_matrix[1] + (j - 1)`, with `i` and `j` from 1. -/
theorem seat_toNat {cols : UInt64} {i j : Nat} (h : i * cols.toNat + j < 2 ^ 64)
    (hj : j < cols.toNat) :
    ((UInt64.ofNat (i + 1) - 1) * cols + (UInt64.ofNat (j + 1) - 1)).toNat =
      i * cols.toNat + j := by
  have hpred : ∀ k : Nat, UInt64.ofNat (k + 1) - 1 = UInt64.ofNat k := by
    intro k
    rw [UInt64.ofNat_add k 1]
    exact UInt64.add_sub_cancel _ _
  have hi : i ≤ i * cols.toNat := Nat.le_mul_of_pos_right i (by omega)
  rw [hpred, hpred, UInt64.toNat_add, UInt64.toNat_mul, UInt64.toNat_ofNat', UInt64.toNat_ofNat',
    Nat.mod_eq_of_lt (show i < 2 ^ 64 by omega), Nat.mod_eq_of_lt (show j < 2 ^ 64 by omega),
    Nat.mod_eq_of_lt (show i * cols.toNat < 2 ^ 64 by omega), Nat.mod_eq_of_lt h]

/-- The loops of `ems_show` print the matrix. -/
theorem showText_bytes {event : Server.Event} (hsized : event.Sized) (h : Printable event) :
    showText event.rows event.cols event.bytes = some (render event) := by
  have hfits := h.fits
  have hlen : event.data.length = event.rows.toNat * event.cols.toNat := by
    rw [hsized.cells, UInt64.toNat_mul]
    exact Nat.mod_eq_of_lt (by omega)
  have hseat : ∀ i < event.rows.toNat, ∀ j < event.cols.toNat,
      i * event.cols.toNat + j < event.rows.toNat * event.cols.toNat := by
    intro i hi j hj
    have hle : i * event.cols.toNat + (j + 1) ≤ event.rows.toNat * event.cols.toNat :=
      inside_mul_le (Nat.succ_pos i) hi hj
    omega
  -- one row, seat by seat
  have hrow : ∀ i < event.rows.toNat, (loopText event.cols fun j =>
      pure (decimal (word event.bytes ((UInt64.ofNat (i + 1) - 1) * event.cols + (j - 1))) ++
        if j < event.cols then [' '] else [])) =
      some ([' '].intercalate (((List.range event.cols.toNat).map fun j =>
        event.data.getD (i * event.cols.toNat + j) 0).map decimal)) := by
    intro i hi
    have hcols : event.cols.toNat ≤ event.rows.toNat * event.cols.toNat :=
      Nat.le_mul_of_pos_left _ (by omega)
    rw [loopText_eq (by omega) (fun j => decimal (event.data.getD (i * event.cols.toNat + j) 0) ++
      if j + 1 < event.cols.toNat then [' '] else [])]
    · rw [List.range_eq_range', flatMap_separated _ 0 (Nat.zero_add _), List.map_map]
      rfl
    · intro j hj
      have hlt : UInt64.ofNat (j + 1) < event.cols ↔ j + 1 < event.cols.toNat := by
        rw [UInt64.lt_iff_toNat_lt, UInt64.toNat_ofNat', Nat.mod_eq_of_lt (by omega)]
      have hcell := hseat i hi j hj
      have hidx : ((UInt64.ofNat (i + 1) - 1) * event.cols + (UInt64.ofNat (j + 1) - 1)).toNat =
          i * event.cols.toNat + j := seat_toNat (by omega) hj
      unfold Server.Event.bytes
      rw [word_toWords (by rw [hidx, hlen]; exact hcell), hidx]
      simp only [hlt]
      rfl
  unfold showText
  rw [loopText_eq h.ends fun i => line ((List.range event.cols.toNat).map fun j =>
    event.data.getD (i * event.cols.toNat + j) 0)]
  · unfold render matrix
    rw [List.flatMap_map]
  · intro i hi
    rw [hrow i hi]
    rfl

/-- Nothing is printed of an event that does not exist. -/
theorem showText_zero (seats : List UInt8) : showText 0 0 seats = some [] :=
  loopText_eq (by decide) (fun _ => []) fun i hi => absurd hi (Nat.not_lt_zero i)

/-- With the largest number of rows the loop does not end. -/
theorem showText_max {numRows : UInt64} (h : numRows.toNat + 1 = 2 ^ 64) (numCols : UInt64)
    (seats : List UInt8) : showText numRows numCols seats = none := loopText_max h _

/-! ## The list -/

/-- The line of an event in the list. -/
def idLine (id : UInt32) : List Char := "Event: ".toList ++ decimal id ++ ['\n']

/-- The ids as an array. -/
theorem flatMap_le4 (ids : List UInt32) : ids.flatMap le4 = toWords 4 (ids.map UInt32.toNat) := by
  unfold toWords le4
  rw [List.flatMap_map]

/-- `ems_list_events` prints all ids. -/
theorem listText_ids {num : UInt64} {ids : List UInt32} (h : num.toNat = ids.length) :
    listText num (ids.flatMap le4) =
      if ids = [] then "No events\n".toList else ids.flatMap idLine := by
  have hzero : num = 0 ↔ ids = [] := by
    rw [← UInt64.toNat_inj, h]
    exact List.length_eq_zero_iff
  have hword : ∀ i < ids.length, word (ids.flatMap le4) (UInt64.ofNat i) = ids.getD i 0 := by
    intro i hi
    have hlt : i < 2 ^ 64 := by
      have := num.toNat_lt
      omega
    have hidx : (UInt64.ofNat i).toNat = i := by
      rw [UInt64.toNat_ofNat', Nat.mod_eq_of_lt hlt]
    rw [flatMap_le4, word_toWords (by rw [hidx]; exact hi), hidx]
  have hrange : ids = (List.range ids.length).map fun i => ids.getD i 0 :=
    List.ext_getElem (by simp) fun i h1 h2 => by simp [List.getD_eq_getElem?_getD, h1]
  unfold listText
  simp only [hzero, h]
  split
  next => rfl
  next =>
    conv_rhs => rw [hrange, List.flatMap_map]
    refine List.flatMap_congr fun i hi => ?_
    rw [hword i (List.mem_range.mp hi)]
    rfl

end Ems.Client
