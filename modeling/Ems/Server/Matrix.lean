import Mathlib.Data.Finset.Prod
import Ems.Server.Store

/-!
# Seats and allocated cells

`ems_create` asks for `num_rows * num_cols` cells, `ems_reserve` lets a seat pass
when its row and its column are in range, and `seat_index` turns it into a cell.
All three count in a `size_t`, but only the first count wraps for the dimensions
alone: the bounds test never multiplies. When the product of the dimensions is
2^64 or more there are more seats that pass than cells, so two of them share a
cell or one has none (`seats_allocated`, by counting). 2^32 rows of 2^32 columns
are the shortest example: no cells at all, and every seat passes.
-/

namespace Ems.Server

/-- Every seat the bounds test lets pass has a cell of the matrix to itself. -/
structure Event.Addressable (event : Event) : Prop where
  cell : ∀ x y, outOfBounds event x y = false →
    (seatIndex event x y).toNat < event.data.length
  own : ∀ x y x' y', outOfBounds event x y = false → outOfBounds event x' y' = false →
    seatIndex event x y = seatIndex event x' y' → x = x' ∧ y = y'

/-- A product that fits is what `calloc` is asked for. -/
theorem addressable_of_fits {event : Event} (hsized : event.Sized)
    (hcap : capacity event < 2 ^ 64) : event.Addressable where
  cell := by
    intro x y hin
    have hcells : event.data.length = capacity event := by
      rw [hsized.cells, UInt64.toNat_mul]
      exact Nat.mod_eq_of_lt hcap
    rw [hcells]
    exact seatIndex_lt hcap (outOfBounds_eq_false.mp hin)
  own := by
    intro x y x' y' hin hin' heq
    have hseat : ((x, y) : Seat) = (x', y') :=
      seatIndex_inj hcap (outOfBounds_eq_false.mp hin) (outOfBounds_eq_false.mp hin')
        (congrArg UInt64.toNat heq)
    exact ⟨congrArg Prod.fst hseat, congrArg Prod.snd hseat⟩

/-- The seat in row `i + 1` and column `j + 1` passes the bounds test. -/
theorem outOfBounds_ofNat {event : Event} {i j : Nat} (hi : i < event.rows.toNat)
    (hj : j < event.cols.toNat) :
    outOfBounds event (UInt64.ofNat (i + 1)) (UInt64.ofNat (j + 1)) = false := by
  have hrows := event.rows.toNat_lt
  have hcols := event.cols.toNat_lt
  have hx : (UInt64.ofNat (i + 1)).toNat = i + 1 := by
    rw [UInt64.toNat_ofNat']
    exact Nat.mod_eq_of_lt (by omega)
  have hy : (UInt64.ofNat (j + 1)).toNat = j + 1 := by
    rw [UInt64.toNat_ofNat']
    exact Nat.mod_eq_of_lt (by omega)
  rw [outOfBounds_eq_false]
  unfold Inside
  dsimp only
  omega

/-- There are as many seats as the dimensions say, so they need that many cells. -/
theorem capacity_le_cells {event : Event} (h : event.Addressable) :
    capacity event ≤ event.data.length := by
  let place (p : Nat × Nat) : Nat :=
    (seatIndex event (UInt64.ofNat (p.1 + 1)) (UInt64.ofNat (p.2 + 1))).toNat
  have hcard := Finset.card_le_card_of_injOn
    (s := Finset.range event.rows.toNat ×ˢ Finset.range event.cols.toNat)
    (t := Finset.range event.data.length) place ?_ ?_
  · rwa [Finset.card_product, Finset.card_range, Finset.card_range, Finset.card_range] at hcard
  · rintro ⟨i, j⟩ hp
    simp only [Finset.coe_product, Finset.coe_range, Set.mem_prod, Set.mem_Iio] at hp
    simp only [Finset.coe_range, Set.mem_Iio]
    exact h.cell _ _ (outOfBounds_ofNat hp.1 hp.2)
  · rintro ⟨i, j⟩ hp ⟨i', j'⟩ hp' heq
    simp only [Finset.coe_product, Finset.coe_range, Set.mem_prod, Set.mem_Iio] at hp hp'
    obtain ⟨hx, hy⟩ := h.own _ _ _ _ (outOfBounds_ofNat hp.1 hp.2) (outOfBounds_ofNat hp'.1 hp'.2)
      (UInt64.toNat_inj.mp heq)
    have hrows := event.rows.toNat_lt
    have hcols := event.cols.toNat_lt
    have hnat : ∀ {a b : Nat}, a < 2 ^ 64 → b < 2 ^ 64 → UInt64.ofNat a = UInt64.ofNat b → a = b := by
      intro a b ha hb hab
      have hmod := congrArg UInt64.toNat hab
      rw [UInt64.toNat_ofNat', UInt64.toNat_ofNat'] at hmod
      rwa [Nat.mod_eq_of_lt ha, Nat.mod_eq_of_lt hb] at hmod
    have hii := hnat (by omega) (by omega) hx
    have hjj := hnat (by omega) (by omega) hy
    rw [Nat.succ.inj hii, Nat.succ.inj hjj]

/-- **A cell for every accepted seat.** The event a successful `ems_create` makes
has a cell of its own for every seat the bounds test lets pass exactly when the
product of its dimensions fits a `size_t`. -/
theorem seats_allocated {alloc : Alloc} {list : EventList} {id : UInt32} {rows cols : UInt64}
    (h : (emsCreate alloc list id rows cols).2 = 0) :
    ∃ event, (emsCreate alloc list id rows cols).1.nodes = list.nodes ++ [event] ∧
      event.rows = rows ∧ event.cols = cols ∧
      (event.Addressable ↔ rows.toNat * cols.toNat < 2 ^ 64) := by
  unfold emsCreate at h ⊢
  split at h
  next => cases h
  next hid =>
    rw [if_neg hid]
    have hsized := createEvent_sized h
    rcases createEvent_cases alloc list id rows cols with hc | hc
    · rw [hc] at h
      cases h
    · rw [hc]
      refine ⟨newEvent id rows cols, rfl, rfl, rfl, fun ha => ?_, addressable_of_fits hsized⟩
      -- the cells were counted modulo 2^64
      calc rows.toNat * cols.toNat
          ≤ (newEvent id rows cols).data.length := capacity_le_cells ha
        _ = (rows * cols).toNat := hsized.cells
        _ < 2 ^ 64 := (rows * cols).toNat_lt

theorem seats_allocated_twoByThree :
    ∃ event, (emsCreate Alloc.allOk createList 7 2 3).1.nodes = [event] ∧ event.Addressable := by
  obtain ⟨event, hnodes, -, -, hiff⟩ := seats_allocated
    (show (emsCreate Alloc.allOk createList 7 2 3).2 = 0 by decide)
  exact ⟨event, hnodes, hiff.mpr (by decide)⟩

/-- `CREATE 7 4294967296 4294967296`: `calloc` is asked for 0 cells, and seat
(1,1) passes the bounds test. -/
theorem seat_outside : ¬ ∀ (alloc : Alloc) (list : EventList) (id : UInt32) (rows cols : UInt64),
    (emsCreate alloc list id rows cols).2 = 0 →
    ∀ event ∈ (emsCreate alloc list id rows cols).1.nodes, event ∉ list.nodes →
      event.Addressable := by
  intro hall
  have hcreate : emsCreate Alloc.allOk createList 7 4294967296 4294967296 =
      (⟨1, [⟨7, 0, 4294967296, 4294967296, []⟩]⟩, 0) := by decide
  have haddr := hall Alloc.allOk createList 7 4294967296 4294967296 (by rw [hcreate])
    ⟨7, 0, 4294967296, 4294967296, []⟩ (by rw [hcreate]; exact List.mem_singleton_self _)
    (by simp [createList])
  exact absurd (haddr.cell 1 1 (by decide)) (Nat.not_lt_zero _)

end Ems.Server
