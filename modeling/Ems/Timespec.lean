import Ems.Parse.Stack
import Ems.Parse.RoundTrip

/-!
# Delays

Three functions make a `struct timespec` for `nanosleep` out of an `unsigned int`: the first
part's `delay_to_timespec` and the client's `WAIT` out of milliseconds, the server's
`get_event_with_delay` out of microseconds. The first two divide by 1000; the server
multiplies, and leaves `tv_sec` 0. From a second on that is not a duration that `nanosleep`
takes, or not the one that was asked for (`delays_exact_iff`), although `main` lets every
`unsigned int` pass (`accessDelay_decimalText`).

Mirroring notes:
- `tv_sec` and `tv_nsec` have 64 bits: an `unsigned int` is converted without loss.
- Of the checks of the two `main`s only those on the delay are here. The first part looks
  at `argv[3]` for it, which is the number of threads.
-/

namespace Ems

open Parse

/-- `struct timespec`. -/
structure Timespec where
  tvSec : Int
  tvNsec : Int
deriving DecidableEq, Repr

/-- A duration that `nanosleep` takes, of so many nanoseconds. -/
structure Timespec.Exact (ts : Timespec) (nanoseconds : Nat) : Prop where
  nonneg : 0 ≤ ts.tvNsec
  below : ts.tvNsec < 10 ^ 9
  sum : ts.tvSec * 10 ^ 9 + ts.tvNsec = nanoseconds

/-! ## Arguments -/

/-- What `strtoul(s, &endptr, 10)` returns, and what `endptr` points to then. -/
def strtoulEnd (s : List UInt8) : Nat × List UInt8 :=
  (strtoul s, if (subject s).takeWhile isDigit = [] then s else (subject s).dropWhile isDigit)

/-- The check of a delay: `*endptr != '\0' || delay > UINT_MAX` is an error. -/
def delayArgument (s : List UInt8) : Option UInt32 :=
  let (delay, endptr) := strtoulEnd s
  if endptr ≠ [] ∨ uintMax < delay then none else some (UInt32.ofNat delay)

/-- `state_access_delay_ms` in the first part's `main`. -/
def Jobs.accessDelay (argv : List (List UInt8)) : Option UInt32 :=
  if argv.length < 4 then none
  else if 4 < argv.length then delayArgument (argv.getD 3 [])
  else some 10

/-- `state_access_delay_us` in the server's `main`. -/
def Server.accessDelay (argv : List (List UInt8)) : Option UInt32 :=
  if argv.length < 2 ∨ 3 < argv.length then none
  else if argv.length = 3 then delayArgument (argv.getD 2 [])
  else some 500000

/-! ## The three conversions -/

/-- `delay_to_timespec`. -/
def Jobs.delayToTimespec (delayMs : UInt32) : Timespec :=
  ⟨(delayMs / 1000).toNat, (delayMs % 1000 * 1000000).toNat⟩

/-- `delay_spec` of a `WAIT` in the client's `main`. -/
def Client.delaySpec (delay : UInt32) : Timespec :=
  ⟨(delay / 1000).toNat, (delay % 1000 * 1000000).toNat⟩

/-- `delay` in the server's `get_event_with_delay`. -/
def Server.delaySpec (stateAccessDelayUs : UInt32) : Timespec :=
  ⟨0, (stateAccessDelayUs * 1000).toNat⟩

/-- Every `unsigned int` passes the check. -/
theorem delayArgument_decimalText (v : UInt32) : delayArgument (decimalText v) = some v := by
  obtain ⟨hnum, hdec⟩ := toDigits_bytes v.toNat
  have hfits : v.toNat ≤ uintMax := Nat.le_of_lt_succ v.toNat_lt
  have hmax : uintMax < ulongMax := by decide
  obtain ⟨c, ds, hcons⟩ : ∃ c ds, decimalText v = c :: ds :=
    List.exists_cons_of_ne_nil fun h => Nat.toDigits_ne_nil (List.map_eq_nil_iff.mp h)
  unfold decimalText at hcons ⊢
  rw [hcons] at hnum hdec ⊢
  have hsub : subject (c :: ds) = c :: ds := subject_digits ds (hnum c (List.mem_cons_self ..))
  have htake : (c :: ds).takeWhile isDigit = c :: ds := List.takeWhile_eq_self_iff.mpr hnum
  have hdrop : (c :: ds).dropWhile isDigit = [] := List.dropWhile_eq_nil_iff.mpr hnum
  have hvalue : strtoul (c :: ds) = v.toNat := by
    have hval := strtoul_digits [] hnum
    rw [List.append_nil, List.takeWhile_nil, List.append_nil, hdec, Nat.min_eq_left (by omega)] at hval
    exact hval
  unfold delayArgument strtoulEnd
  dsimp only
  rw [hsub, htake, hdrop, if_neg (List.cons_ne_nil c ds), hvalue, if_neg, UInt32.ofNat_toNat]
  -- neither is anything left behind the digits, nor do they exceed `UINT_MAX`
  rintro (h | h)
  · exact h rfl
  · omega

/-- So it does in both programs; in the first part as the number of threads, when there is
another argument. -/
theorem accessDelay_decimalText (v : UInt32) (name path procs delay : List UInt8) :
    Server.accessDelay [name, path, decimalText v] = some v ∧
      Jobs.accessDelay [name, path, procs, decimalText v, delay] = some v :=
  ⟨delayArgument_decimalText v, delayArgument_decimalText v⟩

/-! ## Durations -/

/-- Seconds and the milliseconds that are left. -/
theorem Jobs.delayToTimespec_exact (delayMs : UInt32) :
    (Jobs.delayToTimespec delayMs).Exact (delayMs.toNat * 10 ^ 6) := by
  have hsec : (delayMs / 1000).toNat = delayMs.toNat / 1000 := UInt32.toNat_div ..
  have hnsec : (delayMs % 1000 * 1000000).toNat = delayMs.toNat % 1000 * 1000000 := by
    rw [UInt32.toNat_mul, UInt32.toNat_mod]
    show delayMs.toNat % 1000 * 1000000 % 2 ^ 32 = _
    omega
  unfold Jobs.delayToTimespec
  rw [hsec, hnsec]
  refine ⟨?_, ?_, ?_⟩
  all_goals
    dsimp only
    omega

theorem Client.delaySpec_exact (delay : UInt32) :
    (Client.delaySpec delay).Exact (delay.toNat * 10 ^ 6) := Jobs.delayToTimespec_exact delay

/-- The server's delay is what it should be when it is shorter than a second. -/
theorem Server.delaySpec_exact_iff (delayUs : UInt32) :
    (Server.delaySpec delayUs).Exact (delayUs.toNat * 10 ^ 3) ↔ delayUs.toNat < 10 ^ 6 := by
  -- the product of two `unsigned int`s wraps around
  have hnsec : (delayUs * 1000).toNat = delayUs.toNat * 1000 % 2 ^ 32 := UInt32.toNat_mul ..
  unfold Server.delaySpec
  rw [hnsec]
  constructor
  · rintro ⟨-, hbelow, hsum⟩
    dsimp only at hbelow hsum
    omega
  · intro hlt
    rw [Nat.mod_eq_of_lt (by omega)]
    refine ⟨?_, ?_, ?_⟩
    all_goals
      dsimp only
      omega

/-- **The delays are what was asked for**, whatever their values, exactly when the server's
is shorter than a second. -/
theorem delays_exact_iff (delayMs delay stateAccessDelayUs : UInt32) :
    ((Jobs.delayToTimespec delayMs).Exact (delayMs.toNat * 10 ^ 6) ∧
      (Client.delaySpec delay).Exact (delay.toNat * 10 ^ 6) ∧
      (Server.delaySpec stateAccessDelayUs).Exact (stateAccessDelayUs.toNat * 10 ^ 3)) ↔
    stateAccessDelayUs.toNat < 10 ^ 6 := by
  rw [← Server.delaySpec_exact_iff]
  constructor
  · intro h
    exact h.2.2
  · intro h
    exact ⟨Jobs.delayToTimespec_exact delayMs, Client.delaySpec_exact delay, h⟩

/-- A server that is started with a delay of one second. -/
theorem one_second_not_exact :
    Server.accessDelay [bytes "ems", bytes "/tmp/server", bytes "1000000"] = some 1000000 ∧
      ¬ (Server.delaySpec 1000000).Exact (UInt32.toNat 1000000 * 10 ^ 3) := by
  refine ⟨by decide, fun h => ?_⟩
  exact absurd h.below (by decide)

end Ems
