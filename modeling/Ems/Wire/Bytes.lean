import Mathlib.Data.List.Basic
import Mathlib.Tactic.Ring

/-!
# Little-endian words

Numbers as the bytes a C program writes when it hands the address of an integer
to `write()`, on a little-endian machine.
-/

namespace Wire

/-- The `w` low-order bytes of `n`, lowest first. -/
def toLe : Nat → Nat → List UInt8
  | 0, _ => []
  | w + 1, n => UInt8.ofNat n :: toLe w (n / 256)

/-- The number a list of bytes stands for, lowest byte first. -/
def ofLe : List UInt8 → Nat
  | [] => 0
  | b :: bs => b.toNat + 256 * ofLe bs

/-- An array of words of `w` bytes. -/
def toWords (w : Nat) (ns : List Nat) : List UInt8 := ns.flatMap (toLe w)

/-- A variable of `n` bytes after `bs` has been read into it; `stale` is what was there. -/
def overlay (n : Nat) (bs : List UInt8) (stale : Nat → UInt8) : List UInt8 :=
  (List.range n).map fun i => bs.getD i (stale i)

/-- The first `n` words of `w` bytes. -/
def ofWords (w : Nat) : Nat → List UInt8 → List Nat
  | 0, _ => []
  | n + 1, bs => ofLe (bs.take w) :: ofWords w n (bs.drop w)

theorem overlay_full {bs : List UInt8} (stale : Nat → UInt8) : overlay bs.length bs stale = bs := by
  unfold overlay
  refine List.ext_getElem (by simp) fun i h1 h2 => ?_
  simp [h2]

@[simp] theorem toLe_length (w n : Nat) : (toLe w n).length = w := by
  induction w generalizing n with
  | zero => rfl
  | succ w ih => simp [toLe, ih]

theorem ofLe_toLe (w n : Nat) : ofLe (toLe w n) = n % 256 ^ w := by
  induction w generalizing n with
  | zero => simp [toLe, ofLe, Nat.mod_one]
  | succ w ih =>
    simp only [toLe, ofLe, ih, UInt8.toNat_ofNat']
    show n % 256 + 256 * (n / 256 % 256 ^ w) = n % 256 ^ (w + 1)
    rw [Nat.pow_succ', Nat.mod_mul]

theorem toWords_cons (w n : Nat) (ns : List Nat) :
    toWords w (n :: ns) = toLe w n ++ toWords w ns := rfl

@[simp] theorem toWords_length (w : Nat) (ns : List Nat) :
    (toWords w ns).length = w * ns.length := by
  induction ns with
  | nil => rfl
  | cons n ns ih => rw [toWords_cons, List.length_append, ih, toLe_length, List.length_cons]; ring

/-- Reading back an array of words, each small enough for its width. -/
theorem ofWords_toWords {w : Nat} {ns : List Nat} (h : ∀ n ∈ ns, n < 256 ^ w) :
    ofWords w ns.length (toWords w ns) = ns := by
  induction ns with
  | nil => rfl
  | cons n ns ih =>
    have htake : (toWords w (n :: ns)).take w = toLe w n := by
      rw [toWords_cons, List.take_append_of_le_length (by simp)]
      exact List.take_of_length_le (by simp)
    have hdrop : (toWords w (n :: ns)).drop w = toWords w ns := by
      rw [toWords_cons, List.drop_append_of_le_length (by simp), List.drop_of_length_le (by simp)]
      rfl
    rw [List.length_cons, ofWords, htake, hdrop, ih fun m hm => h m (List.mem_cons_of_mem _ hm),
      ofLe_toLe, Nat.mod_eq_of_lt (h n (List.mem_cons_self ..))]

/-- One word of an array. -/
theorem take_drop_toWords {w : Nat} {ns : List Nat} {i : Nat} (hi : i < ns.length) :
    ((toWords w ns).drop (w * i)).take w = toLe w (ns.getD i 0) := by
  induction ns generalizing i with
  | nil => exact absurd hi (Nat.not_lt_zero i)
  | cons n ns ih =>
    rw [toWords_cons]
    cases i with
    | zero =>
      rw [Nat.mul_zero, List.drop_zero, List.take_append_of_le_length (by simp)]
      exact List.take_of_length_le (by simp)
    | succ i =>
      have hdrop : w * (i + 1) = (toLe w n).length + w * i := by rw [toLe_length]; ring
      rw [hdrop, ← List.drop_drop, List.drop_left, ih (Nat.lt_of_succ_lt_succ hi)]
      rfl

end Wire
