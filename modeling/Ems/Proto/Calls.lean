import Ems.Server.Sessions
import Ems.Wire.Bytes

/-!
# Requests and replies on the wire

What the two ends of a session say to each other: the operation codes of
`common/constants.h`, the calls with their arguments, and both as bytes. Either end
has its own code for it (`Client/Api.lean`, `Handler.lean`); the byte strings here are what
a well-formed request and the reply to it are.

Mirroring notes:
- `int` and `unsigned int` are 4 bytes, `size_t` is 8, all little-endian.
- The two arrays of `ems_reserve` are always sent whole.
- The reply to `SHOW` and `LIST` is written by `ems_show` and `ems_list_events`
  themselves; the status follows it.
-/

namespace Ems.Proto

open Wire Server

/-- `MAX_RESERVATION_SIZE`. -/
def maxReservationSize : Nat := 256

/-- `OP_QUIT`. -/
def opQuit : UInt8 := 2

/-- `OP_CREATE`. -/
def opCreate : UInt8 := 3

/-- `OP_RESERVE`. -/
def opReserve : UInt8 := 4

/-- `OP_SHOW`. -/
def opShow : UInt8 := 5

/-- `OP_LIST`. -/
def opList : UInt8 := 6

/-- `size_t xs[MAX_RESERVATION_SIZE]`. -/
abbrev SeatArray := { seats : List UInt64 // seats.length = maxReservationSize }

/-- A call of one of the four operations. -/
inductive Call where
  | create (eventId : UInt32) (numRows numCols : UInt64)
  | reserve (eventId : UInt32) (numSeats : UInt64) (xs ys : SeatArray)
  | showEvent (eventId : UInt32)
  | listEvents
deriving DecidableEq, Repr

/-- The call as the server's store takes it. -/
def Call.op : Call → Op
  | .create eventId numRows numCols => .create eventId numRows numCols
  | .reserve eventId numSeats xs ys =>
    .reserve ⟨eventId, numSeats, fun i => xs.1.getD i 0, fun i => ys.1.getD i 0⟩
  | .showEvent eventId => .showEvent eventId
  | .listEvents => .listEvents

/-- What the server does for a call: its reply and the store after it. -/
def Call.exec (c : Call) (list : EventList) : Reply × EventList := c.op.exec list

/-! ## Words -/

/-- The bytes of an `unsigned int`. -/
def le4 (v : UInt32) : List UInt8 := toLe 4 v.toNat

/-- The bytes of a `size_t`. -/
def le8 (v : UInt64) : List UInt8 := toLe 8 v.toNat

/-- The bytes of the array. -/
def arrayBytes (a : SeatArray) : List UInt8 := toWords 8 (a.1.map UInt64.toNat)

/-- The `unsigned int` in 4 bytes. -/
def uint (bs : List UInt8) : UInt32 := UInt32.ofNat (ofLe bs)

/-- The `size_t` in 8 bytes. -/
def size (bs : List UInt8) : UInt64 := UInt64.ofNat (ofLe bs)

/-- As many values as were asked for. -/
theorem ofWords_length (w n : Nat) (bs : List UInt8) : (ofWords w n bs).length = n := by
  induction n generalizing bs with
  | zero => rfl
  | succ n ih => rw [ofWords, List.length_cons, ih]

/-- The array in 2048 bytes. -/
def seatArray (bs : List UInt8) : SeatArray :=
  ⟨(ofWords 8 maxReservationSize bs).map UInt64.ofNat, by rw [List.length_map, ofWords_length]⟩

/-- An `unsigned int` goes over a pipe in four bytes. -/
@[simp] theorem le4_length (v : UInt32) : (le4 v).length = 4 := toLe_length 4 _

/-- A `size_t` goes over a pipe in eight bytes. -/
@[simp] theorem le8_length (v : UInt64) : (le8 v).length = 8 := toLe_length 8 _

/-- `xs` and `ys` go over as a whole, used or not. -/
@[simp] theorem arrayBytes_length (a : SeatArray) : (arrayBytes a).length = 2048 := by
  unfold arrayBytes
  rw [toWords_length, List.length_map, a.2]
  rfl

/-- The receiver of an `unsigned int` reads what was sent. -/
@[simp] theorem uint_le4 (v : UInt32) : uint (le4 v) = v := by
  unfold uint le4
  rw [ofLe_toLe, Nat.mod_eq_of_lt (show v.toNat < 256 ^ 4 from v.toNat_lt)]
  exact UInt32.ofNat_toNat

/-- The receiver of a `size_t` reads what was sent. -/
@[simp] theorem size_le8 (v : UInt64) : size (le8 v) = v := by
  unfold size le8
  rw [ofLe_toLe, Nat.mod_eq_of_lt (show v.toNat < 256 ^ 8 from v.toNat_lt)]
  exact UInt64.ofNat_toNat

/-- The receiver of an array reads what was sent. -/
@[simp] theorem seatArray_arrayBytes (a : SeatArray) : seatArray (arrayBytes a) = a := by
  have hfit : ∀ n ∈ a.1.map UInt64.toNat, n < 256 ^ 8 := by
    intro n hn
    obtain ⟨v, -, rfl⟩ := List.mem_map.mp hn
    exact v.toNat_lt
  have hlen : (a.1.map UInt64.toNat).length = maxReservationSize := by rw [List.length_map, a.2]
  have hwords := ofWords_toWords hfit
  rw [hlen] at hwords
  have hid : UInt64.ofNat ∘ UInt64.toNat = id := funext fun v => UInt64.ofNat_toNat
  apply Subtype.ext
  show (ofWords 8 maxReservationSize (arrayBytes a)).map UInt64.ofNat = a.1
  unfold arrayBytes
  rw [hwords, List.map_map, hid, List.map_id]

/-! ## Messages -/

/-- The writes of a request, in order: the operation code and the arguments. -/
def Call.fields : Call → List (List UInt8)
  | .create eventId numRows numCols => [[opCreate], le4 eventId, le8 numRows ++ le8 numCols]
  | .reserve eventId numSeats xs ys =>
    [[opReserve], le4 eventId, le8 numSeats, arrayBytes xs, arrayBytes ys]
  | .showEvent eventId => [[opShow], le4 eventId]
  | .listEvents => [[opList]]

/-- The bytes of a request. -/
def Call.encode (c : Call) : List UInt8 := c.fields.flatten

/-- The value an operation returns. -/
def replyRet : Reply → UInt32
  | .status ret => ret
  | .matrix _ _ _ ret => ret
  | .listing _ _ ret => ret

/-- The writes of a reply, in order. -/
def replyWrites : Reply → List (List UInt8)
  | .status ret => [le4 ret]
  | .matrix rows cols cells ret => [le8 rows ++ le8 cols, cells, le4 ret]
  | .listing num ids ret => [le8 num] ++ ids.map le4 ++ [le4 ret]

/-- Where the last field of a request begins. -/
def Call.lastField (c : Call) : Nat := c.fields.dropLast.flatten.length

end Ems.Proto
