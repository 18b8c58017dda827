import Ems.Server.Queue
import Ems.Wire.Memory

/-!
# The names of a client's pipes

How a client's two pipe names reach the worker that will serve it: `ems_setup` copies
them into its request as strings, the request goes through the register pipe, and
`enqueue_connection` and `connect_clients` copy 40 bytes for each name. The queue hands
the node over as it is (`Pool.delivers_once`).

The request has room for two names of 40 bytes, each with its terminator, the first one's
being the first byte of the second name. The arrays of the server have no room for it: a
name of 40 bytes is not terminated there (`setup_names_iff`).

Mirroring notes:
- `node` and `stack` are the arrays before they are written, in the node that `malloc`
  gives and in the worker's frame.
- A failing `mkfifo` or `open` ends `ems_setup` without a request.
-/

namespace Ems.Proto

open Wire Server

/-- `MAX_PIPE_NAME_SIZE`. -/
def maxPipeNameSize : Nat := 40

/-- `SETUP_REQUEST_BUFSIZ`. -/
def setupRequestBufsiz : Nat := 82

/-- `OP_SETUP`. -/
def opSetup : UInt8 := 1

/-- Two arrays `char[MAX_PIPE_NAME_SIZE]`. -/
abbrev NameArrays :=
  { c : Connection // c.reqPipePath.length = maxPipeNameSize ∧
    c.respPipePath.length = maxPipeNameSize }

/-- What `ems_setup` writes to the register pipe. -/
def setupRequest (reqPipePath respPipePath : List UInt8) : Option (List UInt8) := do
  let requestBuff ← store (List.replicate setupRequestBufsiz 0) 0 [opSetup]
  let requestBuff ← strcpy requestBuff 1 reqPipePath
  strcpy requestBuff (1 * (maxPipeNameSize + 1)) respPipePath

/-- `setup_buffer` in `main` after `safe_read`. -/
def setupBuffer (frame : List UInt8) : Option (List UInt8) :=
  store (List.replicate setupRequestBufsiz 0) 0 frame

/-- The copies of `enqueue_connection`. -/
def enqueueNames (node : NameArrays) (setupBuffer : List UInt8) : Option Connection := do
  let reqPipePath ← memcpy node.1.reqPipePath setupBuffer 1 maxPipeNameSize
  let respPipePath ← memcpy node.1.respPipePath setupBuffer (1 + maxPipeNameSize) maxPipeNameSize
  pure ⟨reqPipePath, respPipePath⟩

/-- The copies of `connect_clients`. -/
def connectNames (stack : NameArrays) (connection : Connection) : Option Connection := do
  let reqPipePath ← memcpy stack.1.reqPipePath connection.reqPipePath 0 maxPipeNameSize
  let respPipePath ← memcpy stack.1.respPipePath connection.respPipePath 0 maxPipeNameSize
  pure ⟨reqPipePath, respPipePath⟩

/-- The arrays of the worker that serves a client with these names. -/
def setupNames (node stack : NameArrays) (reqPipePath respPipePath : List UInt8) :
    Option Connection := do
  let frame ← setupRequest reqPipePath respPipePath
  let buffer ← setupBuffer frame
  let connection ← enqueueNames node buffer
  connectNames stack connection

/-- A path that a client may use. -/
structure PipePath (path : List UInt8) : Prop where
  nonempty : path ≠ []
  nulFree : 0 ∉ path
  short : path.length ≤ maxPipeNameSize

/-- The request: the second name begins behind 40 bytes, whatever the first one is. -/
theorem setupRequest_eq {req resp : List UInt8} (hreq : req.length ≤ maxPipeNameSize)
    (hresp : resp.length ≤ maxPipeNameSize) :
    setupRequest req resp =
      some (opSetup :: (pad maxPipeNameSize req ++ pad (maxPipeNameSize + 1) resp)) := by
  have hfirst : strcpy ([opSetup] ++ List.replicate 81 0) 1 req = some ([opSetup] ++ pad 81 req) :=
    strcpy_zeros (show req.length < 81 from Nat.lt_of_le_of_lt hreq (by decide))
  have hpad : [opSetup] ++ pad 81 req =
      opSetup :: pad maxPipeNameSize req ++ List.replicate (maxPipeNameSize + 1) 0 := by
    have hsplit : 81 - req.length = (maxPipeNameSize - req.length) + (maxPipeNameSize + 1) := by
      unfold maxPipeNameSize at hreq ⊢
      omega
    unfold pad
    rw [hsplit, List.replicate_add]
    simp
  have hsecond : strcpy (opSetup :: pad maxPipeNameSize req ++
      List.replicate (maxPipeNameSize + 1) 0) (opSetup :: pad maxPipeNameSize req).length resp =
        some (opSetup :: pad maxPipeNameSize req ++ pad (maxPipeNameSize + 1) resp) :=
    strcpy_zeros (Nat.lt_succ_of_le hresp)
  rw [List.length_cons, pad_length hreq] at hsecond
  show (strcpy ([opSetup] ++ List.replicate 81 0) 1 req).bind _ = _
  rw [hfirst, hpad]
  exact hsecond

/-- What the worker has: both names, each with as many zeros as fit. -/
theorem setupNames_eq (node stack : NameArrays) {req resp : List UInt8}
    (hreq : req.length ≤ maxPipeNameSize) (hresp : resp.length ≤ maxPipeNameSize) :
    setupNames node stack req resp =
      some ⟨pad maxPipeNameSize req, pad maxPipeNameSize resp⟩ := by
  have hreqlen := pad_length hreq
  have hresplen := pad_length hresp
  have hlong := pad_length (Nat.le_succ_of_le hresp)
  have hlen : (opSetup :: (pad maxPipeNameSize req ++ pad (maxPipeNameSize + 1) resp)).length =
      setupRequestBufsiz := by
    rw [List.length_cons, List.length_append, hreqlen, hlong]
    rfl
  -- through the pipe
  have hbuffer : setupBuffer (opSetup :: (pad maxPipeNameSize req ++ pad (maxPipeNameSize + 1) resp)) =
      some (opSetup :: (pad maxPipeNameSize req ++ pad (maxPipeNameSize + 1) resp)) :=
    store_whole (by rw [hlen, List.length_replicate])
  -- into the node of the queue: the last zero of the response path is not copied
  have hnode : enqueueNames node
      (opSetup :: (pad maxPipeNameSize req ++ pad (maxPipeNameSize + 1) resp)) =
        some ⟨pad maxPipeNameSize req, pad maxPipeNameSize resp⟩ := by
    have hfirst := memcpy_whole 1 node.2.1 (by rw [hlen]; decide)
    have hsecond := memcpy_whole (1 + maxPipeNameSize) node.2.2 (by rw [hlen]; decide)
    rw [List.drop_succ_cons, List.drop_zero, List.take_left' hreqlen] at hfirst
    have hdrop : (opSetup :: (pad maxPipeNameSize req ++ pad (maxPipeNameSize + 1) resp)).drop
        (1 + maxPipeNameSize) = pad (maxPipeNameSize + 1) resp := by
      rw [Nat.add_comm, List.drop_succ_cons, List.drop_left' hreqlen]
    rw [hdrop, take_pad hresp (Nat.le_succ _)] at hsecond
    show (memcpy _ _ _ _).bind _ = _
    rw [hfirst, Option.bind_some]
    show (memcpy _ _ _ _).bind _ = _
    rw [hsecond]
    rfl
  -- and from there into the arrays of the worker
  have hworker : connectNames stack ⟨pad maxPipeNameSize req, pad maxPipeNameSize resp⟩ =
      some ⟨pad maxPipeNameSize req, pad maxPipeNameSize resp⟩ := by
    have hfirst := memcpy_whole 0 stack.2.1
      (show 0 + maxPipeNameSize ≤ (pad maxPipeNameSize req).length by omega)
    have hsecond := memcpy_whole 0 stack.2.2
      (show 0 + maxPipeNameSize ≤ (pad maxPipeNameSize resp).length by omega)
    rw [List.drop_zero, List.take_of_length_le (by omega)] at hfirst hsecond
    show (memcpy _ _ _ _).bind _ = _
    rw [hfirst, Option.bind_some]
    show (memcpy _ _ _ _).bind _ = _
    rw [hsecond]
    rfl
  unfold setupNames
  rw [setupRequest_eq hreq hresp]
  show (setupBuffer _).bind _ = _
  rw [hbuffer, Option.bind_some]
  show (enqueueNames _ _).bind _ = _
  rw [hnode]
  exact hworker

/-- **Exactly then** the worker has the client's two names, as strings in its own arrays. -/
theorem setup_names_iff {req resp : List UInt8} (node stack : NameArrays) (hreq : PipePath req)
    (hresp : PipePath resp) :
    (setupNames node stack req resp).map (fun c => (cString c.reqPipePath, cString c.respPipePath)) =
        some (some req, some resp) ↔
      req.length < maxPipeNameSize ∧ resp.length < maxPipeNameSize := by
  rw [setupNames_eq node stack hreq.short hresp.short, Option.map_some, cString_pad hreq.nulFree,
    cString_pad hresp.nulFree]
  by_cases h : req.length < maxPipeNameSize
  · by_cases h' : resp.length < maxPipeNameSize
    · simp [h, h']
    · simp [h, h']
  · simp [h]

/-- Arrays of zeros. -/
def NameArrays.zeros : NameArrays :=
  ⟨⟨List.replicate maxPipeNameSize 0, List.replicate maxPipeNameSize 0⟩, by simp⟩

/-- Two names that `mktemp` might have made. -/
theorem setup_names_iff_short :
    (setupNames .zeros .zeros [47, 114] [47, 115]).map
        (fun c => (cString c.reqPipePath, cString c.respPipePath)) =
      some (some [47, 114], some [47, 115]) :=
  (setup_names_iff .zeros .zeros ⟨by decide, by decide, by decide⟩
    ⟨by decide, by decide, by decide⟩).mpr (by decide)

/-- A name of 40 bytes is allowed, and the worker has no string for it. -/
theorem setup_names_long :
    PipePath (List.replicate 40 47) ∧ PipePath [47] ∧
    (setupNames .zeros .zeros (List.replicate 40 47) [47]).map
        (fun c => (cString c.reqPipePath, cString c.respPipePath)) = some (none, some [47]) ∧
    (setupNames .zeros .zeros [47] (List.replicate 40 47)).map
        (fun c => (cString c.reqPipePath, cString c.respPipePath)) = some (some [47], none) :=
  ⟨⟨by decide, by decide, by decide⟩, ⟨by decide, by decide, by decide⟩, by decide, by decide⟩

end Ems.Proto
