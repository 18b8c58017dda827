import Ems.Base.Files
import Ems.Proto.Setup

/-!
# A client that cannot be set up

`ems_setup` of the client makes two pipes and connects to the server; at every step it
may fail, and `main` then calls `close_pipes`, which unlinks the two names. It does not
know which of them were made. A name that could not be made because it existed is
unlinked too, and it may be another client's pipe (`leaves_files_iff`).

Mirroring notes:
- `faults` are the failures that do not come from the file system: the steps of
  `ems_setup` in their order.
- Nobody else changes the file system. The descriptors have no part in it, so opening,
  closing and what goes through the pipes is left out.
-/

namespace Ems.Proto.Cleanup

open Base Wire

/-- The paths that exist. -/
abbrev Files := Base.Files (List UInt8)

/-- The names in `static ConnectionPipes_t pipes`. -/
structure ConnectionPipes where
  reqPipe : List UInt8
  respPipe : List UInt8
  reqSize : reqPipe.length = maxPipeNameSize
  respSize : respPipe.length = maxPipeNameSize

/-- A path with room for its terminator. -/
abbrev PipeName := { path : List UInt8 // 0 ∉ path ∧ path.length < maxPipeNameSize }

/-- Which system calls of `ems_setup` fail. -/
structure Faults where
  mkfifoReq : Bool
  mkfifoResp : Bool
  openServer : Bool
  writeServer : Bool
  openResp : Bool
  readSession : Bool
  openReq : Bool
deriving DecidableEq, Repr

/-- The arrays after the two `strncpy`s of `ems_setup`. -/
def copyNames (pipes : ConnectionPipes) (reqPipePath respPipePath : List UInt8) :
    Option (List UInt8 × List UInt8) := do
  let reqPipe ← strncpy pipes.reqPipe reqPipePath maxPipeNameSize
  let respPipe ← strncpy pipes.respPipe respPipePath maxPipeNameSize
  pure (reqPipe, respPipe)

/-- The system calls of `ems_setup`: the file system and the value it returns. -/
def makePipes (faults : Faults) (files : Files) (reqPipePath respPipePath : List UInt8) :
    Files × UInt32 :=
  let (files, made) := files.mkfifo faults.mkfifoReq reqPipePath
  if !made then (files, 1)
  else
    let (files, made) := files.mkfifo faults.mkfifoResp respPipePath
    if !made then (files, 1)
    else if faults.openServer then (files, 1)
    else if faults.writeServer then (files, 1)
    else if faults.openResp then (files, 1)
    else if faults.readSession then (files, 1)
    else if faults.openReq then (files, 1)
    else (files, 0)

/-- `close_pipes`. -/
def closePipes (reqPipe respPipe : List UInt8) (files : Files) : Option (Files × UInt32) := do
  let reqPipePath ← cString reqPipe
  let (files, unlinked) := files.unlink reqPipePath
  if !unlinked then pure (files, 1)
  else
    let respPipePath ← cString respPipe
    let (files, unlinked) := files.unlink respPipePath
    if !unlinked then pure (files, 1) else pure (files, 0)

/-- `main` up to the end of its first failure branch: the file system, and what
`ems_setup` has returned. -/
def setUp (faults : Faults) (pipes : ConnectionPipes) (files : Files)
    (reqPipePath respPipePath : List UInt8) : Option (Files × UInt32) := do
  let _ ← setupRequest reqPipePath respPipePath
  let (reqPipe, respPipe) ← copyNames pipes reqPipePath respPipePath
  let (files, ret) := makePipes faults files reqPipePath respPipePath
  if ret ≠ 0 then
    let (files, _) ← closePipes reqPipe respPipe files
    pure (files, ret)
  else pure (files, ret)

/-- A set-up that fails has changed nothing when `close_pipes` is through. -/
def LeavesFiles (faults : Faults) (pipes : ConnectionPipes) (files : Files)
    (reqPipePath respPipePath : List UInt8) : Prop :=
  ∃ files' ret, setUp faults pipes files reqPipePath respPipePath = some (files', ret) ∧
    (ret ≠ 0 → files' = files)

/-! ## The failure branch -/

section Branch

variable {faults : Faults} {files : Files} {req resp : PipeName}

/-- The file system after `close_pipes`. -/
def closed (files : Files) (req resp : List UInt8) : Files :=
  if (files.unlink req).2 then ((files.unlink req).1.unlink resp).1 else (files.unlink req).1

/-- The arrays hold the two names. -/
theorem closePipes_eq (files : Files) (req resp : PipeName) :
    (closePipes (pad maxPipeNameSize req.1) (pad maxPipeNameSize resp.1) files).map Prod.fst =
      some (closed files req.1 resp.1) := by
  have hreq : cString (pad maxPipeNameSize req.1) = some req.1 := by
    rw [cString_pad req.2.1, if_pos req.2.2]
  have hresp : cString (pad maxPipeNameSize resp.1) = some resp.1 := by
    rw [cString_pad resp.2.1, if_pos resp.2.2]
  unfold closePipes closed
  rw [hreq, hresp]
  simp only [Option.bind_eq_bind, Option.bind_some]
  generalize files.unlink req.1 = first
  obtain ⟨files, unlinked⟩ := first
  cases unlinked with
  | false => rfl
  | true =>
    dsimp only
    generalize files.unlink resp.1 = second
    obtain ⟨files, unlinked⟩ := second
    cases unlinked <;> rfl

/-- What `main` does is decided by the system calls alone. -/
theorem leavesFiles_iff (faults : Faults) (pipes : ConnectionPipes) (files : Files)
    (req resp : PipeName) : LeavesFiles faults pipes files req.1 resp.1 ↔
      ((makePipes faults files req.1 resp.1).2 ≠ 0 →
        closed (makePipes faults files req.1 resp.1).1 req.1 resp.1 = files) := by
  have hcopy : copyNames pipes req.1 resp.1 =
      some (pad maxPipeNameSize req.1, pad maxPipeNameSize resp.1) := by
    unfold copyNames
    rw [strncpy_whole pipes.reqSize (Nat.le_of_lt req.2.2),
      strncpy_whole pipes.respSize (Nat.le_of_lt resp.2.2)]
    rfl
  have hclose := closePipes_eq (makePipes faults files req.1 resp.1).1 req resp
  unfold LeavesFiles setUp
  rw [setupRequest_eq (Nat.le_of_lt req.2.2) (Nat.le_of_lt resp.2.2), hcopy]
  generalize makePipes faults files req.1 resp.1 = made at hclose ⊢
  obtain ⟨files', ret⟩ := made
  obtain ⟨⟨files'', ret'⟩, hclosed, hfiles⟩ := Option.map_eq_some_iff.mp hclose
  dsimp only at hfiles ⊢
  subst hfiles
  by_cases hret : ret = 0
  · simp [hret]
  · simp [hret, hclosed]

/-- The names are two, so a pipe that was made is not in the way of the other one. -/
theorem update_req {files : Files} (hne : req.1 ≠ resp.1) (b : Bool) :
    Function.update files req.1 b resp.1 = files resp.1 :=
  Function.update_of_ne (Ne.symm hne) ..

/-- `ems_setup` has made no pipe, the first one, or both. -/
theorem makePipes_cases (faults : Faults) (files : Files) (hne : req.1 ≠ resp.1) :
    (makePipes faults files req.1 resp.1 = (files, 1) ∧
      (files req.1 = false → faults.mkfifoReq = true)) ∨
    (makePipes faults files req.1 resp.1 = (Function.update files req.1 true, 1) ∧
      files req.1 = false ∧ faults.mkfifoReq = false ∧
      (files resp.1 = false → faults.mkfifoResp = true)) ∨
    (∃ ret, makePipes faults files req.1 resp.1 =
        (Function.update (Function.update files req.1 true) resp.1 true, ret) ∧
      files req.1 = false ∧ files resp.1 = false) := by
  have hkeep := @update_req req resp files hne true
  unfold makePipes
  cases hreq : files req.1 with
  -- the request path exists, so the first `mkfifo` fails
  | true =>
    left
    rw [Files.mkfifo_present _ hreq]
    exact ⟨rfl, nofun⟩
  | false =>
    cases faults.mkfifoReq with
    | true =>
      left
      rw [Files.mkfifo_fault]
      exact ⟨rfl, fun _ => rfl⟩
    | false =>
      right
      rw [Files.mkfifo_absent hreq]
      dsimp only
      cases hresp : files resp.1 with
      | true =>
        left
        rw [Files.mkfifo_present _ (hkeep.trans hresp)]
        exact ⟨rfl, rfl, rfl, nofun⟩
      | false =>
        cases faults.mkfifoResp with
        | true =>
          left
          rw [Files.mkfifo_fault]
          exact ⟨rfl, rfl, rfl, fun _ => rfl⟩
        | false =>
          right
          rw [Files.mkfifo_absent (hkeep.trans hresp)]
          rw [if_neg (by decide)]
          refine ⟨_, Prod.ext ?_ rfl, rfl, rfl⟩
          split_ifs <;> rfl

/-- Both pipes are unlinked. -/
theorem closed_both (hne : req.1 ≠ resp.1) (hreq : files req.1 = false)
    (hresp : files resp.1 = false) :
    closed (Function.update (Function.update files req.1 true) resp.1 true) req.1 resp.1 =
      files := by
  have hother : Function.update files resp.1 true req.1 = false := by
    rw [Function.update_of_ne hne]
    exact hreq
  unfold closed
  rw [Function.update_comm hne, Files.unlink_made hother, if_pos rfl, Files.unlink_made hresp]

/-- The first one is unlinked, and the second name too if it exists. -/
theorem closed_first (hreq : files req.1 = false) :
    closed (Function.update files req.1 true) req.1 resp.1 = (files.unlink resp.1).1 := by
  unfold closed
  rw [Files.unlink_made hreq, if_pos rfl]

/-- Where no pipe was made, a request pipe that exists is gone afterwards. -/
theorem closed_none (hne : req.1 ≠ resp.1) :
    closed files req.1 resp.1 = files ↔ files req.1 = false := by
  unfold closed
  cases hreq : files req.1 with
  | true =>
    rw [Files.unlink_present hreq, if_pos rfl]
    apply iff_of_false
    -- the pipe of somebody else is unlinked
    · intro h
      have hgone := congrFun h req.1
      dsimp only at hgone
      rw [Files.unlink_of_ne hne, Function.update_self, hreq] at hgone
      cases hgone
    · exact Bool.noConfusion
  | false =>
    rw [Files.unlink_absent hreq, if_neg Bool.false_ne_true]
    exact iff_of_true rfl rfl

end Branch

/-- **A failed set-up leaves the file system as it was** exactly when the request path did
not exist, and the response path neither unless `mkfifo` fails on the request path. -/
theorem leaves_files_iff (faults : Faults) (pipes : ConnectionPipes) (files : Files)
    {req resp : PipeName} (hne : req.1 ≠ resp.1) :
    LeavesFiles faults pipes files req.1 resp.1 ↔
      files req.1 = false ∧ (files resp.1 = false ∨ faults.mkfifoReq = true) := by
  rw [leavesFiles_iff]
  rcases makePipes_cases faults files hne with ⟨hmade, hfault⟩ | ⟨hmade, hreq, hfault, -⟩ |
    ⟨ret, hmade, hreq, hresp⟩
  · rw [hmade, closed_none hne]
    constructor
    · intro h
      have hreq := h (show (1 : UInt32) ≠ 0 by decide)
      exact ⟨hreq, Or.inr (hfault hreq)⟩
    · exact fun h _ => h.1
  · rw [hmade, closed_first hreq, Files.unlink_eq_self, hreq, hfault]
    simp
  · rw [hmade, closed_both hne hreq hresp]
    exact iff_of_true (fun _ => rfl) ⟨hreq, Or.inl hresp⟩

/-- The arrays as they are before `main`. -/
def ConnectionPipes.zeros : ConnectionPipes :=
  ⟨List.replicate maxPipeNameSize 0, List.replicate maxPipeNameSize 0, rfl, rfl⟩

/-- Nothing fails. -/
def Faults.none : Faults := ⟨false, false, false, false, false, false, false⟩

/-- The server's pipe cannot be opened, and both pipes were made. -/
theorem leaves_files_unopened : LeavesFiles { Faults.none with openServer := true } .zeros
    (fun path => path == [47]) [47, 97] [47, 98] :=
  (@leaves_files_iff { Faults.none with openServer := true } .zeros (fun path => path == [47])
    ⟨[47, 97], by decide, by decide⟩ ⟨[47, 98], by decide, by decide⟩ (by decide)).mpr (by decide)

/-- Another client has a pipe at the request path. It is unlinked. -/
theorem other_pipe_unlinked : ¬ LeavesFiles .none .zeros (fun path => path == [47, 97])
    [47, 97] [47, 98] := by
  intro ⟨files, ret, hrun, hsame⟩
  have hgone : (setUp .none .zeros (fun path => path == [47, 97]) [47, 97] [47, 98]).map
      (fun r => (r.1 [47, 97], r.2)) = some (false, 1) := by decide
  rw [hrun, Option.map_some, Option.some.injEq, Prod.mk.injEq] at hgone
  obtain ⟨hpath, hret⟩ := hgone
  dsimp only at hpath hret
  rw [hsame (by rw [hret]; decide)] at hpath
  cases hpath

end Ems.Proto.Cleanup
