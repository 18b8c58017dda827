import Ems.Conc.Part
import Ems.Proto.Seats
import Ems.Proto.Setup
import Ems.Server.Delivery
import Ems.Server.Register

/-!
# The whole of the second part

The clients, the main thread and the workers. A client writes its request to the register
pipe (`ems_setup`), the main thread reads it there and enqueues it, a worker takes it, and
the two meet: the worker opens the client's response pipe for writing, sends the number of
its session and opens the request pipe for reading, the client does the same from the other
side. Then the client works its job file off.

All of it but the meeting is modelled elsewhere, and the machine here is made of those
machines: the registration loop (`Register.machine`), the pool (`Pool.machine`) and the
sessions (`Link.Clients.machine`) are parts of it (`register_part`, `pool_part`,
`clients_part`).

Mirroring notes:
- The main thread is in its loop only while it is not in `enqueue_connection` or on the way
  out. `ems_sigusr1_action` is one step of it, `Register.Pc.action`.
- A FIFO is opened when somebody opens, or has opened, its other end; the call that comes
  first waits in `open`. The `mkfifo`s of a client come before its request.
- Before the session begins the response pipe holds what there is of the session's number,
  and `handle_requests` writes nothing before it is asked: `transit` is what is in it
  meanwhile.
- `open`, `read` and `write` do not fail, and no signal comes to a worker or a client.
- `node` and `stack` are the arrays of `Setup.lean` before they are written.
-/

namespace Ems.Service

open Conc Proto Server

/-- The names a client makes its pipes with. -/
structure PipeNames where
  req : List UInt8
  resp : List UInt8
deriving DecidableEq

/-- Where a client is in `ems_setup`. -/
inductive Setup where
  /-- before the request is written -/
  | outside
  /-- before `open(resp_pipe_path, O_RDONLY)` -/
  | openResp
  /-- in it -/
  | inResp
  | readId (got : List UInt8)
  /-- before `open(req_pipe_path, O_WRONLY)` -/
  | openReq (sessionId : UInt32)
  /-- in it -/
  | inReq (sessionId : UInt32)
  /-- it has returned -/
  | connected (sessionId : UInt32)
deriving DecidableEq

/-- What a worker does with the connection it has. -/
inductive Desk where
  /-- before `open(resp_pipe_path, O_WRONLY)` -/
  | openResp
  /-- in it -/
  | inResp
  | writeId (left : List UInt8)
  /-- before `open(req_pipe_path, O_RDONLY)` -/
  | openReq
  /-- in it -/
  | inReq
  /-- in `handle_requests` -/
  | requests
  | closed
deriving DecidableEq

/-- The client opens its response pipe, or has opened it. -/
def Setup.respOpened : Setup → Bool
  | .outside => false
  | .openResp => false
  | _ => true

def Setup.reqOpened : Setup → Bool
  | .inReq _ => true
  | .connected _ => true
  | _ => false

def Setup.isConnected : Setup → Bool
  | .connected _ => true
  | _ => false

/-- The worker opens the response pipe, or has opened it. -/
def Desk.respOpened : Desk → Bool
  | .openResp => false
  | _ => true

def Desk.reqOpened : Desk → Bool
  | .inReq => true
  | .requests => true
  | .closed => true
  | _ => false

structure State (n : Nat) (T : Type) where
  register : Register.State
  pool : Pool.State n
  setup : T → Setup
  transit : T → List UInt8
  desk : Fin n → Desk
  clients : Link.Clients T

inductive Act (n : Nat) (T : Type) where
  /-- a client writes its request -/
  | register (t : T)
  /-- a signal, or a step of the main thread in its loop -/
  | loop (a : Register.Act)
  /-- the main thread calls `enqueue_connection` -/
  | enqueue (node : NameArrays)
  /-- the main thread leaves its loop -/
  | leave
  | pool (a : Pool.Act n)
  /-- a step of `ems_setup`; where it reads, of `k` bytes -/
  | setup (t : T) (k : Nat)
  /-- a step of the worker with its client -/
  | desk (w : Fin n) (t : T) (k : Nat)
  | session (t : T) (a : Link.Act)

/-- The names of the pipes, the memory nobody has written, the clients' programs and the
store at the beginning. -/
structure Setting (n : Nat) (T : Type) where
  names : T → PipeNames
  stack : Fin n → NameArrays
  stale : T → Nat → UInt8
  program : T → Client.Program UInt32
  list : EventList

variable {n : Nat} {T : Type} [DecidableEq T]

def State.init (x : Setting n T) : State n T :=
  ⟨Register.machine.init, (Pool.machine n).init, fun _ => .outside, fun _ => [],
    fun _ => .openResp, (Link.Clients.machine x.stale x.program x.list).init⟩

/-- The request that `ems_setup` writes. -/
def request (x : PipeNames) : Option Register.Frame :=
  (setupRequest x.req x.resp).bind fun frame =>
    if h : frame.length = setupRequestBufsiz then some ⟨frame, h⟩ else none

/-- The paths a worker opens. -/
def paths (stack : NameArrays) (connection : Connection) :
    Option (Option (List UInt8) × Option (List UInt8)) :=
  (connectNames stack connection).map fun c =>
    (Wire.cString c.reqPipePath, Wire.cString c.respPipePath)

/-- The worker is behind the copies of the names, and they are those of the client. -/
def State.Serves (x : Setting n T) (s : State n T) (w : Fin n) (t : T) : Prop :=
  match s.pool.worker w with
  | .serving c => paths (x.stack w) c = some (some (x.names t).req, some (x.names t).resp)
  | _ => False

instance (x : Setting n T) (s : State n T) (w : Fin n) (t : T) : Decidable (s.Serves x w t) := by
  unfold State.Serves
  cases s.pool.worker w with
  | serving c => exact inferInstance
  | _ => exact isFalse id

/-- `session_id`. -/
def sessionId (w : Fin n) : UInt32 := UInt32.ofNat w

/-- One step of `ems_setup` behind the request. -/
def advanceSetup (x : Setting n T) (s : State n T) (t : T) (k : Nat) :
    Option (Setup × List UInt8) :=
  match s.setup t with
  | .outside => none
  | .openResp => some (.inResp, s.transit t)
  | .inResp =>
    if ∃ w, s.Serves x w t ∧ (s.desk w).respOpened = true then some (.readId [], s.transit t)
    else none
  | .readId got =>
    if 0 < k ∧ k ≤ 4 - got.length ∧ k ≤ (s.transit t).length then
      let got := got ++ (s.transit t).take k
      some (if got.length = 4 then .openReq (uint got) else .readId got, (s.transit t).drop k)
    else none
  | .openReq id => some (.inReq id, s.transit t)
  | .inReq id =>
    if ∃ w, s.Serves x w t ∧ (s.desk w).reqOpened = true then some (.connected id, s.transit t)
    else none
  | .connected _ => none

/-- One step of a worker with its client. -/
def advanceDesk (s : State n T) (w : Fin n) (t : T) (k : Nat) : Option (Desk × List UInt8) :=
  match s.desk w with
  | .openResp => some (.inResp, s.transit t)
  | .inResp =>
    if (s.setup t).respOpened = true then some (.writeId (le4 (sessionId w)), s.transit t)
    else none
  | .writeId left =>
    if 0 < k ∧ k ≤ left.length then
      some (if k = left.length then .openReq else .writeId (left.drop k),
        s.transit t ++ left.take k)
    else none
  | .openReq => some (.inReq, s.transit t)
  | .inReq => if (s.setup t).reqOpened = true then some (.requests, s.transit t) else none
  | .requests =>
    match (s.clients.side t).server with
    | .done _ => some (.closed, s.transit t)
    | _ => none
  | .closed => none

/-- The worker has a client. -/
def isServing : Pool.WorkerPc → Bool
  | .serving _ => true
  | _ => false

/-- The next step of the loop is `enqueue_connection`. -/
def isEnqueue : Register.Pc → Bool
  | .enqueue _ => true
  | _ => false

/-- The steps of the loop that do not leave it and enqueue nothing. -/
def State.Loops (s : State n T) : Register.Act → Prop
  | .write _ => False
  | .sigusr1 _ => True
  | .sigint _ => True
  | .read _ => s.pool.main = .listen
  | .main => s.pool.main = .listen ∧ isEnqueue s.register.main = false

/-- A worker leaves its client when the session is over. -/
def State.Turns (s : State n T) : Pool.Act n → Prop
  | .connect _ => False
  | .shutdown => False
  | .worker w => isServing (s.pool.worker w) = true → s.desk w = .closed
  | _ => True

/-- Both ends of the pipes are where the step of the session takes place. -/
def State.Talks (x : Setting n T) (s : State n T) (t : T) : Link.Act → Prop
  | .client _ => (s.setup t).isConnected = true
  | .act => (s.setup t).isConnected = true
  | .other _ => False
  | _ => ∃ w, s.Serves x w t ∧ s.desk w = .requests

instance (s : State n T) (a : Register.Act) : Decidable (s.Loops a) := by
  cases a <;> unfold State.Loops <;> exact inferInstance

instance (s : State n T) (a : Pool.Act n) : Decidable (s.Turns a) := by
  cases a <;> unfold State.Turns <;> exact inferInstance

instance (x : Setting n T) (s : State n T) (t : T) (a : Link.Act) : Decidable (s.Talks x t a) :=
  match a with
  | .client _ => inferInstanceAs (Decidable ((s.setup t).isConnected = true))
  | .act => inferInstanceAs (Decidable ((s.setup t).isConnected = true))
  | .other _ => inferInstanceAs (Decidable False)
  | .server _ => inferInstanceAs (Decidable (∃ w, s.Serves x w t ∧ s.desk w = .requests))
  | .serve => inferInstanceAs (Decidable (∃ w, s.Serves x w t ∧ s.desk w = .requests))

/-- A worker that comes to another connection begins anew. -/
def State.reset (s : State n T) : Pool.Act n → Fin n → Desk
  | .worker w => Function.update s.desk w .openResp
  | _ => s.desk

def step (x : Setting n T) (s : State n T) : Act n T → Option (State n T)
  | .register t =>
    if s.setup t = .outside then
      (request (x.names t)).bind fun frame =>
        (Register.step s.register (.write frame)).map fun r =>
          { s with register := r, setup := Function.update s.setup t .openResp }
    else none
  | .loop a =>
    if s.Loops a then (Register.step s.register a).map fun r => { s with register := r } else none
  | .enqueue node =>
    match s.register.main with
    | .enqueue setupBuffer =>
      (enqueueNames node setupBuffer).bind fun c =>
        (Pool.step s.pool (.connect c)).bind fun q =>
          (Register.step s.register .main).map fun r => { s with register := r, pool := q }
    | _ => none
  | .leave =>
    if s.register.main = .stopped then
      (Pool.step s.pool .shutdown).map fun q => { s with pool := q }
    else none
  | .pool a =>
    if s.Turns a then
      (Pool.step s.pool a).map fun q => { s with pool := q, desk := s.reset a }
    else none
  | .setup t k =>
    (advanceSetup x s t k).map fun (u, bytes) =>
      { s with setup := Function.update s.setup t u, transit := Function.update s.transit t bytes }
  | .desk w t k =>
    if s.Serves x w t then
      (advanceDesk s w t k).map fun (d, bytes) =>
        { s with desk := Function.update s.desk w d, transit := Function.update s.transit t bytes }
    else none
  | .session t a =>
    if s.Talks x t a then
      (Link.Clients.step x.stale s.clients (t, a)).map fun c => { s with clients := c }
    else none

/-- Clients that have not registered yet, and the server behind its initialisation. -/
def machine (x : Setting n T) : Machine (State n T) (Act n T) := ⟨State.init x, step x⟩

/-! ## What one step can do -/

/-- The steps of `ems_setup`: where the client comes to, and what is left in the pipe. -/
inductive SetupStep (x : Setting n T) (s : State n T) (t : T) : Setup → List UInt8 → Prop where
  | openResp (h : s.setup t = .openResp) : SetupStep x s t .inResp (s.transit t)
  | respOpen {w} (h : s.setup t = .inResp) (hw : s.Serves x w t)
      (hd : (s.desk w).respOpened = true) : SetupStep x s t (.readId []) (s.transit t)
  | readPart {got k} (h : s.setup t = .readId got) (hpos : 0 < k) (hk : k ≤ (s.transit t).length)
      (hlen : (got ++ (s.transit t).take k).length < 4) :
      SetupStep x s t (.readId (got ++ (s.transit t).take k)) ((s.transit t).drop k)
  | readLast {got k} (h : s.setup t = .readId got) (hpos : 0 < k) (hk : k ≤ (s.transit t).length)
      (hlen : (got ++ (s.transit t).take k).length = 4) :
      SetupStep x s t (.openReq (uint (got ++ (s.transit t).take k))) ((s.transit t).drop k)
  | openReq {id} (h : s.setup t = .openReq id) : SetupStep x s t (.inReq id) (s.transit t)
  | reqOpen {id w} (h : s.setup t = .inReq id) (hw : s.Serves x w t)
      (hd : (s.desk w).reqOpened = true) : SetupStep x s t (.connected id) (s.transit t)

/-- The steps of a worker with its client. -/
inductive DeskStep (s : State n T) (w : Fin n) (t : T) : Desk → List UInt8 → Prop where
  | openResp (h : s.desk w = .openResp) : DeskStep s w t .inResp (s.transit t)
  | respOpen (h : s.desk w = .inResp) (hu : (s.setup t).respOpened = true) :
      DeskStep s w t (.writeId (le4 (sessionId w))) (s.transit t)
  | writePart {left k} (h : s.desk w = .writeId left) (hpos : 0 < k) (hk : k < left.length) :
      DeskStep s w t (.writeId (left.drop k)) (s.transit t ++ left.take k)
  | writeLast {left} (h : s.desk w = .writeId left) (hpos : 0 < left.length) :
      DeskStep s w t .openReq (s.transit t ++ left)
  | openReq (h : s.desk w = .openReq) : DeskStep s w t .inReq (s.transit t)
  | reqOpen (h : s.desk w = .inReq) (hu : (s.setup t).reqOpened = true) :
      DeskStep s w t .requests (s.transit t)
  | close {status} (h : s.desk w = .requests)
      (hs : (s.clients.side t).server = .done status) : DeskStep s w t .closed (s.transit t)

inductive Step (x : Setting n T) : State n T → Act n T → State n T → Prop where
  | register {s t frame} (h : s.setup t = .outside) (hf : request (x.names t) = some frame) :
      Step x s (.register t) { s with
        register := { s.register with pipe := s.register.pipe ++ frame.1 }
        setup := Function.update s.setup t .openResp }
  | loop {s a r} (hl : s.Loops a) (h : Register.step s.register a = some r) :
      Step x s (.loop a) { s with register := r }
  | enqueue {s node setupBuffer c q} (h : s.register.main = .enqueue setupBuffer)
      (hc : enqueueNames node setupBuffer = some c) (hq : Pool.step s.pool (.connect c) = some q) :
      Step x s (.enqueue node)
        { s with register := { s.register with main := .head }, pool := q }
  | leave {s q} (h : s.register.main = .stopped) (hq : Pool.step s.pool .shutdown = some q) :
      Step x s .leave { s with pool := q }
  | pool {s a q} (ht : s.Turns a) (h : Pool.step s.pool a = some q) :
      Step x s (.pool a) { s with pool := q, desk := s.reset a }
  | setup {s t k u bytes} (h : SetupStep x s t u bytes) :
      Step x s (.setup t k) { s with
        setup := Function.update s.setup t u
        transit := Function.update s.transit t bytes }
  | desk {s w t k d bytes} (hw : s.Serves x w t) (h : DeskStep s w t d bytes) :
      Step x s (.desk w t k) { s with
        desk := Function.update s.desk w d
        transit := Function.update s.transit t bytes }
  | session {s t a c} (ht : s.Talks x t a)
      (h : Link.Clients.step x.stale s.clients (t, a) = some c) :
      Step x s (.session t a) { s with clients := c }

omit [DecidableEq T] in
/-- The steps of a client in `ems_setup`. -/
theorem advanceSetup_cases {x : Setting n T} {s : State n T} {t : T} {k : Nat} {u : Setup}
    {bytes : List UInt8} (h : advanceSetup x s t k = some (u, bytes)) :
    SetupStep x s t u bytes := by
  unfold advanceSetup at h
  split at h
  next => cases h
  next hu => cases h; exact .openResp hu
  next hu =>
    split at h
    next hw =>
      obtain ⟨w, hw, hd⟩ := hw
      cases h
      exact .respOpen hu hw hd
    next => cases h
  next got hu =>
    split at h
    next hk =>
      obtain ⟨hpos, hroom, hk⟩ := hk
      cases h
      have hlen : (got ++ (s.transit t).take k).length = got.length + k := by
        rw [List.length_append, List.length_take, Nat.min_eq_left hk]
      by_cases hfull : (got ++ (s.transit t).take k).length = 4
      · rw [if_pos hfull]
        exact .readLast hu hpos hk hfull
      · rw [if_neg hfull]
        exact .readPart hu hpos hk (by omega)
    next => cases h
  next hu => cases h; exact .openReq hu
  next hu =>
    split at h
    next hw =>
      obtain ⟨w, hw, hd⟩ := hw
      cases h
      exact .reqOpen hu hw hd
    next => cases h
  next => cases h

omit [DecidableEq T] in
/-- The steps of a worker in `connect_clients`. -/
theorem advanceDesk_cases {s : State n T} {w : Fin n} {t : T} {k : Nat} {d : Desk}
    {bytes : List UInt8} (h : advanceDesk s w t k = some (d, bytes)) : DeskStep s w t d bytes := by
  unfold advanceDesk at h
  split at h
  next hd => cases h; exact .openResp hd
  next hd =>
    split at h
    next hu => cases h; exact .respOpen hd hu
    next => cases h
  next left hd =>
    split at h
    next hk =>
      obtain ⟨hpos, hk⟩ := hk
      cases h
      by_cases hfull : k = left.length
      · subst hfull
        rw [if_pos rfl, List.take_length]
        exact .writeLast hd hpos
      · rw [if_neg hfull]
        exact .writePart hd hpos (by omega)
    next => cases h
  next hd => cases h; exact .openReq hd
  next hd =>
    split at h
    next hu => cases h; exact .reqOpen hd hu
    next => cases h
  next hd =>
    split at h
    next hs => cases h; exact .close hd hs
    next => cases h
  next => cases h

/-- The steps of the whole service. -/
theorem step_cases {x : Setting n T} {s s' : State n T} {a : Act n T} (h : step x s a = some s') :
    Step x s a s' := by
  cases a with
  | register t =>
    simp only [step] at h
    split at h
    next hu =>
      obtain ⟨frame, hf, hr⟩ := Option.bind_eq_some_iff.mp h
      cases hr
      exact .register hu hf
    next => cases h
  | loop a =>
    simp only [step] at h
    split at h
    next hl =>
      obtain ⟨r, hr, rfl⟩ := Option.map_eq_some_iff.mp h
      exact .loop hl hr
    next => cases h
  | enqueue node =>
    simp only [step] at h
    split at h
    next setupBuffer hm =>
      obtain ⟨c, hc, h⟩ := Option.bind_eq_some_iff.mp h
      obtain ⟨q, hq, h⟩ := Option.bind_eq_some_iff.mp h
      obtain ⟨r, hr, rfl⟩ := Option.map_eq_some_iff.mp h
      simp only [Register.step, Register.advance, hm] at hr
      cases hr
      exact .enqueue hm hc hq
    next => cases h
  | leave =>
    simp only [step] at h
    split at h
    next hm =>
      obtain ⟨q, hq, rfl⟩ := Option.map_eq_some_iff.mp h
      exact .leave hm hq
    next => cases h
  | pool a =>
    simp only [step] at h
    split at h
    next ht =>
      obtain ⟨q, hq, rfl⟩ := Option.map_eq_some_iff.mp h
      exact .pool ht hq
    next => cases h
  | setup t k =>
    obtain ⟨⟨u, bytes⟩, hu, rfl⟩ := Option.map_eq_some_iff.mp h
    exact .setup (advanceSetup_cases hu)
  | desk w t k =>
    simp only [step] at h
    split at h
    next hw =>
      obtain ⟨⟨d, bytes⟩, hd, rfl⟩ := Option.map_eq_some_iff.mp h
      exact .desk hw (advanceDesk_cases hd)
    next => cases h
  | session t a =>
    simp only [step] at h
    split at h
    next ht =>
      obtain ⟨c, hc, rfl⟩ := Option.map_eq_some_iff.mp h
      exact .session ht hc
    next => cases h

/-! ## The parts -/

/-- What a step is in the registration loop. -/
def loopAct (x : Setting n T) (_ : State n T) : Act n T → Option Register.Act
  | .register t => (request (x.names t)).map .write
  | .loop a => some a
  | .enqueue _ => some .main
  | _ => none

/-- What a step is in the pool. -/
def poolAct (s : State n T) : Act n T → Option (Pool.Act n)
  | .enqueue node =>
    match s.register.main with
    | .enqueue setupBuffer => (enqueueNames node setupBuffer).map .connect
    | _ => none
  | .leave => some .shutdown
  | .pool a => some a
  | _ => none

/-- What a step is among the clients and their sessions. -/
def clientsAct (_ : State n T) : Act n T → Option (T × Link.Act)
  | .session t a => some (t, a)
  | _ => none

/-- Of a run of the service, the steps of the loop in `main` are a run of the loop. -/
theorem register_part (x : Setting n T) :
    Machine.Part (machine x) Register.machine State.register (loopAct x) := by
  refine ⟨rfl, fun h => ?_⟩
  cases step_cases h with
  | register _ hf =>
    rw [loopAct, hf]
    exact Machine.runFrom_one rfl
  | loop _ hr => exact Machine.runFrom_one hr
  | enqueue hm _ _ =>
    refine Machine.runFrom_one ?_
    show Register.advance _ = _
    simp only [Register.advance, hm]
  | _ => rfl

/-- Of a run of the service, the steps at the queue are a run of the pool. -/
theorem pool_part (x : Setting n T) :
    Machine.Part (machine x) (Pool.machine n) State.pool poolAct := by
  refine ⟨rfl, fun h => ?_⟩
  cases step_cases h with
  | enqueue hm hc hq =>
    simp only [poolAct, hm, hc, Option.map_some, Option.toList_some]
    exact Machine.runFrom_one hq
  | leave _ hq => exact Machine.runFrom_one hq
  | pool _ hq => exact Machine.runFrom_one hq
  | _ => rfl

/-- Of a run of the service, the steps behind the setup are a run of the clients. -/
theorem clients_part (x : Setting n T) :
    Machine.Part (machine x) (Link.Clients.machine x.stale x.program x.list) State.clients
      clientsAct := by
  refine ⟨rfl, fun h => ?_⟩
  cases step_cases h with
  | session _ hc => exact Machine.runFrom_one hc
  | _ => rfl

end Ems.Service
