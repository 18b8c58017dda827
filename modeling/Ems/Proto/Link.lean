import Ems.Client.Reply
import Ems.Proto.Handler

/-!
# A client and its session

The two programs and the two pipes between them. One `write()` or `read()` of any size
is a step, and so is an operation. The store belongs to other sessions as well, which may
do any operation at any moment. That an operation may be seen as one step is
`Proto/Stepwise.lean`, for runs in which no `SHOW` sends seats while a reservation of its
event stores them; a `SHOW` beside one can get a matrix that was never there.

`Step` restates `step` as one rule for each thing that can happen.
-/

namespace Ems.Proto.Link

open Conc Wire Server Client

/-- Both ends, what is in the pipes (`up` to the server, `down` to the client), what the
current call has written to `out_fd`, and the store. -/
structure State where
  client : Program UInt32
  server : Proto.Server
  up : List UInt8
  down : List UInt8
  out : List Char
  list : EventList

/-- What can happen; a system call comes with its number of bytes. -/
inductive Act where
  | client (k : Nat)
  /-- the client does something else than reading and writing -/
  | act
  | server (k : Nat)
  /-- the session performs an operation -/
  | serve
  /-- another session performs one -/
  | other (op : Op)

/-- The loop of `handle_requests`. -/
def resume (stale : Nat → UInt8) : Proto.Server → Proto.Server
  | .done none => handleRequest stale
  | p => p

def step (stale : Nat → UInt8) (s : State) : Act → Option State
  | .client k =>
    (s.client.io k s.down).map fun (p, down, bytes) =>
      { s with client := p, down := down, up := s.up ++ bytes }
  | .act =>
    match s.client with
    | .ask (.enter _) next => some { s with client := (next ()).settle, out := [] }
    | .ask (.print text) next => some { s with client := (next ()).settle, out := s.out ++ text }
    | .ask (.leave _) next => some { s with client := (next ()).settle }
    | .ask .quit next => some { s with client := (next ()).settle }
    | _ => none
  | .server k =>
    (s.server.io k s.up).map fun (p, up, bytes) =>
      { s with server := resume stale p, up := up, down := s.down ++ bytes }
  | .serve =>
    match s.server with
    | .ask c next =>
      some { s with
        server := resume stale (next (c.exec s.list).1).settle
        list := (c.exec s.list).2 }
    | _ => none
  | .other op => some { s with list := (op.exec s.list).2 }

/-- The calls and a session that serves them, from a store on. -/
def machine (stale junk : Nat → UInt8) (calls : List Call) (list : EventList) :
    Machine State Act :=
  ⟨⟨session junk calls, handleRequest stale, [], [], [], list⟩, step stale⟩

/-- The operation a step performs, and the store it finds. -/
def performed (s : State) : Act → List (Call × EventList)
  | .serve =>
    match s.server with
    | .ask c _ => [(c, s.list)]
    | _ => []
  | _ => []

/-- What is about to be performed is what the session asks for. -/
theorem performed_serve {s : State} {c : Call} (h : (performed s .serve).map Prod.fst = [c]) :
    ∃ next, s.server = .ask c next := by
  simp only [performed] at h
  split at h
  next c' next hserver => cases h; exact ⟨next, hserver⟩
  next => cases h

/-- The value a call returns, and what it has printed. -/
def returned (s : State) : Act → List (UInt32 × List Char)
  | .act =>
    match s.client with
    | .ask (.leave ret) _ => [(ret, s.out)]
    | _ => []
  | _ => []

/-- What is to come of an operation. -/
def outcome (x : Call × EventList) : UInt32 × List Char :=
  (replyRet (x.1.exec x.2).1, output x.2 x.1)

/-- A call of the client is about to begin, or `ems_quit`. -/
def Between : Program UInt32 → Prop
  | .ask (.enter _) _ => True
  | .ask .quit _ => True
  | _ => False

/-- Both ends are done. -/
def Over (s : State) : Prop := s.client = pure 0 ∧ s.server = pure (some .success)

/-- The action is one of this client and its session. -/
def Act.Own : Act → Prop
  | .other _ => False
  | _ => True

/-- If the step performs a `SHOW`, its event can be printed. -/
def Shows (s : State) : Act → Prop
  | .serve =>
    match s.server with
    | .ask c _ => Showable s.list c
    | _ => True
  | _ => True

instance (s : State) (a : Act) : Decidable (Shows s a) := by
  cases a with
  | serve =>
    unfold Shows
    cases s.server with
    | ask c next => exact inferInstanceAs (Decidable (Showable s.list c))
    | _ => exact isTrue trivial
  | _ => exact isTrue trivial

/-! ## What one step can do -/

inductive Step (stale : Nat → UInt8) : State → Act → State → Prop where
  | client {s k p down bytes} (h : s.client.io k s.down = some (p, down, bytes)) :
      Step stale s (.client k) { s with client := p, down := down, up := s.up ++ bytes }
  | enter {s c next} (h : s.client = .ask (.enter c) next) :
      Step stale s .act { s with client := (next ()).settle, out := [] }
  | print {s text next} (h : s.client = .ask (.print text) next) :
      Step stale s .act { s with client := (next ()).settle, out := s.out ++ text }
  | leave {s ret next} (h : s.client = .ask (.leave ret) next) :
      Step stale s .act { s with client := (next ()).settle }
  | quit {s next} (h : s.client = .ask .quit next) :
      Step stale s .act { s with client := (next ()).settle }
  | server {s k p up bytes} (h : s.server.io k s.up = some (p, up, bytes)) :
      Step stale s (.server k)
        { s with server := resume stale p, up := up, down := s.down ++ bytes }
  | serve {s c next} (h : s.server = .ask c next) :
      Step stale s .serve { s with
        server := resume stale (next (c.exec s.list).1).settle
        list := (c.exec s.list).2 }
  | other {s op} : Step stale s (.other op) { s with list := (Op.exec op s.list).2 }

/-- Every action is one of the rules. -/
theorem step_cases {stale : Nat → UInt8} {s s' : State} {a : Act} (h : step stale s a = some s') :
    Step stale s a s' := by
  cases a with
  | client k =>
    obtain ⟨⟨p, down, bytes⟩, hio, rfl⟩ := Option.map_eq_some_iff.mp h
    exact .client hio
  | act =>
    simp only [step] at h
    split at h
    next hc => cases h; exact .enter hc
    next hc => cases h; exact .print hc
    next hc => cases h; exact .leave hc
    next hc => cases h; exact .quit hc
    next => cases h
  | server k =>
    obtain ⟨⟨p, up, bytes⟩, hio, rfl⟩ := Option.map_eq_some_iff.mp h
    exact .server hio
  | serve =>
    simp only [step] at h
    split at h
    next hc => cases h; exact .serve hc
    next => cases h
  | other op => cases h; exact .other

end Ems.Proto.Link
