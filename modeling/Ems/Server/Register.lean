import Ems.Conc.Machine
import Ems.Proto.Setup

/-!
# The registration loop

The loop of the server's `main`: it reads one request after the other from the register
pipe and hands those that begin with `OP_SETUP` to `enqueue_connection`. A request is 82
bytes and nothing marks where one begins, so the loop has to stay on the boundaries.

`read()` may give less than it was asked for, and `safe_read` puts the pieces together.
A signal makes a `read()` fail that has given nothing yet; `safe_read` then returns -1
whatever it has read before, and the next iteration begins with an empty buffer. As long as that happens
between two requests only (`Calm`), every request is seen, once and in order
(`enqueues_all`). In the middle of one its first bytes are gone and the boundaries with
them (`interrupted_frame_lost`).

Mirroring notes:
- `register_pipe` is open for writing too, so that it never ends.
- A client's request is one `write()` of 82 bytes, which is not more than `PIPE_BUF`.
- A handler sets its flag whichever thread it runs in; it interrupts the `read()` of the
  main thread or not (`interrupts`).
- `malloc` and the mutex of the queue do not fail.
-/

namespace Ems.Server.Register

open Conc Proto

/-- A request as it is written to the register pipe. -/
abbrev Frame := { frame : List UInt8 // frame.length = setupRequestBufsiz }

/-- Where the main thread is in its loop. -/
inductive Pc where
  /-- before `if (terminate) break;` -/
  | head
  /-- in `safe_read`, with the bytes it has already -/
  | reading (got : List UInt8)
  /-- `safe_read` has failed and `errno` is `EINTR` -/
  | failed
  /-- before `usr1_sig = 0;`, behind `ems_sigusr1_action` -/
  | action
  /-- `safe_read` has filled `setup_buffer` -/
  | received (setupBuffer : List UInt8)
  /-- before `enqueue_connection` -/
  | enqueue (setupBuffer : List UInt8)
  | stopped
deriving DecidableEq, Repr

structure State where
  pipe : List UInt8
  usr1Sig : Bool
  terminate : Bool
  main : Pc
deriving DecidableEq, Repr

inductive Act where
  /-- a client registers -/
  | write (frame : Frame)
  | sigusr1 (interrupts : Bool)
  | sigint (interrupts : Bool)
  /-- `read()` gives `k` bytes -/
  | read (k : Nat)
  /-- any other step of the main thread -/
  | main

/-- `setup_buffer[0] == OP_SETUP`. -/
def isSetup (setupBuffer : List UInt8) : Bool := setupBuffer.head? = some opSetup

/-- A `read()` that has given nothing yet fails. -/
def interrupt (s : State) : Bool → Option State
  | false => some s
  | true =>
    match s.main with
    | .reading _ => some { s with main := .failed }
    | _ => none

/-- One step of the main thread that reads nothing. -/
def advance (s : State) : Option State :=
  match s.main with
  | .head => some { s with main := if s.terminate then .stopped else .reading [] }
  | .reading _ => none
  | .failed =>
    some { s with main := if s.usr1Sig then .action else if s.terminate then .stopped else .head }
  | .action => some { s with usr1Sig := false, main := .head }
  | .received setupBuffer =>
    some { s with main := if isSetup setupBuffer then .enqueue setupBuffer else .head }
  | .enqueue _ => some { s with main := .head }
  | .stopped => none

def step (s : State) : Act → Option State
  | .write frame => some { s with pipe := s.pipe ++ frame.1 }
  | .sigusr1 interrupts => interrupt { s with usr1Sig := true } interrupts
  | .sigint interrupts => interrupt { s with terminate := true } interrupts
  | .read k =>
    match s.main with
    | .reading got =>
      if 0 < k ∧ k ≤ setupRequestBufsiz - got.length ∧ k ≤ s.pipe.length then
        let got := got ++ s.pipe.take k
        some { s with
          pipe := s.pipe.drop k
          main := if got.length = setupRequestBufsiz then .received got else .reading got }
      else none
    | _ => none
  | .main => advance s

/-- The loop from its first iteration on. -/
def machine : Machine State Act := ⟨⟨[], false, false, .head⟩, step⟩

/-- The request that a step writes. -/
def arriving (_ : State) : Act → List (List UInt8)
  | .write frame => [frame.1]
  | _ => []

/-- The buffer that a step hands to `enqueue_connection`. -/
def leaving (s : State) : Act → List (List UInt8)
  | .main =>
    match s.main with
    | .enqueue setupBuffer => [setupBuffer]
    | _ => []
  | _ => []

/-- The requests of a run, in the order in which they were written. -/
def written (tr : List Act) : List (List UInt8) := machine.log arriving tr

/-- What the loop has handed to `enqueue_connection`. -/
def enqueued (tr : List Act) : List (List UInt8) := machine.log leaving tr

/-- No `SIGUSR1` fails a `read()` when a part of a request has been read. -/
def Calm (s : State) : Act → Prop
  | .sigusr1 true => s.main = .reading []
  | _ => True

/-! ## What one step can do -/

/-- The steps of the loop and of those around it. -/
inductive Step : State → Act → State → Prop where
  | write {s} (frame : Frame) : Step s (.write frame) { s with pipe := s.pipe ++ frame.1 }
  | usr1 {s} : Step s (.sigusr1 false) { s with usr1Sig := true }
  | usr1Fails {s got} (h : s.main = .reading got) :
      Step s (.sigusr1 true) { s with usr1Sig := true, main := .failed }
  | int {s} : Step s (.sigint false) { s with terminate := true }
  | intFails {s got} (h : s.main = .reading got) :
      Step s (.sigint true) { s with terminate := true, main := .failed }
  | readPart {s k got} (h : s.main = .reading got) (hk : k ≤ s.pipe.length)
      (hlen : (got ++ s.pipe.take k).length < setupRequestBufsiz) :
      Step s (.read k)
        { s with pipe := s.pipe.drop k, main := .reading (got ++ s.pipe.take k) }
  | readLast {s k got} (h : s.main = .reading got) (hk : k ≤ s.pipe.length)
      (hlen : (got ++ s.pipe.take k).length = setupRequestBufsiz) :
      Step s (.read k)
        { s with pipe := s.pipe.drop k, main := .received (got ++ s.pipe.take k) }
  | start {s} (h : s.main = .head) (ht : s.terminate = false) :
      Step s .main { s with main := .reading [] }
  | stop {s} (h : s.main = .head ∨ s.main = .failed) (ht : s.terminate = true) :
      Step s .main { s with main := .stopped }
  | signalled {s} (h : s.main = .failed) : Step s .main { s with main := .action }
  | retry {s} (h : s.main = .failed) : Step s .main { s with main := .head }
  | handled {s} (h : s.main = .action) : Step s .main { s with usr1Sig := false, main := .head }
  | accept {s setupBuffer} (h : s.main = .received setupBuffer) (hs : isSetup setupBuffer = true) :
      Step s .main { s with main := .enqueue setupBuffer }
  | ignore {s setupBuffer} (h : s.main = .received setupBuffer) (hs : isSetup setupBuffer = false) :
      Step s .main { s with main := .head }
  | enqueued {s setupBuffer} (h : s.main = .enqueue setupBuffer) :
      Step s .main { s with main := .head }

theorem advance_cases {s s' : State} (h : advance s = some s') : Step s .main s' := by
  unfold advance at h
  split at h
  next hm =>
    cases h
    cases ht : s.terminate with
    | true => simpa [ht] using Step.stop (Or.inl hm) ht
    | false => simpa [ht] using Step.start hm ht
  next => cases h
  next hm =>
    cases h
    cases hu : s.usr1Sig with
    | true => simpa [hu] using Step.signalled hm
    | false =>
      cases ht : s.terminate with
      | true => simpa [ht, hu] using Step.stop (Or.inr hm) ht
      | false => simpa [ht, hu] using Step.retry hm
  next hm => cases h; exact .handled hm
  next buffer hm =>
    cases h
    cases hs : isSetup buffer with
    | true => exact .accept hm hs
    | false => exact .ignore hm hs
  next hm => cases h; exact .enqueued hm
  next => cases h

theorem interrupt_cases {s s' : State} {b : Bool} (h : interrupt s b = some s') :
    b = false ∧ s' = s ∨ b = true ∧ ∃ got, s.main = .reading got ∧ s' = { s with main := .failed } := by
  cases b with
  | false => exact Or.inl ⟨rfl, (Option.some.inj h).symm⟩
  | true =>
    dsimp only [interrupt] at h
    split at h
    next got hm => exact Or.inr ⟨rfl, got, hm, (Option.some.inj h).symm⟩
    next => cases h

theorem step_cases {s s' : State} {a : Act} (h : step s a = some s') : Step s a s' := by
  cases a with
  | write frame => cases h; exact .write frame
  | sigusr1 b =>
    rcases interrupt_cases h with ⟨rfl, rfl⟩ | ⟨rfl, got, hm, rfl⟩
    · exact .usr1
    · exact .usr1Fails hm
  | sigint b =>
    rcases interrupt_cases h with ⟨rfl, rfl⟩ | ⟨rfl, got, hm, rfl⟩
    · exact .int
    · exact .intFails hm
  | read k =>
    dsimp only [step] at h
    split at h
    next got hm =>
      split at h
      next hk =>
        cases h
        obtain ⟨hpos, hroom, hpipe⟩ := hk
        have hlen : (got ++ s.pipe.take k).length = got.length + k := by
          rw [List.length_append, List.length_take, Nat.min_eq_left hpipe]
        by_cases hfull : (got ++ s.pipe.take k).length = setupRequestBufsiz
        · rw [if_pos hfull]
          exact .readLast hm hpipe hfull
        · rw [if_neg hfull]
          exact .readPart hm hpipe (by omega)
      next => cases h
    next => cases h
  | main => exact advance_cases h

/-! ## On the boundaries -/

/-- What has been read of the request at hand. -/
def State.held (s : State) : List UInt8 :=
  match s.main with
  | .reading got => got
  | _ => []

/-- A request that has been read and not yet enqueued or ignored. -/
def State.pending (s : State) : List (List UInt8) :=
  match s.main with
  | .received setupBuffer => [setupBuffer]
  | .enqueue setupBuffer => [setupBuffer]
  | _ => []

/-- The loop will not read again. -/
def State.Leaving (s : State) : Prop :=
  s.terminate = true ∧
    (s.main = .head ∨ s.main = .failed ∨ s.main = .action ∨ s.main = .stopped)

/-- The requests `sent` are those that have been dealt with, `done`, and those that are
still in the pipe, the first of them perhaps in part with the loop. -/
structure Framed (sent enq : List (List UInt8)) (s : State) (done rest : List (List UInt8)) :
    Prop where
  split : sent = done ++ rest
  size : ∀ frame ∈ sent, frame.length = setupRequestBufsiz
  enqueued : enq ++ s.pending.filter isSetup = done.filter isSetup
  stream : s.Leaving ∨ s.held ++ s.pipe = rest.flatten
  part : s.held.length < setupRequestBufsiz
  accepted : ∀ setupBuffer, s.main = .enqueue setupBuffer → isSetup setupBuffer = true

/-- The first 82 bytes are the first request. -/
theorem first_frame {rest : List (List UInt8)} {buffer tail : List UInt8}
    (hsize : ∀ frame ∈ rest, frame.length = setupRequestBufsiz)
    (hlen : buffer.length = setupRequestBufsiz) (h : buffer ++ tail = rest.flatten) :
    ∃ rest', rest = buffer :: rest' ∧ tail = rest'.flatten := by
  cases rest with
  | nil =>
    have hnil := congrArg List.length h
    rw [List.length_append, hlen] at hnil
    exact absurd hnil (by simp [setupRequestBufsiz])
  | cons frame rest =>
    rw [List.flatten_cons] at h
    have hframe := hsize frame (List.mem_cons_self ..)
    obtain ⟨hb, ht⟩ := List.append_inj h (hlen.trans hframe.symm)
    exact ⟨rest, by rw [hb], ht⟩

/-- A step of the loop between two requests. -/
theorem Framed.between {sent enq done rest : List (List UInt8)} {s s' : State}
    (hi : Framed sent enq s done rest) (hpipe : s'.pipe = s.pipe)
    (hheld : s.held = []) (hheld' : s'.held = [])
    (henq : s'.pending.filter isSetup = s.pending.filter isSetup)
    (hleaving : s.Leaving → s'.Leaving)
    (haccepted : ∀ buffer, s'.main = .enqueue buffer → isSetup buffer = true) :
    Framed sent enq s' done rest where
  split := hi.split
  size := hi.size
  enqueued := by rw [henq]; exact hi.enqueued
  stream := by
    rw [hheld', hpipe, ← hheld]
    exact hi.stream.imp_left hleaving
  part := by rw [hheld']; decide
  accepted := haccepted

/-- While the loop reads it does not leave. -/
theorem Framed.reading {sent enq done rest : List (List UInt8)} {s : State} {got : List UInt8}
    (hi : Framed sent enq s done rest) (h : s.main = .reading got) :
    got ++ s.pipe = rest.flatten ∧ enq = done.filter isSetup := by
  have hheld : s.held = got := by simp [State.held, h]
  have hpending : s.pending = [] := by simp [State.pending, h]
  refine ⟨?_, ?_⟩
  · rcases hi.stream with ⟨-, hl⟩ | hstream
    · simp [h] at hl
    · rwa [hheld] at hstream
  · have henq := hi.enqueued
    rwa [hpending, List.filter_nil, List.append_nil] at henq

section Steps

variable {sent enq done rest : List (List UInt8)} {s : State}

/-- A client writes one more request. -/
theorem Framed.write (hi : Framed sent enq s done rest) {frame : List UInt8}
    (hsize : frame.length = setupRequestBufsiz) :
    Framed (sent ++ [frame]) enq { s with pipe := s.pipe ++ frame } done (rest ++ [frame]) where
  split := by rw [hi.split, List.append_assoc]
  size f hf := by
    rcases List.mem_append.mp hf with hf | hf
    · exact hi.size f hf
    · rw [List.mem_singleton.mp hf]
      exact hsize
  enqueued := hi.enqueued
  stream := by
    refine hi.stream.imp_right fun hstream => ?_
    rw [List.flatten_append, ← hstream, List.append_assoc]
    simp [State.held]
  part := hi.part
  accepted := hi.accepted

/-- Some bytes of a request, and not yet all. -/
theorem Framed.readPart (hi : Framed sent enq s done rest) {got : List UInt8} {k : Nat}
    (hm : s.main = .reading got) (hlen : (got ++ s.pipe.take k).length < setupRequestBufsiz) :
    Framed sent enq { s with pipe := s.pipe.drop k, main := .reading (got ++ s.pipe.take k) }
      done rest := by
  obtain ⟨hstream, henq⟩ := hi.reading hm
  refine ⟨hi.split, hi.size, ?_, Or.inr ?_, hlen, nofun⟩
  · rw [henq]
    exact List.append_nil _
  · rw [← hstream]
    simp [State.held]

/-- The 82nd byte: what has been read is the first of the remaining requests. -/
theorem Framed.readLast (hi : Framed sent enq s done rest) {got : List UInt8} {k : Nat}
    (hm : s.main = .reading got) (hlen : (got ++ s.pipe.take k).length = setupRequestBufsiz) :
    ∃ rest', Framed sent enq
      { s with pipe := s.pipe.drop k, main := .received (got ++ s.pipe.take k) }
      (done ++ [got ++ s.pipe.take k]) rest' := by
  obtain ⟨hstream, henq⟩ := hi.reading hm
  rw [← List.take_append_drop k s.pipe, ← List.append_assoc] at hstream
  have hsize : ∀ frame ∈ rest, frame.length = setupRequestBufsiz := fun frame hf =>
    hi.size frame (by rw [hi.split]; exact List.mem_append_right _ hf)
  obtain ⟨rest', hrest, hpipe⟩ := first_frame hsize hlen hstream
  refine ⟨rest', ?_, hi.size, ?_, Or.inr hpipe, by show 0 < setupRequestBufsiz; decide, nofun⟩
  · rw [hi.split, hrest, List.append_assoc]
    rfl
  · rw [List.filter_append, henq]
    rfl

/-- The request moves from pending to enqueued. -/
theorem Framed.enqueue (hi : Framed sent enq s done rest) {buffer : List UInt8}
    (hm : s.main = .enqueue buffer) :
    Framed sent (enq ++ [buffer]) { s with main := .head } done rest := by
  have hstream : s.Leaving ∨ s.pipe = rest.flatten := by
    have hold := hi.stream
    rwa [show s.held = [] by simp [State.held, hm], List.nil_append] at hold
  have henq := hi.enqueued
  rw [show s.pending = [buffer] by simp [State.pending, hm],
    List.filter_cons_of_pos (hi.accepted buffer hm), List.filter_nil] at henq
  refine ⟨hi.split, hi.size, ?_, ?_, by show 0 < setupRequestBufsiz; decide, nofun⟩
  · rw [← henq]
    exact List.append_nil _
  · exact hstream.imp_left fun hl => ⟨hl.1, Or.inl rfl⟩

end Steps

/-- One step of a calm run. -/
theorem step_framed {sent enq done rest : List (List UInt8)} {s s' : State} {a : Act}
    (hi : Framed sent enq s done rest) (hcalm : Calm s a) (h : Step s a s') :
    ∃ done' rest', Framed (sent ++ arriving s a) (enq ++ leaving s a) s' done' rest' := by
  -- most steps neither write nor enqueue a request: the split into done and rest stays
  have hsame : ∀ {t}, Framed sent enq t done rest → arriving s a = [] → leaving s a = [] →
      ∃ done' rest', Framed (sent ++ arriving s a) (enq ++ leaving s a) t done' rest' := by
    intro t ht h1 h2
    rw [h1, h2, List.append_nil, List.append_nil]
    exact ⟨done, rest, ht⟩
  -- only the step behind `enqueue` counts as one
  have hmain : ∀ {pc}, s.main = pc → (∀ buffer, pc ≠ .enqueue buffer) → leaving s .main = [] := by
    intro pc hpc hne
    dsimp only [leaving]
    split
    next buffer hb => exact absurd (hpc.symm.trans hb) (hne buffer)
    next => rfl
  have hempty : ([] : List UInt8).length < setupRequestBufsiz := by decide
  cases h with
  | write frame =>
    rw [show leaving s (.write frame) = [] from rfl, List.append_nil]
    exact ⟨done, rest ++ [frame.1], hi.write frame.2⟩
  | usr1 => exact hsame ⟨hi.split, hi.size, hi.enqueued, hi.stream, hi.part, hi.accepted⟩ rfl rfl
  -- a signal interrupts `read` only before its first byte: the run is calm
  | usr1Fails hm =>
    have hstart : s.main = .reading [] := hcalm
    refine hsame (hi.between rfl ?_ rfl ?_ ?_ nofun) rfl rfl
    · simp [State.held, hstart]
    · simp [State.pending, hstart]
    · intro hl
      exact ⟨hl.1, Or.inr (Or.inl rfl)⟩
  | int =>
    refine hsame ⟨hi.split, hi.size, hi.enqueued, ?_, hi.part, hi.accepted⟩ rfl rfl
    exact hi.stream.imp_left fun hl => ⟨rfl, hl.2⟩
  -- the loop leaves, so what it holds of a request no longer has to fit
  | intFails hm =>
    obtain ⟨-, henq⟩ := hi.reading hm
    refine hsame ⟨hi.split, hi.size, ?_, Or.inl ⟨rfl, Or.inr (Or.inl rfl)⟩, hempty, nofun⟩ rfl rfl
    rw [henq]
    exact List.append_nil _
  | readPart hm hk hlen => exact hsame (hi.readPart hm hlen) rfl rfl
  | @readLast k got hm hk hlen =>
    obtain ⟨rest', hframed⟩ := hi.readLast hm hlen
    rw [show arriving s (.read k) = [] from rfl, show leaving s (.read k) = [] from rfl,
      List.append_nil, List.append_nil]
    exact ⟨_, rest', hframed⟩
  | start hm ht =>
    refine hsame (hi.between rfl ?_ rfl ?_ ?_ nofun) rfl (hmain hm nofun)
    · simp [State.held, hm]
    · simp [State.pending, hm]
    · intro hl
      exact absurd (ht.symm.trans hl.1) (by decide)
  | stop hm ht =>
    have hleaving : leaving s .main = [] := by
      rcases hm with hm | hm
      · exact hmain hm nofun
      · exact hmain hm nofun
    have hheld : s.held = [] := by rcases hm with hm | hm <;> simp [State.held, hm]
    have hpending : s.pending = [] := by rcases hm with hm | hm <;> simp [State.pending, hm]
    refine hsame (hi.between rfl hheld rfl ?_ ?_ nofun) rfl hleaving
    · rw [hpending]
      rfl
    · intro hl
      exact ⟨hl.1, Or.inr (Or.inr (Or.inr rfl))⟩
  | signalled hm =>
    refine hsame (hi.between rfl ?_ rfl ?_ ?_ nofun) rfl (hmain hm nofun)
    · simp [State.held, hm]
    · simp [State.pending, hm]
    · intro hl
      exact ⟨hl.1, Or.inr (Or.inr (Or.inl rfl))⟩
  | retry hm =>
    refine hsame (hi.between rfl ?_ rfl ?_ ?_ nofun) rfl (hmain hm nofun)
    · simp [State.held, hm]
    · simp [State.pending, hm]
    · intro hl
      exact ⟨hl.1, Or.inl rfl⟩
  | handled hm =>
    refine hsame (hi.between rfl ?_ rfl ?_ ?_ nofun) rfl (hmain hm nofun)
    · simp [State.held, hm]
    · simp [State.pending, hm]
    · intro hl
      exact ⟨hl.1, Or.inl rfl⟩
  | @accept buffer hm hs =>
    refine hsame (hi.between rfl ?_ rfl ?_ ?_ ?_) rfl (hmain hm nofun)
    · simp [State.held, hm]
    · simp [State.pending, hm]
    · intro hl
      have hout := hl.2
      simp [hm] at hout
    · intro b hb
      cases hb
      exact hs
  | @ignore buffer hm hs =>
    refine hsame (hi.between rfl ?_ rfl ?_ ?_ nofun) rfl (hmain hm nofun)
    · simp [State.held, hm]
    · simp [State.pending, hm, hs]
    · intro hl
      exact ⟨hl.1, Or.inl rfl⟩
  | @enqueued buffer hm =>
    rw [show arriving s .main = [] from rfl, show leaving s .main = [buffer] by simp [leaving, hm],
      List.append_nil]
    exact ⟨done, rest, hi.enqueue hm⟩

/-- A calm run. -/
theorem run_framed {tr : List Act} {s : State} (hcalm : machine.Meets Calm tr)
    (hrun : machine.run tr = some s) :
    ∃ done rest, Framed (written tr) (enqueued tr) s done rest := by
  refine machine.run_invariant_of_meets (C := Calm)
    (I := fun tr s => ∃ done rest, Framed (written tr) (enqueued tr) s done rest) ?_ ?_ tr s hcalm
    hrun
  · exact ⟨[], [], rfl, nofun, rfl, Or.inr rfl, by decide, nofun⟩
  · intro tr s a s' hs hC hi h
    obtain ⟨done, rest, hi⟩ := hi
    unfold written enqueued
    rw [machine.log_snoc arriving hs h, machine.log_snoc leaving hs h]
    exact step_framed hi hC (step_cases h)

/-! ## Nothing is left lying -/

/-- A step of the main thread, with as many bytes as it likes. -/
def Act.Own : Act → Prop
  | .read _ => True
  | .main => True
  | _ => False

/-- How far the main thread is from its next `read()`. -/
def Pc.distance : Pc → Nat
  | .reading _ => 0
  | .head => 1
  | .action => 2
  | .failed => 3
  | .enqueue _ => 2
  | .received _ => 3
  | .stopped => 0

/-- What is left to do: every byte may take the loop once around. -/
def State.work (s : State) : Nat := 4 * s.pipe.length + s.main.distance

/-- The main thread reads all there is, unless it has been told to stop. By induction on
the work left. -/
theorem drains {s : State} (ht : s.terminate = false) (hstop : s.main ≠ .stopped)
    (hlen : s.held.length < setupRequestBufsiz) :
    ∃ tr s' got, (∀ a ∈ tr, a.Own) ∧ machine.runFrom s tr = some s' ∧ s'.main = .reading got ∧
      s'.pipe = [] := by
  induction hn : s.work using Nat.strongRecOn generalizing s with
  | ind n ih =>
    -- one step that lowers the work, and then the induction hypothesis
    have hstep : ∀ {a s'}, a.Own → step s a = some s' → s'.terminate = false →
        s'.main ≠ .stopped → s'.held.length < setupRequestBufsiz → s'.work < s.work →
        ∃ tr s' got, (∀ a ∈ tr, a.Own) ∧ machine.runFrom s tr = some s' ∧
          s'.main = .reading got ∧ s'.pipe = [] := by
      intro a s' ha h ht' hstop' hlen' hlt
      obtain ⟨tr, s'', got, hown, hrun, hgot, hpipe⟩ := ih s'.work (by omega) ht' hstop' hlen' rfl
      refine ⟨a :: tr, s'', got, ?_, ?_, hgot, hpipe⟩
      · intro b hb
        rcases List.mem_cons.mp hb with rfl | hb
        · exact ha
        · exact hown b hb
      · rw [machine.runFrom_cons]
        show (step s a).bind _ = _
        rw [h]
        exact hrun
    -- a step that reads nothing comes nearer to the next `read`
    have hmove : ∀ {pc usr1}, step s .main = some { s with usr1Sig := usr1, main := pc } →
        pc ≠ .stopped → (∀ got, pc = .reading got → got = []) → pc.distance < s.main.distance →
        ∃ tr s' got, (∀ a ∈ tr, a.Own) ∧ machine.runFrom s tr = some s' ∧
          s'.main = .reading got ∧ s'.pipe = [] := by
      intro pc usr1 h hpc hgot hlt
      refine hstep (a := .main) trivial h ht hpc ?_ (Nat.add_lt_add_left hlt _)
      cases pc with
      | reading got =>
        rw [hgot got rfl]
        exact Nat.succ_pos _
      | _ => exact Nat.succ_pos _
    cases hm : s.main with
    | head =>
      have h : step s .main = some { s with usr1Sig := s.usr1Sig, main := .reading [] } := by
        simp [step, advance, hm, ht]
      exact hmove h nofun (fun got hgot => by cases hgot; rfl) (by rw [hm]; decide)
    | reading got =>
      by_cases hpipe : s.pipe = []
      · exact ⟨[], s, got, nofun, rfl, hm, hpipe⟩
      · have hpos : 0 < s.pipe.length := List.length_pos_iff.mpr hpipe
        have hgot : got.length < setupRequestBufsiz := by
          simpa [State.held, hm] using hlen
        have hnew : (got ++ s.pipe.take 1).length = got.length + 1 := by
          rw [List.length_append, List.length_take, Nat.min_eq_left hpos]
        -- one byte at a time is enough
        have h : step s (.read 1) = some { s with
            pipe := s.pipe.drop 1
            main := if (got ++ s.pipe.take 1).length = setupRequestBufsiz then
              .received (got ++ s.pipe.take 1) else .reading (got ++ s.pipe.take 1) } := by
          simp only [step, hm]
          rw [if_pos ⟨Nat.one_pos, by omega, hpos⟩]
        by_cases hfull : (got ++ s.pipe.take 1).length = setupRequestBufsiz
        · rw [if_pos hfull] at h
          refine hstep (a := .read 1) trivial h ht nofun (Nat.succ_pos _) ?_
          simp only [State.work, List.length_drop, Pc.distance, hm]
          omega
        · rw [if_neg hfull] at h
          refine hstep (a := .read 1) trivial h ht nofun ?_ ?_
          · show (got ++ s.pipe.take 1).length < setupRequestBufsiz
            omega
          · simp only [State.work, List.length_drop, Pc.distance, hm]
            omega
    -- `read` was interrupted: the flag decides whether `SIGUSR1` is handled first
    | failed =>
      cases hu : s.usr1Sig with
      | true =>
        have h : step s .main = some { s with usr1Sig := true, main := .action } := by
          simp [step, advance, hm, hu]
        exact hmove h nofun nofun (by rw [hm]; decide)
      | false =>
        have h : step s .main = some { s with usr1Sig := false, main := .head } := by
          simp [step, advance, hm, hu, ht]
        exact hmove h nofun nofun (by rw [hm]; decide)
    | action =>
      have h : step s .main = some { s with usr1Sig := false, main := .head } := by
        simp [step, advance, hm]
      exact hmove h nofun nofun (by rw [hm]; decide)
    -- a request that does not begin with `OP_SETUP` is dropped without a word
    | received buffer =>
      cases hs : isSetup buffer with
      | true =>
        have h : step s .main = some { s with usr1Sig := s.usr1Sig, main := .enqueue buffer } := by
          simp [step, advance, hm, hs]
        exact hmove h nofun nofun (by rw [hm]; exact Nat.lt_succ_self 2)
      | false =>
        have h : step s .main = some { s with usr1Sig := s.usr1Sig, main := .head } := by
          simp [step, advance, hm, hs]
        exact hmove h nofun nofun (by rw [hm]; exact Nat.lt_of_lt_of_le (by decide) (Nat.le_succ 2))
    | enqueue buffer =>
      have h : step s .main = some { s with usr1Sig := s.usr1Sig, main := .head } := by
        simp [step, advance, hm]
      exact hmove h nofun nofun (by rw [hm]; exact Nat.lt_succ_self 1)
    | stopped => exact absurd hm hstop

/-- The loop stops when it is told to. -/
theorem run_stopped {tr : List Act} {s : State} (hrun : machine.run tr = some s) :
    s.main = .stopped → s.terminate = true := by
  refine machine.run_invariant (I := fun _ s => s.main = .stopped → s.terminate = true) nofun ?_ tr s
    hrun
  intro tr s a s' _ hi h
  cases step_cases h with
  | write frame => exact hi
  | usr1 => exact hi
  | int => exact fun _ => rfl
  | stop hm ht => exact fun _ => ht
  | _ => exact nofun

/-- What `main` should enqueue of the requests. -/
def setups (frames : List (List UInt8)) : List (List UInt8) := frames.filter isSetup

/-- The loop waits for the next byte and there is none: it is between two requests. -/
theorem Framed.waiting {sent enq done rest : List (List UInt8)} {s : State} {got : List UInt8}
    (hi : Framed sent enq s done rest) (hm : s.main = .reading got) (hpipe : s.pipe = []) :
    got = [] ∧ enq = setups sent := by
  obtain ⟨hstream, henq⟩ := hi.reading hm
  rw [hpipe, List.append_nil] at hstream
  have hgot : got.length < setupRequestBufsiz := by simpa [State.held, hm] using hi.part
  have hrest : rest = [] := by
    cases rest with
    | nil => rfl
    | cons frame rest =>
      have hsize := hi.size frame (by rw [hi.split]; simp)
      rw [hstream, List.flatten_cons, List.length_append] at hgot
      omega
  rw [hrest] at hstream
  refine ⟨hstream, ?_⟩
  rw [henq, hi.split, hrest, List.append_nil]
  rfl

/-- **Exactly once each and in order**, in every state of a calm run. What is enqueued are
the first of the requests that begin with `OP_SETUP`; they are all enqueued when the loop
waits and the pipe is empty; and until it is told to stop, the loop gets there by itself. -/
theorem enqueues_all {tr : List Act} {s : State} (hcalm : machine.Meets Calm tr)
    (hrun : machine.run tr = some s) :
    enqueued tr <+: setups (written tr) ∧
    (∀ got, s.main = .reading got → s.pipe = [] → enqueued tr = setups (written tr)) ∧
    (s.terminate = false → ∃ tr' s', (∀ a ∈ tr', a.Own) ∧ machine.run (tr ++ tr') = some s' ∧
      s'.main = .reading [] ∧ s'.pipe = [] ∧ enqueued (tr ++ tr') = setups (written tr)) := by
  obtain ⟨done, rest, hi⟩ := run_framed hcalm hrun
  refine ⟨?_, fun got hm hpipe => (hi.waiting hm hpipe).2, fun ht => ?_⟩
  · have hsent : setups (written tr) =
        enqueued tr ++ (s.pending.filter isSetup ++ rest.filter isSetup) := by
      unfold setups
      rw [hi.split, List.filter_append, ← hi.enqueued, List.append_assoc]
    rw [hsent]
    exact List.prefix_append _ _
  · have hstop : s.main ≠ .stopped := by
      intro hm
      rw [run_stopped hrun hm] at ht
      cases ht
    obtain ⟨tr', s', got, hown, hrun', hm, hpipe⟩ := drains ht hstop hi.part
    have hrun'' : machine.run (tr ++ tr') = some s' := by rw [machine.run_append hrun, hrun']
    -- the main thread's own steps bring no signal
    have hcalm' : machine.Meets Calm (tr ++ tr') := by
      refine hcalm.append fun a ha t => ?_
      have hown' := hown a ha
      cases a with
      | sigusr1 b => exact hown'.elim
      | _ => exact trivial
    -- nor do they write a request
    have hwritten : written (tr ++ tr') = written tr := by
      have hsilent : ∀ a ∈ tr', ∀ t, arriving t a = [] := by
        intro a ha t
        have hown' := hown a ha
        cases a with
        | write frame => exact hown'.elim
        | _ => rfl
      unfold written
      rw [machine.log_append arriving tr' hrun, machine.logFrom_eq_nil hsilent, List.append_nil]
    obtain ⟨done', rest', hi'⟩ := run_framed hcalm' hrun''
    obtain ⟨rfl, henq⟩ := hi'.waiting hm hpipe
    exact ⟨tr', s', hown, hrun'', hm, hpipe, by rw [henq, hwritten]⟩

/-- A request with the name `a` for the request pipe. -/
def setupFrame : Frame := ⟨opSetup :: (97 :: List.replicate 80 0), by decide⟩

/-- A signal before the request is read, and one in between that interrupts nothing. -/
def calmRun : List Act :=
  [.write setupFrame, .main] ++ [.sigusr1 true] ++
    [.main, .main, .main, .read 1, .sigusr1 false, .read 81, .main, .main, .main]

theorem enqueues_all_calmRun :
    ∃ s, machine.run calmRun = some s ∧ enqueued calmRun = setups (written calmRun) := by
  have hbefore : machine.Meets Calm [.write setupFrame, .main] := by
    refine machine.meets_of_take fun k hk s _ => ?_
    match k, hk with
    | 0, _ => exact trivial
    | 1, _ => exact trivial
  have hsignal : machine.Meets Calm ([.write setupFrame, .main] ++ [.sigusr1 true]) :=
    hbefore.snoc rfl rfl
  have hcalm : machine.Meets Calm calmRun := by
    refine hsignal.append fun a ha s => ?_
    simp only [List.mem_cons, List.not_mem_nil, or_false] at ha
    rcases ha with rfl | rfl | rfl | rfl | rfl | rfl | rfl | rfl | rfl <;> exact trivial
  exact ⟨_, rfl, (enqueues_all hcalm rfl).2.1 [] rfl rfl⟩

/-- A signal after the first byte of a request: the other 81 are taken for the beginning
of one, and the client is never served. -/
theorem interrupted_frame_lost :
    ∃ s, machine.run [.write setupFrame, .main, .read 1, .sigusr1 true, .main, .main, .main,
      .read 81] = some s ∧ s.pipe = [] ∧
      (∃ got, s.main = .reading got ∧ got.length = 81) ∧
      enqueued [.write setupFrame, .main, .read 1, .sigusr1 true, .main, .main, .main,
        .read 81] = [] ∧
      setups (written [.write setupFrame, .main, .read 1, .sigusr1 true, .main, .main, .main,
        .read 81]) = [setupFrame.1] :=
  ⟨_, rfl, rfl, ⟨_, rfl, rfl⟩, rfl, rfl⟩

end Ems.Server.Register
