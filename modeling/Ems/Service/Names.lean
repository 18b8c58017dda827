import Ems.Server.Held
import Ems.Service.System

/-!
# From the names to the worker

With names that fit, the request of a client stands for one connection, that of its two
names (`enqueueNames_request`); the worker that gets it opens the client's pipes and no
others (`serves_iff`). The loop hands the requests on in the order in which they were
written, as long as no signal cuts one in two, and so the connections in the pool are those
of the clients that have registered, in that order and no two alike (`run_arrivals`).
-/

namespace Ems.Service

open Base Conc Wire Proto Server

variable {n : Nat} {T : Type}

/-- The names of the pipes fit the arrays of the server, and no two clients have the same. -/
structure Setting.Named (x : Setting n T) : Prop where
  req : ∀ t, PipePath (x.names t).req
  resp : ∀ t, PipePath (x.names t).resp
  short : ∀ t, (x.names t).req.length < maxPipeNameSize ∧ (x.names t).resp.length < maxPipeNameSize
  different : Function.Injective x.names

/-- The connection with these names. -/
def connection (x : PipeNames) : Connection :=
  ⟨pad maxPipeNameSize x.req, pad maxPipeNameSize x.resp⟩

theorem connectNames_eq (stack : NameArrays) {c : Connection}
    (hreq : c.reqPipePath.length = maxPipeNameSize)
    (hresp : c.respPipePath.length = maxPipeNameSize) :
    connectNames stack c = some c := by
  have hfirst := memcpy_whole 0 stack.2.1
    (show 0 + maxPipeNameSize ≤ c.reqPipePath.length by omega)
  have hsecond := memcpy_whole 0 stack.2.2
    (show 0 + maxPipeNameSize ≤ c.respPipePath.length by omega)
  rw [List.drop_zero, List.take_of_length_le (by omega)] at hfirst hsecond
  show (memcpy _ _ _ _).bind _ = _
  rw [hfirst, Option.bind_some]
  show (memcpy _ _ _ _).bind _ = _
  rw [hsecond]
  rfl

/-- The requests of the clients, in which `enqueue_connection` finds their names. -/
structure Framing (x : Setting n T) (frame : T → Register.Frame) : Prop where
  request : ∀ t, request (x.names t) = some (frame t)
  setup : ∀ t, Register.isSetup (frame t).1 = true
  names : ∀ node t, enqueueNames node (frame t).1 = some (connection (x.names t))

theorem enqueueNames_request {x : PipeNames} (hreq : x.req.length ≤ maxPipeNameSize)
    (hresp : x.resp.length ≤ maxPipeNameSize) :
    ∃ frame, request x = some frame ∧ Register.isSetup frame.1 = true ∧
      ∀ node, enqueueNames node frame.1 = some (connection x) := by
  have hreqlen := pad_length hreq
  have hlong := pad_length (Nat.le_succ_of_le hresp)
  have hlen : (opSetup :: (pad maxPipeNameSize x.req ++ pad (maxPipeNameSize + 1) x.resp)).length =
      setupRequestBufsiz := by
    rw [List.length_cons, List.length_append, hreqlen, hlong]
    rfl
  refine ⟨⟨_, hlen⟩, ?_, ?_, fun node => ?_⟩
  · unfold request
    rw [setupRequest_eq hreq hresp, Option.bind_some, dif_pos hlen]
  · simp [Register.isSetup]
  · have hfirst := memcpy_whole 1 node.2.1 (by rw [hlen]; decide)
    have hsecond := memcpy_whole (1 + maxPipeNameSize) node.2.2 (by rw [hlen]; decide)
    have hdrop : (opSetup :: (pad maxPipeNameSize x.req ++ pad (maxPipeNameSize + 1) x.resp)).drop
        (1 + maxPipeNameSize) = pad (maxPipeNameSize + 1) x.resp := by
      rw [Nat.add_comm, List.drop_succ_cons, List.drop_left' hreqlen]
    rw [List.drop_succ_cons, List.drop_zero, List.take_left' hreqlen] at hfirst
    rw [hdrop, take_pad hresp (Nat.le_succ _)] at hsecond
    show (memcpy _ _ _ _).bind _ = _
    rw [hfirst, Option.bind_some]
    show (memcpy _ _ _ _).bind _ = _
    rw [hsecond]
    rfl

theorem Setting.Named.framing {x : Setting n T} (hx : x.Named) : ∃ frame, Framing x frame := by
  have hall : ∀ t, ∃ frame, request (x.names t) = some frame ∧ Register.isSetup frame.1 = true ∧
      ∀ node, enqueueNames node frame.1 = some (connection (x.names t)) := fun t =>
    enqueueNames_request (hx.req t).short (hx.resp t).short
  choose frame hrequest hsetup hnames using hall
  exact ⟨frame, hrequest, hsetup, fun node t => hnames t node⟩

/-- The worker opens the pipes of the client. -/
theorem Setting.Named.paths {x : Setting n T} (hx : x.Named) (stack : NameArrays) (t : T) :
    paths stack (connection (x.names t)) = some (some (x.names t).req, some (x.names t).resp) := by
  obtain ⟨hreq, hresp⟩ := hx.short t
  unfold Service.paths
  rw [connectNames_eq stack (pad_length (Nat.le_of_lt hreq)) (pad_length (Nat.le_of_lt hresp)),
    Option.map_some]
  unfold connection
  rw [cString_pad (hx.req t).nulFree, cString_pad (hx.resp t).nulFree, if_pos hreq, if_pos hresp]

/-- No two clients have the same connection. -/
theorem Setting.Named.connection_injective {x : Setting n T} (hx : x.Named) {t u : T}
    (h : connection (x.names t) = connection (x.names u)) : t = u := by
  have hpaths := hx.paths NameArrays.zeros t
  rw [h, hx.paths NameArrays.zeros u] at hpaths
  refine hx.different ?_
  obtain ⟨hreq, hresp⟩ := Prod.mk.inj (Option.some.inj hpaths)
  cases hu : x.names u
  cases ht : x.names t
  rw [hu, ht] at hreq hresp
  cases hreq
  cases hresp
  rfl

/-- Whom a worker serves. -/
theorem Setting.Named.serves_iff {x : Setting n T} (hx : x.Named) {s : State n T} {w : Fin n}
    {t : T}
    (hknown : ∀ c, s.pool.serves w = some c → ∃ u, connection (x.names u) = c) :
    s.Serves x w t ↔ s.pool.serves w = some (connection (x.names t)) := by
  unfold State.Serves
  constructor
  · intro h
    split at h
    next c hw =>
      have hserves := Pool.serves_eq.mpr hw
      obtain ⟨u, rfl⟩ := hknown c hserves
      rw [hx.paths (x.stack w) u] at h
      obtain ⟨hreq, hresp⟩ := Prod.mk.inj (Option.some.inj h)
      have hsame : x.names u = x.names t := by
        cases hu : x.names u
        cases ht : x.names t
        rw [hu, ht] at hreq hresp
        cases hreq
        cases hresp
        rfl
      rw [hserves, hsame]
    next => exact absurd h id
  · intro h
    rw [Pool.serves_eq.mp h]
    exact hx.paths (x.stack w) t

/-- The requests differ as well. -/
theorem Setting.Named.frame_injective {x : Setting n T} (hx : x.Named) {frame : T → Register.Frame}
    (hf : Framing x frame) {t u : T} (h : (frame t).1 = (frame u).1) : t = u := by
  have hnames := hf.names NameArrays.zeros t
  rw [h, hf.names] at hnames
  exact (hx.connection_injective (Option.some.inj hnames)).symm

/-! ## The order of arrival -/

/-- What `enqueue_connection` has been called with and not yet linked. -/
def atMain : Pool.MainPc → List Connection
  | .enqueueLock c => [c]
  | .enqueuePush c => [c]
  | _ => []

/-- The connection that a step hands to the pool. -/
def connecting : Pool.Act n → List Connection
  | .connect c => [c]
  | _ => []

theorem step_atMain {s s' : Pool.State n} {a : Pool.Act n} (h : Pool.Step s a s') :
    Pool.arrived s a ++ atMain s'.main = atMain s.main ++ connecting a := by
  cases h
  case enqueuePush c h =>
    have harrived : Pool.arrived s .main = [c] := by simp only [Pool.arrived, h]
    rw [harrived, h]
    rfl
  all_goals simp [Pool.arrived, atMain, connecting, Pool.State.goto, *]

variable [DecidableEq T]

/-- The client whose request a step writes. -/
def registers (_ : State n T) : Act n T → List T
  | .register t => [t]
  | _ => []

/-- The clients in the order in which they register. -/
def registered (x : Setting n T) (tr : List (Act n T)) : List T := (machine x).log registers tr

/-- What the registration loop does in a run. -/
def loopOf (x : Setting n T) (tr : List (Act n T)) : List Register.Act :=
  (machine x).ofPart (loopAct x) tr

/-- What the pool does. -/
def poolOf (x : Setting n T) (tr : List (Act n T)) : List (Pool.Act n) :=
  (machine x).ofPart poolAct tr

/-- No signal comes when a part of a request has been read. -/
def Calm (s : State n T) : Act n T → Prop
  | .loop a => Register.Calm s.register a
  | _ => True

def isSignal : Act n T → Bool
  | .loop (.sigusr1 _) => true
  | .loop (.sigint _) => true
  | _ => false

omit [DecidableEq T] in
theorem calm_of_quiet {a : Act n T} (h : isSignal a = false) (s : State n T) : Calm s a := by
  cases a with
  | loop b =>
    cases b with
    | sigusr1 => cases h
    | _ => trivial
  | _ => trivial

variable {x : Setting n T} {frame : T → Register.Frame} {tr : List (Act n T)} {s : State n T}

theorem meets_calm (h : ∀ a ∈ tr, isSignal a = false) : (machine x).Meets Calm tr := by
  intro before a after s htr _
  exact calm_of_quiet (h a (by rw [htr]; simp)) s

theorem run_calm (hcalm : (machine x).Meets Calm tr) (hrun : (machine x).run tr = some s) :
    Register.machine.Meets Register.Calm (loopOf x tr) := by
  refine (register_part x).meets (fun s a b ha hb => ?_) hcalm hrun
  cases a with
  | register t =>
    obtain ⟨f, -, rfl⟩ := Option.map_eq_some_iff.mp hb
    trivial
  | loop a => cases hb; exact ha
  | enqueue node => cases hb; trivial
  | _ => cases hb

/-- The requests that are written are those of the clients that register. -/
theorem written_eq (hf : Framing x frame) (hrun : (machine x).run tr = some s) :
    Register.written (loopOf x tr) = (registered x tr).map fun t => (frame t).1 := by
  unfold Register.written loopOf registered
  rw [(register_part x).log hrun, ← Machine.log_map]
  refine Machine.log_congr _ tr fun s a s' h => ?_
  cases step_cases h with
  | @register t f _ hreq =>
    rw [hf.request] at hreq
    cases hreq
    simp [loopAct, hf.request, Register.arriving, registers]
  | @loop a r hl _ =>
    cases a with
    | write f => exact absurd hl id
    | _ => rfl
  | _ => rfl

/-- Every client registers once. -/
theorem run_registered (hrun : (machine x).run tr = some s) :
    (registered x tr).Nodup ∧ ∀ t, t ∈ registered x tr ↔ s.setup t ≠ .outside := by
  refine (machine x).run_invariant (I := fun tr s => (registered x tr).Nodup ∧
    ∀ t, t ∈ registered x tr ↔ s.setup t ≠ .outside)
    ⟨List.nodup_nil, fun t => by
      simp [registered, Machine.log, Machine.logFrom, machine, State.init]⟩
    (fun tr s a s' hs hi h => ?_) tr s hrun
  obtain ⟨hnodup, hmem⟩ := hi
  have hsnoc : registered x (tr ++ [a]) = registered x tr ++ registers s a :=
    Machine.log_snoc _ _ hs h
  rw [hsnoc]
  -- a step that registers nobody leaves nobody outside
  have hsame : registers s a = [] → (∀ t, s'.setup t ≠ .outside ↔ s.setup t ≠ .outside) →
      (registered x tr ++ registers s a).Nodup ∧
        ∀ t, t ∈ registered x tr ++ registers s a ↔ s'.setup t ≠ .outside := by
    intro hnone hsetup
    rw [hnone, List.append_nil]
    exact ⟨hnodup, fun t => (hmem t).trans (hsetup t).symm⟩
  cases step_cases h with
  | @register t f hu _ =>
    have hnew : t ∉ registered x tr := fun ht => (hmem t).mp ht hu
    refine ⟨List.nodup_append.mpr ⟨hnodup, List.nodup_singleton t, ?_⟩, fun u => ?_⟩
    · intro b hb c hc hbc
      rw [List.mem_singleton.mp hc] at hbc
      exact hnew (hbc ▸ hb)
    · by_cases hut : u = t
      · subst hut
        simp [registers]
      · simp [registers, hut, hmem u]
  | @setup t k u bytes hu =>
    refine hsame rfl fun v => ?_
    by_cases hvt : v = t
    · subst hvt
      have hbefore : s.setup v ≠ .outside ∧ u ≠ .outside := by cases hu <;> simp [*]
      simp [hbefore.1, hbefore.2]
    · simp [hvt]
  | _ => exact hsame rfl fun _ => Iff.rfl

/-- The buffer is the request of the next client. -/
theorem next_request {us : List T} {buffer : List UInt8} (hx : x.Named) (hf : Framing x frame)
    (hcalm : (machine x).Meets Calm tr) (hrun : (machine x).run tr = some s)
    (hm : s.register.main = .enqueue buffer)
    (henq : Register.enqueued (loopOf x tr) = us.map (fun t => (frame t).1)) :
    ∃ u later, registered x tr = us ++ [u] ++ later ∧ buffer = (frame u).1 := by
  obtain ⟨done, rest, hframed⟩ :=
    Register.run_framed (run_calm hcalm hrun) ((register_part x).run hrun)
  have hsplit := hframed.split
  rw [written_eq hf hrun] at hsplit
  have hsetup : done.filter Register.isSetup = done := by
    refine List.filter_eq_self.mpr fun b hb => ?_
    have hmem : b ∈ (registered x tr).map fun t => (frame t).1 := by
      rw [hsplit]
      exact List.mem_append_left _ hb
    obtain ⟨t, -, rfl⟩ := List.mem_map.mp hmem
    exact hf.setup t
  have hdone := hframed.enqueued
  rw [henq, hsetup, show s.register.pending = [buffer] by simp [Register.State.pending, hm],
    List.filter_cons_of_pos (hframed.accepted buffer hm), List.filter_nil] at hdone
  rw [← hdone] at hsplit
  obtain ⟨us', later, hlater, hmap, -⟩ := List.map_eq_append_iff.mp hsplit
  obtain ⟨us'', last, rfl, hbefore, hlast⟩ := List.map_eq_append_iff.mp hmap
  obtain ⟨u, rfl, hu⟩ := List.map_eq_singleton_iff.mp hlast
  -- different clients have different requests
  have hinj : Function.Injective fun t => (frame t).1 := fun _ _ h => hx.frame_injective hf h
  obtain rfl := hinj.list_map hbefore
  exact ⟨u, later, hlater, hu.symm⟩

/-- **The pool gets the clients in the order in which they register.** -/
theorem run_arrivals (hx : x.Named) (hf : Framing x frame) (hcalm : (machine x).Meets Calm tr)
    (hrun : (machine x).run tr = some s) :
    ∃ us, us <+: registered x tr ∧
      Register.enqueued (loopOf x tr) = us.map (fun t => (frame t).1) ∧
      Pool.enqueued (poolOf x tr) ++ atMain s.pool.main =
        us.map fun t => connection (x.names t) := by
  refine (machine x).run_invariant (I := fun tr s => (machine x).Meets Calm tr → ∃ us,
      us <+: registered x tr ∧ Register.enqueued (loopOf x tr) = us.map (fun t => (frame t).1) ∧
      Pool.enqueued (poolOf x tr) ++ atMain s.pool.main = us.map fun t => connection (x.names t))
    (fun _ => ⟨[], List.nil_prefix, rfl, rfl⟩) (fun tr s a s' hs hi h hcalm => ?_) tr s hrun hcalm
  obtain ⟨us, hbegins, henq, hpool⟩ := hi hcalm.of_append
  have hsnoc := (machine x).run_snoc.mpr ⟨s, hs, h⟩
  have hreg : registered x (tr ++ [a]) = registered x tr ++ registers s a :=
    Machine.log_snoc _ _ hs h
  have henq' : Register.enqueued (loopOf x (tr ++ [a])) = Register.enqueued (loopOf x tr) ++
      (loopAct x s a).toList.flatMap (Register.leaving s.register) := by
    unfold Register.enqueued loopOf
    rw [(register_part x).log hsnoc, (register_part x).log hs, Machine.log_snoc _ _ hs h]
  have hpool' : Pool.enqueued (poolOf x (tr ++ [a])) = Pool.enqueued (poolOf x tr) ++
      (poolAct s a).toList.flatMap (Pool.arrived s.pool) := by
    unfold Pool.enqueued poolOf
    rw [(pool_part x).log hsnoc, (pool_part x).log hs, Machine.log_snoc _ _ hs h]
  rw [hreg, henq', hpool', List.append_assoc]
  -- most steps hand nothing on
  have hsame : (loopAct x s a).toList.flatMap (Register.leaving s.register) = [] →
      (poolAct s a).toList.flatMap (Pool.arrived s.pool) ++ atMain s'.pool.main =
        atMain s.pool.main → ∃ us, us <+: registered x tr ++ registers s a ∧
      Register.enqueued (loopOf x tr) ++ (loopAct x s a).toList.flatMap
        (Register.leaving s.register) = us.map (fun t => (frame t).1) ∧
      Pool.enqueued (poolOf x tr) ++ ((poolAct s a).toList.flatMap (Pool.arrived s.pool) ++
        atMain s'.pool.main) = us.map fun t => connection (x.names t) := by
    intro hloop hmain
    refine ⟨us, hbegins.trans (List.prefix_append _ _), ?_, ?_⟩
    · rw [hloop, List.append_nil]
      exact henq
    · rw [hmain]
      exact hpool
  cases step_cases h with
  | @register t f _ hreq =>
    refine hsame ?_ rfl
    simp [loopAct, hreq, Register.leaving]
  | @loop b r hl _ =>
    refine hsame ?_ rfl
    cases b with
    | main =>
      have hno := hl.2
      show Register.leaving s.register .main ++ [] = []
      unfold Register.leaving
      cases hm : s.register.main with
      | enqueue buffer =>
        rw [hm] at hno
        cases hno
      | _ => rfl
    | _ => rfl
  | @leave q _ hq =>
    have hmain := step_atMain (Pool.step_cases hq)
    have hno : connecting (.shutdown : Pool.Act n) = [] := rfl
    rw [hno, List.append_nil] at hmain
    refine hsame rfl ?_
    simpa [poolAct] using hmain
  | @pool b q ht hq =>
    have hmain := step_atMain (Pool.step_cases hq)
    have hno : connecting b = [] := by
      cases b with
      | connect c => exact absurd ht id
      | _ => rfl
    rw [hno, List.append_nil] at hmain
    refine hsame rfl ?_
    simpa [poolAct] using hmain
  -- the buffer is the request of the next client
  | @enqueue node buffer c q hm hc hq =>
    obtain ⟨u, later, hlater, rfl⟩ := next_request hx hf hcalm.of_append hs hm henq
    rw [hf.names] at hc
    cases hc
    have hmain := step_atMain (Pool.step_cases hq)
    refine ⟨us ++ [u], ?_, ?_, ?_⟩
    · rw [hlater]
      exact (List.prefix_append _ _).trans (List.prefix_append _ _)
    · simp [loopAct, Register.leaving, hm, henq]
    · simp only [poolAct, hm, hf.names, Option.map_some, Option.toList_some, List.flatMap_cons,
        List.flatMap_nil, List.append_nil]
      rw [hmain, ← List.append_assoc, hpool, List.map_append]
      rfl
  | _ => exact hsame rfl rfl

end Ems.Service
