import Ems.Server.Running
import Ems.Service.Stages

/-!
# Nobody waits for ever

The calls that open the pipes wait for each other, the workers for connections and the
clients for workers. As long as no `SIGINT` has come, somebody can go on until every client
that has registered has worked its job file off (`all_served`). A worker that has a client
can, or the client can (`serving_moves`). So where nobody can, no worker has one; then all
of them sleep, the queue is empty, and all clients have been taken and left.
-/

namespace Ems.Service

open Base Conc Wire Proto Server Parse

variable {n : Nat} {T : Type} [DecidableEq T]

/-- The steps of the server and of the clients that have registered. -/
def Act.Serving : Act n T → Prop
  | .register _ => False
  | .loop (.read _) => True
  | .loop .main => True
  | .loop _ => False
  | .leave => False
  | .pool (.spurious _) => False
  | _ => True

/-- Nobody can go on. -/
def State.Rests (x : Setting n T) (s : State n T) : Prop :=
  ∀ a, a.Serving → step x s a = none

variable {x : Setting n T} {taken : List Connection} {s s' : State n T} {tr : List (Act n T)}
  {w : Fin n} {t : T}

/-! ## Before the server is told to stop -/

theorem run_running (hrun : (machine x).run tr = some s) (hterm : s.register.terminate = false) :
    Pool.Running s.pool := by
  refine (machine x).run_invariant
    (I := fun _ s => s.register.terminate = false → Pool.Running s.pool)
    (fun _ => Pool.running_init) (fun tr s a s' hs hi h hterm => ?_) tr s hrun hterm
  have hstopped := Register.run_stopped ((register_part x).run hs)
  -- the flag is never reset
  have hkeeps : ∀ {b r}, Register.step s.register b = some r → r.terminate = false →
      s.register.terminate = false := by
    intro b r hr hfalse
    cases Register.step_cases hr with
    | int => cases hfalse
    | intFails => cases hfalse
    | _ => exact hfalse
  cases step_cases h with
  | register => exact hi hterm
  | loop _ hr => exact hi (hkeeps hr hterm)
  | enqueue _ _ hq =>
    exact Pool.step_running (Pool.step_cases hq) (fun hb => by cases hb) (hi hterm)
  | leave hm =>
    have hterm' : s.register.terminate = false := hterm
    rw [hstopped hm] at hterm'
    cases hterm'
  | @pool b q ht hq =>
    refine Pool.step_running (Pool.step_cases hq) (fun hb => ?_) (hi hterm)
    rw [hb] at ht
    exact ht
  | setup => exact hi hterm
  | desk => exact hi hterm
  | session => exact hi hterm

/-! ## A worker and its client -/

/-- A session that is over does nothing any more. -/
theorem over_still {a : Link.Act} {c : Link.Clients T} (hover : IsOver (s.clients.side t).server)
    (h : Link.Clients.step x.stale s.clients (t, a) = some c) : a = .act ∨ ∃ k, a = .client k := by
  obtain ⟨hown, y, hy, -⟩ := Link.Clients.step_own h
  obtain ⟨status, hover⟩ := hover
  cases Link.step_cases hy with
  | client => exact .inr ⟨_, rfl⟩
  | @server k p up bytes hio =>
    have hio' : (s.clients.side t).server.io k (s.clients.side t).up = some (p, up, bytes) := hio
    rw [hover] at hio'
    cases hio'
  | @serve c next hask =>
    have hask' : (s.clients.side t).server = .ask c next := hask
    rw [hover] at hask'
    cases hask'
  | other => exact absurd hown id
  | _ => exact .inl rfl

/-- At rest, a client in `ems_setup` cannot go on. -/
theorem State.Rests.setup (hrest : s.Rests x) (t : T) (k : Nat) : advanceSetup x s t k = none :=
  Option.map_eq_none_iff.mp (hrest (.setup t k) trivial)

/-- At rest, a worker in `connect_clients` cannot go on. -/
theorem State.Rests.desk (hrest : s.Rests x) (hserves : s.Serves x w t) (k : Nat) :
    advanceDesk s w t k = none := by
  have hstep : step x s (.desk w t k) = none := hrest _ trivial
  simp only [step, if_pos hserves] at hstep
  exact Option.map_eq_none_iff.mp hstep

/-- The client does not wait for an end of the response pipe that has been opened. -/
theorem resp_opened (hrest : s.Rests x) (hserves : s.Serves x w t)
    (hd : (s.desk w).respOpened = true) : s.setup t ≠ .inResp := by
  intro hu
  have hnone := hrest.setup t 0
  simp only [advanceSetup, hu] at hnone
  rw [if_pos ⟨w, hserves, hd⟩] at hnone
  cases hnone

/-- Nor for one of the request pipe. -/
theorem req_opened (hrest : s.Rests x) (hserves : s.Serves x w t)
    (hd : (s.desk w).reqOpened = true) (id : UInt32) : s.setup t ≠ .inReq id := by
  intro hu
  have hnone := hrest.setup t 0
  simp only [advanceSetup, hu] at hnone
  rw [if_pos ⟨w, hserves, hd⟩] at hnone
  cases hnone

/-- The worker does not wait in the first `open`: that of the client comes first, or the
worker's comes out. -/
theorem moves_inResp (hrest : s.Rests x) (hserves : s.Serves x w t) (hd : s.desk w = .inResp)
    (hm : Meets (sessionId w) .inResp (s.setup t) (s.transit t)) : False := by
  have hopened : (s.setup t).respOpened = false := by
    cases hu : (s.setup t).respOpened with
    | false => rfl
    | true =>
      have hnone := hrest.desk hserves 0
      simp only [advanceDesk, hd, hu, if_true] at hnone
      cases hnone
  have hnone := hrest.setup t 0
  rcases hm.at_inResp.1 with hu | hu
  · cases hu' : s.setup t with
    | openResp =>
      simp only [advanceSetup, hu'] at hnone
      cases hnone
    | inResp => rw [hu'] at hopened; cases hopened
    | _ => rw [hu'] at hu; cases hu
  · rw [hu] at hopened
    cases hopened

/-- Nor in the second one: what is missing of the number is in the pipe. -/
theorem moves_inReq (hrest : s.Rests x) (hserves : s.Serves x w t) (hd : s.desk w = .inReq)
    (hm : Meets (sessionId w) .inReq (s.setup t) (s.transit t)) : False := by
  generalize hu : s.setup t = u at hm
  generalize hb : s.transit t = bytes at hm
  cases hm with
  | @written _ _ got _ _ hgot hlen heq =>
    cases u with
    | inResp => exact resp_opened hrest hserves (by rw [hd]; rfl) hu
    | readId got' =>
      cases hgot
      have hfull := congrArg List.length heq
      rw [List.length_append, le4_length] at hfull
      have hnone := hrest.setup t 1
      simp only [advanceSetup, hu, hb] at hnone
      rw [if_pos ⟨Nat.one_pos, by omega, by omega⟩] at hnone
      cases hnone
    | _ => cases hgot
  | known =>
    have hnone := hrest.setup t 0
    simp only [advanceSetup, hu] at hnone
    cases hnone
  | entering => exact req_opened hrest hserves (by rw [hd]; rfl) _ hu
  | talking =>
    have hnone := hrest.desk hserves 0
    simp only [advanceDesk, hd, hu, Setup.reqOpened, if_true] at hnone
    cases hnone

/-- A session that has a client goes on or is over. -/
theorem moves_requests (hrest : s.Rests x) (hserves : s.Serves x w t)
    (hd : s.desk w = .requests)
    (hm : Meets (sessionId w) .requests (s.setup t) (s.transit t))
    (htalk : Link.Over (s.clients.session t) ∨
      ∃ a c, a.Own ∧ Link.Clients.step x.stale s.clients (t, a) = some c) : False := by
  rcases hm.at_requests.2 with hu | hu
  · exact req_opened hrest hserves (by rw [hd]; rfl) _ hu
  · rcases htalk with hover | ⟨a, c, hown, hstep⟩
    · have hserver : (s.clients.side t).server = .done (some .success) := hover.2
      have hnone := hrest.desk hserves 0
      simp only [advanceDesk, hd, hserver] at hnone
      cases hnone
    · have hconnected : (s.setup t).isConnected = true := by rw [hu]; rfl
      have htalks : s.Talks x t a := by
        cases a with
        | client k => exact hconnected
        | act => exact hconnected
        | server k => exact ⟨w, hserves, hd⟩
        | serve => exact ⟨w, hserves, hd⟩
        | other op => exact hown
      have hnone : step x s (.session t a) = none := hrest _ trivial
      simp only [step, if_pos htalks, hstep, Option.map_some] at hnone
      cases hnone

/-- A worker that is through with its client takes the next one. -/
theorem moves_closed (hrest : s.Rests x) (hserves : s.Serves x w t) (hd : s.desk w = .closed) :
    False := by
  have hturns : s.Turns (.worker w) := fun _ => hd
  have hnone : step x s (.pool (.worker w)) = none := hrest _ trivial
  simp only [step, if_pos hturns] at hnone
  have hstuck : Pool.advance s.pool w = none := Option.map_eq_none_iff.mp hnone
  unfold State.Serves at hserves
  unfold Pool.advance at hstuck
  cases hp : s.pool.worker w with
  | serving c => rw [hp] at hstuck; cases hstuck
  | _ => rw [hp] at hserves; exact hserves

/-- Neither of them waits for the other for ever. -/
theorem serving_moves (hrest : s.Rests x) (hserves : s.Serves x w t)
    (hm : Meets (sessionId w) (s.desk w) (s.setup t) (s.transit t))
    (htalk : Link.Over (s.clients.session t) ∨
      ∃ a c, a.Own ∧ Link.Clients.step x.stale s.clients (t, a) = some c) : False := by
  cases hd : s.desk w with
  | openResp =>
    have hnone := hrest.desk hserves 0
    simp only [advanceDesk, hd] at hnone
    cases hnone
  | inResp => exact moves_inResp hrest hserves hd (hd ▸ hm)
  | writeId left =>
    rw [hd] at hm
    obtain ⟨-, -, -, hl, -⟩ := hm.at_writeId
    have hnone := hrest.desk hserves 1
    simp only [advanceDesk, hd] at hnone
    rw [if_pos ⟨Nat.one_pos, List.length_pos_iff.mpr hl⟩] at hnone
    cases hnone
  | openReq =>
    have hnone := hrest.desk hserves 0
    simp only [advanceDesk, hd] at hnone
    cases hnone
  | inReq => exact moves_inReq hrest hserves hd (hd ▸ hm)
  | requests => exact moves_requests hrest hserves hd (hd ▸ hm) htalk
  | closed => exact moves_closed hrest hserves hd

/-! ## The loop -/

variable {frame : T → Register.Frame}

/-- What the loop is about to enqueue is the request of a client. -/
theorem run_buffer {buffer : List UInt8} (hf : Framing x frame) (hcalm : (machine x).Meets Calm tr)
    (hrun : (machine x).run tr = some s) (hm : s.register.main = .enqueue buffer) :
    ∃ t, (frame t).1 = buffer := by
  obtain ⟨done, rest, hframed⟩ :=
    Register.run_framed (run_calm hcalm hrun) ((register_part x).run hrun)
  have hdone := hframed.enqueued
  rw [show s.register.pending = [buffer] by simp [Register.State.pending, hm],
    List.filter_cons_of_pos (hframed.accepted buffer hm), List.filter_nil] at hdone
  have hbuffer : buffer ∈ done.filter Register.isSetup := by
    rw [← hdone]
    exact List.mem_append_right _ (List.mem_singleton_self buffer)
  have hwritten : buffer ∈ Register.written (loopOf x tr) := by
    rw [hframed.split]
    exact List.mem_append_left _ (List.mem_filter.mp hbuffer).1
  rw [written_eq hf hrun] at hwritten
  obtain ⟨t, -, ht⟩ := List.mem_map.mp hwritten
  exact ⟨t, ht⟩

/-- The loop waits for the next request. -/
theorem loop_waits (hx : x.Named) (hcalm : (machine x).Meets Calm tr)
    (hrun : (machine x).run tr = some s) (hterm : s.register.terminate = false)
    (hrest : s.Rests x) (hlisten : s.pool.main = .listen) :
    ∃ got, s.register.main = .reading got ∧ s.register.pipe = [] := by
  obtain ⟨frame, hf⟩ := hx.framing
  have hregister := (register_part x).run hrun
  have hmain : isEnqueue s.register.main = false → Register.advance s.register = none := by
    intro hno
    have hnone : step x s (.loop .main) = none := hrest _ trivial
    simp only [step, if_pos (show s.Loops .main from ⟨hlisten, hno⟩)] at hnone
    exact Option.map_eq_none_iff.mp hnone
  unfold Register.advance at hmain
  cases hm : s.register.main with
  | reading got =>
    refine ⟨got, rfl, ?_⟩
    obtain ⟨done, rest, hframed⟩ := Register.run_framed (run_calm hcalm hrun) hregister
    have hgot : got.length < setupRequestBufsiz := by
      simpa [Register.State.held, hm] using hframed.part
    have hnone : step x s (.loop (.read 1)) = none := hrest _ trivial
    simp only [step, if_pos (show s.Loops (.read 1) from hlisten)] at hnone
    have hread := Option.map_eq_none_iff.mp hnone
    simp only [Register.step, hm] at hread
    by_contra hpipe
    rw [if_pos ⟨Nat.one_pos, by omega, List.length_pos_iff.mpr hpipe⟩] at hread
    cases hread
  | enqueue buffer =>
    obtain ⟨t, rfl⟩ := run_buffer hf hcalm hrun hm
    have hnone : step x s (.enqueue NameArrays.zeros) = none := hrest _ trivial
    simp only [step, hm, hf.names, Option.bind_some, Pool.step, if_pos hlisten, Register.step,
      Register.advance, Option.map_some] at hnone
    cases hnone
  | stopped =>
    rw [Register.run_stopped hregister hm] at hterm
    cases hterm
  | _ =>
    rw [hm] at hmain
    cases hmain rfl

/-- Then all clients that have registered are in the queue or have been taken out of it. -/
theorem run_enqueuedAll (hx : x.Named) (hcalm : (machine x).Meets Calm tr)
    (hrun : (machine x).run tr = some s) {got : List UInt8}
    (hm : s.register.main = .reading got) (hpipe : s.register.pipe = [])
    (hlisten : s.pool.main = .listen) :
    Pool.enqueued (poolOf x tr) = (registered x tr).map x.conn := by
  obtain ⟨frame, hf⟩ := hx.framing
  obtain ⟨done, rest, hframed⟩ :=
    Register.run_framed (run_calm hcalm hrun) ((register_part x).run hrun)
  obtain ⟨-, hall⟩ := hframed.waiting hm hpipe
  obtain ⟨us, hbegins, henq, hpool⟩ := run_arrivals hx hf hcalm hrun
  have hsetups : Register.setups (Register.written (loopOf x tr)) =
      Register.written (loopOf x tr) := by
    rw [written_eq hf hrun]
    refine List.filter_eq_self.mpr fun b hb => ?_
    obtain ⟨t, -, rfl⟩ := List.mem_map.mp hb
    exact hf.setup t
  rw [hsetups, written_eq hf hrun, henq] at hall
  have hlen := congrArg List.length hall
  rw [List.length_map, List.length_map] at hlen
  rw [hlisten, hbegins.eq_of_length hlen] at hpool
  exact (List.append_nil _).symm.trans hpool

/-! ## The end -/

section Working

variable {uninit files : T → List UInt8} {junk : T → Nat → UInt8} {stack : T → Client.Stack}
  {D : T → List Decoded}

/-- Where nobody can go on, no worker has a client. -/
theorem rests_idle (hx : x.Named)
    (hw : Link.Clients.Working uninit files junk stack D x.program x.list)
    (hcalm : (machine x).Meets Calm tr) (hrun : (machine x).run tr = some s)
    (hrest : s.Rests x) (w : Fin n) : s.pool.serves w = none := by
  obtain ⟨-, hp⟩ := run_taken hx hcalm hrun
  cases hserves : s.pool.serves w with
  | none => rfl
  | some c =>
    obtain ⟨t, rfl, -⟩ := hp.known c (hp.mem w c (Pool.has_of_serves hserves))
    cases (run_inv hx hcalm hrun).stage t with
    | apart _ _ hno _ => exact absurd hserves (hno w)
    | @served v hv hm _ =>
      cases hp.serves_alone hv hserves
      exact (serving_moves hrest ((hp.serves_iff hx).mpr hserves) hm
        (Link.Clients.working_moves hw ((clients_part x).run hrun) t)).elim
    | left _ _ _ _ hno => exact absurd (Pool.has_of_serves hserves) (hno w)

/-- Then the pool rests as well. -/
theorem rests_asleep (hrun : (machine x).run tr = some s) (hterm : s.register.terminate = false)
    (hrest : s.Rests x) (hidle : ∀ w, s.pool.serves w = none) :
    s.pool.main = .listen ∧ ∀ w, s.pool.worker w = .asleep := by
  have hpool : ∀ b, (Act.pool b : Act n T).Serving → s.Turns b →
      (Pool.step s.pool b).isSome = false := by
    intro b hb ht
    have hnone := hrest _ hb
    simp only [step, if_pos ht] at hnone
    rw [Option.map_eq_none_iff.mp hnone]
    rfl
  have hworkers : ∀ w, s.pool.serves w = none →
      (Pool.step s.pool (.worker w)).isSome = false := by
    intro w hw
    refine hpool _ trivial fun hserving => ?_
    unfold Pool.State.serves at hw
    cases hp : s.pool.worker w with
    | serving c => rw [hp] at hw; cases hw
    | _ => rw [hp] at hserving; cases hserving
  obtain ⟨hlisten, hasleep⟩ := Pool.rest_of_stuck (run_running hrun hterm)
    (Pool.run_queueInv ((pool_part x).run hrun)) (hpool .main trivial trivial) hworkers
  exact ⟨hlisten, fun w => hasleep w (hidle w)⟩

/-- **Everybody is served.** There are workers, no two pipes have the same name and no `SIGINT`
has come. Where neither the server nor a client that has registered can go on, every such
client has had its worker, is done, and its session has performed its whole job file. -/
theorem all_served (hx : x.Named) (hn : 0 < n)
    (hw : Link.Clients.Working uninit files junk stack D x.program x.list)
    (hcalm : (machine x).Meets Calm tr) (hrun : (machine x).run tr = some s)
    (hterm : s.register.terminate = false) (hrest : s.Rests x) (t : T)
    (ht : s.setup t ≠ .outside) :
    x.conn t ∈ Pool.taken (poolOf x tr) ∧ (s.setup t).isConnected = true ∧
      Link.Over (s.clients.session t) ∧
      (Link.Clients.share t (Link.Clients.order x.stale x.program x.list
        ((machine x).ofPart clientsAct tr))).map Prod.fst = Client.callsFrom (stack t) 0 (D t) := by
  have hpool := (pool_part x).run hrun
  have hclients := (clients_part x).run hrun
  have hidle := rests_idle hx hw hcalm hrun hrest
  obtain ⟨hlisten, hasleep⟩ := rests_asleep hrun hterm hrest hidle
  obtain ⟨got, hm, hpipe⟩ := loop_waits hx hcalm hrun hterm hrest hlisten
  have hall := run_enqueuedAll hx hcalm hrun hm hpipe hlisten
  -- a worker is asleep, so nothing waits in the queue
  have hempty : isEmpty s.pool.queue = true := by
    refine (Pool.run_awakeInv hpool ⟨0, hn⟩ (hasleep _)).resolve_right fun hb => ?_
    rw [hlisten] at hb
    cases hb
  obtain ⟨us, -, henq, hnodup⟩ := run_enqueued hx hcalm hrun
  rw [← henq] at hnodup
  obtain ⟨nodes, hh⟩ := Pool.run_holding hpool hnodup
  have htaken : Pool.taken (poolOf x tr) = (registered x tr).map x.conn := by
    have hsplit : Pool.taken (poolOf x tr) ++ nodes.map s.pool.queue.conn =
        Pool.enqueued (poolOf x tr) := hh.split
    rw [hh.holds.isEmpty_iff.mp hempty, List.map_nil, List.append_nil, hall] at hsplit
    exact hsplit
  have hmem : x.conn t ∈ Pool.taken (poolOf x tr) := by
    rw [htaken]
    exact List.mem_map_of_mem (((run_registered hrun).2 t).mpr ht)
  have hnobody : ∀ w, s.pool.has w ≠ some (x.conn t) := by
    intro w hw
    unfold Pool.State.has at hw
    rw [hasleep w] at hw
    cases hw
  have hconnected : (s.setup t).isConnected = true ∧ IsOver (s.clients.side t).server := by
    cases (run_inv hx hcalm hrun).stage t with
    | apart _ _ _ hhas =>
      obtain ⟨w, hw⟩ := hhas hmem
      exact absurd hw (hnobody w)
    | @served w hw _ _ => rw [hidle w] at hw; cases hw
    | left hu _ hs _ _ => exact ⟨by rw [hu]; rfl, hs⟩
  obtain ⟨hconnected, hserver⟩ := hconnected
  have hover : Link.Over (s.clients.session t) := by
    rcases Link.Clients.working_moves hw hclients t with hover | ⟨a, c, hown, hstep⟩
    · exact hover
    · have htalks : s.Talks x t a := by
        rcases over_still hserver hstep with rfl | ⟨k, rfl⟩
        · exact hconnected
        · exact hconnected
      have hnone : step x s (.session t a) = none := hrest _ trivial
      simp only [step, if_pos htalks, hstep, Option.map_some] at hnone
      cases hnone
  have hworks := hw.worksOff hclients t (Link.Clients.run_others hw hclients t)
  refine ⟨hmem, hconnected, hover, ?_⟩
  rw [← Link.Clients.run_share hclients]
  exact (hworks.finished hover).1

end Working

/-- Where nobody can go on: the loop waits for a request, the workers sleep, and every client
has not registered yet or is done. -/
theorem rests_of_done {got : List UInt8} (hm : s.register.main = .reading got)
    (hpipe : s.register.pipe = []) (hlisten : s.pool.main = .listen)
    (hasleep : ∀ w, s.pool.worker w = .asleep)
    (hdone : ∀ t, s.setup t = .outside ∨ (s.setup t).isConnected = true ∧
      ∃ ret, (s.clients.side t).client = .done ret) : s.Rests x := by
  have hserves : ∀ w t, ¬ s.Serves x w t := by
    intro w t hw
    unfold State.Serves at hw
    rw [hasleep w] at hw
    exact hw
  intro a ha
  cases hs : step x s a with
  | none => rfl
  | some s' =>
    exfalso
    cases step_cases hs with
    | register => exact ha
    | @loop b r hl hr =>
      cases b with
      | write => exact ha
      | sigusr1 => exact ha
      | sigint => exact ha
      | read k =>
        simp only [Register.step, hm, hpipe] at hr
        rw [if_neg fun h => absurd (Nat.lt_of_lt_of_le h.1 h.2.2) (Nat.lt_irrefl 0)] at hr
        cases hr
      | main =>
        simp only [Register.step, Register.advance, hm] at hr
        cases hr
    | enqueue hm' => rw [hm] at hm'; cases hm'
    | leave => exact ha
    | @pool b q ht hq =>
      cases b with
      | connect => exact ht
      | shutdown => exact ht
      | main =>
        simp only [Pool.step, Pool.advanceMain, hlisten] at hq
        cases hq
      | worker w =>
        simp only [Pool.step, Pool.advance, hasleep w] at hq
        cases hq
      | spurious => exact ha
    | @setup t k u bytes hu =>
      obtain ⟨hinside, hno⟩ := setupStep_unconnected hu
      rcases hdone t with hout | ⟨hcon, -⟩
      · exact hinside hout
      · rw [hcon] at hno
        cases hno
    | desk hw => exact hserves _ _ hw
    | @session t b c ht hc =>
      obtain ⟨-, y, hy, -⟩ := Link.Clients.step_own hc
      -- a client that is connected is done
      have hclient : (s.setup t).isConnected = true →
          ∃ ret, (s.clients.side t).client = .done ret := by
        intro hcon
        rcases hdone t with hout | ⟨-, hret⟩
        · rw [hout] at hcon
          cases hcon
        · exact hret
      have hask : (s.setup t).isConnected = true → ∀ e next,
          (s.clients.session t).client = .ask e next → False := by
        intro hcon e next he
        obtain ⟨ret, hret⟩ := hclient hcon
        have he' : (s.clients.side t).client = .ask e next := he
        rw [hret] at he'
        cases he'
      cases Link.step_cases hy with
      | @client k p down bytes hio =>
        obtain ⟨ret, hret⟩ := hclient ht
        have hio' : (s.clients.side t).client.io k (s.clients.side t).down =
            some (p, down, bytes) := hio
        rw [hret] at hio'
        cases hio'
      | enter he => exact hask ht _ _ he
      | print he => exact hask ht _ _ he
      | leave he => exact hask ht _ _ he
      | quit he => exact hask ht _ _ he
      | server =>
        obtain ⟨w, hw, -⟩ := ht
        exact hserves w t hw
      | serve =>
        obtain ⟨w, hw, -⟩ := ht
        exact hserves w t hw
      | other => exact ht

/-- `main` of the client has returned. -/
def hasReturned : Client.Program UInt32 → Bool
  | .done _ => true
  | _ => false

/-- One of the two clients, with a file that asks for the list. -/
def oneListing : Setting 2 Bool :=
  { twoClients with program := fun _ => Client.session (fun _ => 7) [.listEvents] }

theorem oneListing_named : oneListing.Named :=
  ⟨twoClients_named.req, twoClients_named.resp, twoClients_named.short,
    twoClients_named.different⟩

theorem oneListing_working : Link.Clients.Working (fun _ => []) (fun _ => bytes "LIST\n")
    (fun _ _ => 7) (fun _ => Link.unwritten) (fun _ => [.listEvents]) oneListing.program
    oneListing.list := by
  have hlist : decodeAll (Client.decode []) (bytes "LIST\n") = some [.listEvents] := by decide
  refine ⟨fun _ => hlist, fun _ => Client.main_eq hlist, fun _ => ?_, ⟨[], rfl⟩,
    fun _ h => absurd h List.not_mem_nil⟩
  intro id rows cols hmem
  cases List.mem_singleton.mp hmem

/-- The session, byte by byte as the pipes give them. -/
def listing : List Link.Act :=
  [.act, .client 1, .server 1, .serve, .server 8, .client 8, .act, .server 4, .client 4, .act,
    .act, .client 1, .server 1]

/-- It is served, and everybody goes to rest. -/
def listAndRest : List (Act 2 Bool) :=
  .register true :: handOn ++ meetUp ⟨1, Nat.one_lt_two⟩ true ++ listing.map (.session true) ++
    .desk ⟨1, Nat.one_lt_two⟩ true 0 ::
      (List.replicate 7 (.pool (.worker ⟨1, Nat.one_lt_two⟩)) ++
        List.replicate 6 (.pool (.worker ⟨0, Nat.two_pos⟩)) ++ [.loop .main])

theorem all_served_listing : ∃ s, (machine oneListing).run listAndRest = some s ∧
    s.Rests oneListing ∧ s.setup true ≠ .outside ∧
    oneListing.conn true ∈ Pool.taken (poolOf oneListing listAndRest) ∧
    (Link.Clients.share true (Link.Clients.order oneListing.stale oneListing.program
      oneListing.list ((machine oneListing).ofPart clientsAct listAndRest))).map Prod.fst =
        [.listEvents] := by
  have hends : ((machine oneListing).run listAndRest).map (fun s =>
      ((s.register, s.pool.main, s.pool.worker ⟨0, Nat.two_pos⟩),
        (s.pool.worker ⟨1, Nat.one_lt_two⟩, s.setup false, s.setup true),
        hasReturned (s.clients.side true).client)) =
      some ((⟨[], false, false, .reading []⟩, .listen, .asleep),
        (.asleep, .outside, .connected 1), true) := by
    decide +kernel
  obtain ⟨s, hrun, hs⟩ := Option.map_eq_some_iff.mp hends
  obtain ⟨hpool, hrest⟩ := Prod.mk.inj hs
  obtain ⟨hregister, hpool⟩ := Prod.mk.inj hpool
  obtain ⟨hmain, hfirst⟩ := Prod.mk.inj hpool
  obtain ⟨hsides, hret⟩ := Prod.mk.inj hrest
  obtain ⟨hsecond, hsetups⟩ := Prod.mk.inj hsides
  obtain ⟨hout, hin⟩ := Prod.mk.inj hsetups
  have hdone : ∃ ret, (s.clients.side true).client = .done ret := by
    cases hc : (s.clients.side true).client with
    | done ret => exact ⟨ret, rfl⟩
    | _ => rw [hc] at hret; cases hret
  have hreading : s.register.main = .reading [] := by rw [hregister]
  have hrests : s.Rests oneListing := by
    refine rests_of_done hreading (by rw [hregister]) hmain ?_ ?_
    · exact Fin.forall_fin_two.mpr ⟨hfirst, hsecond⟩
    · exact Bool.forall_bool.mpr ⟨.inl hout, .inr ⟨by rw [hin]; rfl, hdone⟩⟩
  have hcalm : (machine oneListing).Meets Calm listAndRest := meets_calm (by decide)
  have hsetup : s.setup true ≠ .outside := by
    rw [hin]
    exact Setup.noConfusion
  obtain ⟨htaken, -, -, hcalls⟩ := all_served oneListing_named Nat.two_pos oneListing_working hcalm
    hrun (by rw [hregister]) hrests true hsetup
  exact ⟨s, hrun, hrests, hsetup, htaken, hcalls⟩

end Ems.Service
