import Ems.Conc.Part
import Ems.Proto.Clients
import Ems.Server.Effect

/-!
# Operations step by step

In `Link.lean` an operation is one step. Here it is what it is in `Server/Sessions.lean`: the
session calls it, goes through its lock calls, its stores and its writes with those of the
others in between, and returns. `run_serves` says that this makes no difference to the
clients: to every such run there is one of `Clients.machine` in which each client does and
prints the same, and in which an operation is performed where it takes effect
(`Server/Effect.lean`). Runs in which a `SHOW` of an event sends while a `RESERVE` of it
stores its seats are left out (`Apart`).

`Ahead` is the relation between the two. A session whose operation has taken effect has its
reply in `Clients.machine` already and is still on its way here.

Mirroring notes:
- What an operation sends gets into the pipe when it has returned; no operation waits for the
  reader of the pipe.
- A session has the number of its client.
-/

namespace Ems.Proto.Link

open Base Conc Wire Server Client Parse

/-! ## The machine -/

/-- The action is one of the client or of its session, and no operation. -/
def Act.Quiet : Act → Prop
  | .serve => False
  | .other _ => False
  | _ => True

/-- The session's program, with the reply that its operation will return. -/
def replied (stale : Nat → UInt8) (server : Proto.Server) : Option Reply → Proto.Server
  | none => server
  | some reply =>
    match server with
    | .ask _ next => resume stale (next reply).settle
    | _ => server

def Side.ahead (stale : Nat → UInt8) (x : Side) (reply : Option Reply) : Side :=
  { x with server := replied stale x.server reply }

namespace Stepwise

/-- All clients with their sessions, and the server with its locks. -/
structure State where
  side : Tid → Side
  sessions : Server.State

/-- A client or its session reads, writes or prints; a session calls an operation, goes one
step through it, returns from it. -/
inductive Act where
  | side (t : Tid) (a : Link.Act)
  | call (t : Tid)
  | turn (t : Tid) (c : Choice)
  | ret (t : Tid)

/-- The session of `t` at the store. -/
def State.session (s : State) (t : Tid) : Link.State := (s.side t).with s.sessions.list

def step (stale : Tid → Nat → UInt8) (s : State) : Act → Option State
  | .side _ .serve => none
  | .side _ (.other _) => none
  | .side t a =>
    (Link.step (stale t) (s.session t) a).map fun x =>
      { s with side := Function.update s.side t x.side }
  | .call t =>
    match (s.side t).server with
    | .ask c _ => (Server.step s.sessions (.call t c.op)).map fun v => { s with sessions := v }
    | _ => none
  | .turn t c => (Server.step s.sessions (.step t c)).map fun v => { s with sessions := v }
  | .ret t =>
    match s.sessions.pc t with
    | .done reply =>
      match (s.side t).server with
      | .ask _ _ =>
        (Server.step s.sessions (.ret t)).map fun v =>
          ⟨Function.update s.side t ((s.side t).ahead (stale t) (some reply)), v⟩
      | _ => none
    | _ => none

/-- Clients with these programs, and a fresh server. -/
def machine (stale : Tid → Nat → UInt8) (p : Tid → Program UInt32) : Machine State Act :=
  ⟨⟨fun t => ⟨p t, handleRequest (stale t), [], [], []⟩, Server.State.init⟩, step stale⟩

/-- The step of the server's operations. -/
def operates (s : State) : Act → Option Server.Act
  | .side _ _ => none
  | .call t =>
    match (s.side t).server with
    | .ask c _ => some (.call t c.op)
    | _ => none
  | .turn t c => some (.step t c)
  | .ret t => some (.ret t)

/-- What the client `t` or its session does of a kind. -/
def outOf {O : Type} (out : Link.State → Link.Act → List O) (t : Tid) (s : State) : Act → List O
  | .side u a => if u = t then out (s.session t) a else []
  | _ => []

/-- What it has done in a run. -/
def logOf {O : Type} (out : Link.State → Link.Act → List O) (stale : Tid → Nat → UInt8)
    (p : Tid → Program UInt32) (t : Tid) (tr : List Act) : List O :=
  (machine stale p).log (outOf out t) tr

/-- Every allocation succeeds. -/
def Act.Granted : Act → Prop
  | .turn _ c => c.alloc = Alloc.allOk
  | _ => True

/-- No `SHOW` of an event sends while a `RESERVE` of it stores its seats. -/
def Apart (s : State) : Act → Prop
  | .turn t c => Server.Apart s.sessions (.step t c)
  | _ => True

/-! ## What one step can do -/

inductive Step (stale : Tid → Nat → UInt8) : State → Act → State → Prop where
  | side {s t a x} (ha : a.Quiet) (h : Link.step (stale t) (s.session t) a = some x) :
      Step stale s (.side t a) { s with side := Function.update s.side t x.side }
  | call {s t c next v} (hask : (s.side t).server = .ask c next)
      (h : Server.step s.sessions (.call t c.op) = some v) :
      Step stale s (.call t) { s with sessions := v }
  | turn {s t c v} (h : Server.step s.sessions (.step t c) = some v) :
      Step stale s (.turn t c) { s with sessions := v }
  | ret {s t reply c next v} (hp : s.sessions.pc t = .done reply)
      (hask : (s.side t).server = .ask c next) (h : Server.step s.sessions (.ret t) = some v) :
      Step stale s (.ret t)
        ⟨Function.update s.side t ((s.side t).ahead (stale t) (some reply)), v⟩

variable {stale : Tid → Nat → UInt8} {p : Tid → Program UInt32} {tr : List Act} {s s' : State}
  {a : Act}

theorem step_cases (h : step stale s a = some s') : Step stale s a s' := by
  cases a with
  | side t a =>
    have hside : a.Quiet → (Link.step (stale t) (s.session t) a).map (fun x =>
        { s with side := Function.update s.side t x.side }) = some s' →
        Step stale s (.side t a) s' := by
      intro ha h
      obtain ⟨x, hx, rfl⟩ := Option.map_eq_some_iff.mp h
      exact .side ha hx
    cases a with
    | serve => cases h
    | other op => cases h
    | client k => exact hside trivial h
    | act => exact hside trivial h
    | server k => exact hside trivial h
  | call t =>
    simp only [step] at h
    cases hask : (s.side t).server <;> simp only [hask] at h
    case ask c next =>
      obtain ⟨v, hv, rfl⟩ := Option.map_eq_some_iff.mp h
      exact .call hask hv
    all_goals cases h
  | turn t c =>
    obtain ⟨v, hv, rfl⟩ := Option.map_eq_some_iff.mp h
    exact .turn hv
  | ret t =>
    simp only [step] at h
    cases hp : s.sessions.pc t <;> simp only [hp] at h
    case done reply =>
      cases hask : (s.side t).server <;> simp only [hask] at h
      case ask c next =>
        obtain ⟨v, hv, rfl⟩ := Option.map_eq_some_iff.mp h
        exact .ret hp hask hv
      all_goals cases h
    all_goals cases h

/-- The operations of the server are a run of its sessions. -/
theorem sessions_part :
    Machine.Part (machine stale p) Server.machine State.sessions operates where
  init := rfl
  step {s a s'} h := by
    cases step_cases h with
    | side => rfl
    | call hask hv =>
      simp only [operates, hask]
      exact Machine.runFrom_one hv
    | turn hv => exact Machine.runFrom_one hv
    | ret hp hask hv => exact Machine.runFrom_one hv

theorem run_sessions (hrun : (machine stale p).run tr = some s) :
    Server.machine.run ((machine stale p).ofPart operates tr) = some s.sessions :=
  sessions_part.run hrun

/-! ## What an operation is called with -/

/-- A session that is in an operation has asked for it. -/
def AskedInv (s : State) : Prop :=
  ∀ t, s.sessions.pc t ≠ .idle → ∃ c next, (s.side t).server = .ask c next ∧
    (s.sessions.pc t).Serves s.sessions.list c.op

/-- A session in an operation reads and writes nothing meanwhile. -/
theorem quiet_server {t : Tid} {b : Link.Act} {x : Link.State} {l : EventList} {y : Side}
    (hb : b.Quiet) (h : Link.step (stale t) (y.with l) b = some x) {c : Call}
    {next : Reply → Proto.Server} (hask : y.server = .ask c next) : x.side.server = y.server := by
  cases Link.step_cases h with
  | server hio =>
    rw [show (y.with l).server = y.server from rfl, hask] at hio
    cases hio
  | serve => exact absurd hb id
  | other => exact absurd hb id
  | _ => rfl

theorem step_askedInv (hrun : (machine stale p).run tr = some s) (hg : a.Granted)
    (h : Step stale s a s') (hi : AskedInv s) : AskedInv s' := by
  have hsessions := run_sessions hrun
  cases h with
  | @side t b x hb h =>
    intro u hu
    obtain ⟨c, next, hask, hserves⟩ := hi u hu
    refine ⟨c, next, ?_, hserves⟩
    show (Function.update s.side t x.side u).server = _
    by_cases hut : u = t
    · subst hut
      rw [Function.update_self, quiet_server hb h hask]
      exact hask
    · rw [Function.update_of_ne hut]
      exact hask
  | @call t c next v hask h =>
    have hs := Server.step_cases h
    intro u hu
    by_cases hut : u = t
    · subst hut
      refine ⟨c, next, hask, ?_⟩
      cases hs with
      | call hp =>
        rw [goto_self]
        exact c.op.entry_serves _
    · have hpc := step_pc_other hs (u := u) (Ne.symm hut)
      obtain ⟨c', next', hask', hserves⟩ := hi u (by rw [← hpc]; exact hu)
      exact ⟨c', next', hask', serves_other hs (Ne.symm hut) hserves⟩
  | @turn t c v h =>
    have hs := Server.step_cases h
    intro u hu
    by_cases hut : u = t
    · subst hut
      have hbusy : s.sessions.pc u ≠ .idle := by
        intro hidle
        simp [Server.step, advance, hidle] at h
      obtain ⟨c', next', hask', hserves⟩ := hi u hbusy
      exact ⟨c', next', hask', serves_step hs hg (run_mutexInv hsessions) (run_aimInv hsessions)
        (run_seenInv hsessions) hserves⟩
    · have hpc := step_pc_other hs (u := u) (Ne.symm hut)
      obtain ⟨c', next', hask', hserves⟩ := hi u (by rw [← hpc]; exact hu)
      exact ⟨c', next', hask', serves_other hs (Ne.symm hut) hserves⟩
  | @ret t reply c next v hp hask h =>
    have hs := Server.step_cases h
    intro u hu
    by_cases hut : u = t
    · subst hut
      cases hs with
      | ret hp => exact absurd (goto_self ..) hu
    · have hpc := step_pc_other hs (u := u) (Ne.symm hut)
      obtain ⟨c', next', hask', hserves⟩ := hi u (by rw [← hpc]; exact hu)
      refine ⟨c', next', ?_, serves_other hs (Ne.symm hut) hserves⟩
      show (Function.update s.side t _ u).server = _
      rw [Function.update_of_ne hut]
      exact hask'

/-! ## The two machines -/

/-- In `g` every operation has been performed that has taken effect in `s`. -/
structure Ahead (stale : Tid → Nat → UInt8) (s : State) (g : Clients Tid) : Prop where
  list : g.list = s.sessions.settled
  side : ∀ t, g.side t = (s.side t).ahead (stale t) (s.sessions.pc t).reply

/-- What a client does and prints is its own matter. -/
structure Visible {O : Type} (out : Link.State → Link.Act → List O) : Prop where
  serve : ∀ x, out x .serve = []
  client : ∀ x y a, x.client = y.client → x.out = y.out → out x a = out y a

/-- What a client or its session does by itself, it does as well when the reply is there. -/
theorem step_ahead {f : Nat → UInt8} {y : Side} {l : EventList} {b : Link.Act}
    {x : Link.State} {r : Option Reply} (l' : EventList) (hb : b.Quiet)
    (h : Link.step f (y.with l) b = some x)
    (hask : r ≠ none → ∃ c next, y.server = .ask c next) :
    Link.step f ((y.ahead f r).with l') b = some ((x.side.ahead f r).with l') := by
  cases Link.step_cases h with
  | client hio =>
    simp only [Link.step]
    rw [show ((y.ahead f r).with l').client.io _ ((y.ahead f r).with l').down = _ from hio]
    rfl
  | enter hc =>
    simp only [Link.step]
    rw [show ((y.ahead f r).with l').client = _ from hc]
    rfl
  | print hc =>
    simp only [Link.step]
    rw [show ((y.ahead f r).with l').client = _ from hc]
    rfl
  | leave hc =>
    simp only [Link.step]
    rw [show ((y.ahead f r).with l').client = _ from hc]
    rfl
  | quit hc =>
    simp only [Link.step]
    rw [show ((y.ahead f r).with l').client = _ from hc]
    rfl
  | server hio =>
    -- a session in an operation does nothing else
    cases r with
    | none =>
      simp only [Link.step]
      rw [show ((y.ahead f none).with l').server.io _ ((y.ahead f none).with l').up = _ from hio]
      rfl
    | some reply =>
      obtain ⟨c, next, hserver⟩ := hask (by simp)
      rw [show (y.with l).server = y.server from rfl, hserver] at hio
      cases hio
  | serve => exact absurd hb id
  | other => exact absurd hb id

/-- Clients that are ahead stay so when nothing takes effect. -/
theorem Ahead.still {g : Clients Tid} (h : Ahead stale s g) {v : Server.State} {t : Tid}
    (hsettled : v.settled = s.sessions.settled)
    (hother : ∀ u, u ≠ t → v.pc u = s.sessions.pc u)
    (hown : (v.pc t).reply = (s.sessions.pc t).reply) :
    Ahead stale { s with sessions := v } g where
  list := h.list.trans hsettled.symm
  side u := by
    rw [h.side u]
    show _ = (s.side u).ahead (stale u) (v.pc u).reply
    by_cases hut : u = t
    · rw [hut, hown]
    · rw [hother u hut]

/-- Where an operation takes effect it is performed. -/
theorem Ahead.serve {g : Clients Tid} (h : Ahead stale s g) {v : Server.State} {t : Tid}
    {c : Call} {next : Reply → Proto.Server} (hask : (s.side t).server = .ask c next)
    (hbefore : (s.sessions.pc t).reply = none)
    (hafter : (v.pc t).reply = some (c.op.exec s.sessions.settled).1)
    (hsettled : v.settled = (c.op.exec s.sessions.settled).2)
    (hother : ∀ u, u ≠ t → v.pc u = s.sessions.pc u) :
    ∃ g', Clients.step stale g (t, .serve) = some g' ∧ Ahead stale { s with sessions := v } g' := by
  have hside : g.side t = s.side t := by
    rw [h.side t, hbefore]
    rfl
  have hserver : (g.session t).server = .ask c next := by
    show (g.side t).server = _
    rw [hside]
    exact hask
  have hlist : (g.session t).list = s.sessions.settled := h.list
  refine ⟨_, by simp only [Clients.step, Link.step, hserver]; rfl, ?_, fun u => ?_⟩
  · show (c.op.exec (g.session t).list).2 = v.settled
    rw [hlist, hsettled]
  · by_cases hut : u = t
    · subst hut
      show Function.update g.side u _ u = (s.side u).ahead (stale u) (v.pc u).reply
      rw [Function.update_self, hafter, ← hside]
      show Side.mk _ _ _ _ _ = Side.mk _ _ _ _ _
      congr 1
      show resume _ _ = replied _ (g.side u).server _
      rw [hside, hask]
      show _ = resume (stale u) (next (c.op.exec s.sessions.settled).1).settle
      rw [← hlist]
      rfl
    · show Function.update g.side t _ u = (s.side u).ahead (stale u) (v.pc u).reply
      rw [Function.update_of_ne hut, h.side u, hother u hut]

/-- One step of an operation: nothing takes effect, or the operation does. -/
theorem turn_ahead {g : Clients Tid} {t : Tid} {c : Choice} {v : Server.State}
    (hrun : (machine stale p).run tr = some s) (hg : c.alloc = Alloc.allOk)
    (hapart : Server.Apart s.sessions (.step t c)) (hi : AskedInv s) (hsent : SentInv s.sessions)
    (h : Server.step s.sessions (.step t c) = some v) (hahead : Ahead stale s g) :
    Ahead stale { s with sessions := v } g ∨
      ∃ g', Clients.step stale g (t, .serve) = some g' ∧
        Ahead stale { s with sessions := v } g' := by
  have hsessions := run_sessions hrun
  have hm := run_mutexInv hsessions
  have hs := Server.step_cases h
  have hother : ∀ u, u ≠ t → v.pc u = s.sessions.pc u := fun u hu =>
    step_pc_other hs (Ne.symm hu)
  have hbusy : s.sessions.pc t ≠ .idle := by
    intro hidle
    simp [Server.step, advance, hidle] at h
  obtain ⟨op, next, hask, hserves⟩ := hi t hbusy
  have hpoint := own_point hs hg hm (run_aimInv hsessions) (run_seenInv hsessions)
  by_cases hidle : (s.sessions.pc t).status = .idle
  · -- in `ems_show` nothing changes what the store will be
    have hsettled : v.settled = s.sessions.settled := by
      rcases hpoint with ⟨-, hsettled⟩ | ⟨op', hb, -⟩
      · exact hsettled
      · cases hidle.symm.trans hb
    have hstill : (v.pc t).reply = (s.sessions.pc t).reply →
        Ahead stale { s with sessions := v } g := hahead.still hsettled hother
    cases hs
    case showLock id l hp hl => exact .inl (hstill (by rw [goto_self, hp]; rfl))
    case showLookup id hp =>
      generalize hfound : getEvent s.sessions.list id = event at hother hstill hsettled ⊢
      cases event with
      | some e => exact .inl (hstill (by rw [goto_self, hp]; rfl))
      | none =>
        -- there is no such event
        rw [hp] at hserves
        have hexec : op.op.exec s.sessions.settled = (.matrix 0 0 [] 1, s.sessions.settled) := by
          rw [show op.op = .showEvent id from hserves]
          show (Server.emsShow s.sessions.settled id, s.sessions.settled) = _
          unfold Server.emsShow
          rw [settled_getEvent, hfound]
          rfl
        refine .inr (hahead.serve hask (by rw [hp]; rfl) ?_ ?_ hother)
        · rw [goto_self, hexec]
          rfl
        · rw [hexec]
          exact hsettled
    case showUnlist event hp =>
      refine .inl (hstill ?_)
      rw [goto_self, hp]
      cases event <;> rfl
    case showMissing hp => exact .inl (hstill (by rw [goto_self, hp]; rfl))
    case showHeader e hp => exact .inl (hstill (by rw [goto_self, hp]; rfl))
    case showWrite e sent event he hn hp hc => exact .inl (hstill (by rw [goto_self, hp]; rfl))
    case showSent e sent event he hn hp =>
      -- all of the matrix, as it is now
      rw [hp] at hserves
      obtain ⟨id, hop, hfound⟩ := hserves
      simp only [Server.Apart, hp] at hapart
      have hsized := run_sizedInv hsessions e event he
      have hall : sent = event.bytes := by
        have hprefix := (hsent t e sent event hp he).1
        rw [hsized.byteSize] at hn
        rw [List.take_of_length_le (by rw [Event.bytes_length]; exact hn)] at hprefix
        exact hprefix
      have hexec := exec_show hfound he (finish_of_apart hapart hm event)
      rw [← hop, hsized.take_bytes, ← hall] at hexec
      refine .inr (hahead.serve hask (by rw [hp]; rfl) ?_ ?_ hother)
      · rw [goto_self, hexec]
        rfl
      · rw [hexec]
        exact hsettled
    all_goals simp_all [Pc.status]
  · rcases hpoint with ⟨hsame, hsettled⟩ | ⟨op', hb, ha, hsettled⟩
    · refine .inl (hahead.still hsettled hother ?_)
      cases hst : (s.sessions.pc t).status with
      | idle => exact absurd hst hidle
      | before op' => rw [Pc.reply_of_before hst, Pc.reply_of_before (hsame.trans hst)]
      | after reply => rw [Pc.reply_of_after hst, Pc.reply_of_after (hsame.trans hst)]
    · have hop : op' = op.op := (Pc.serves_of_status hidle).mp hserves op' hb
      subst hop
      exact .inr (hahead.serve hask (Pc.reply_of_before hb) (Pc.reply_of_after ha) hsettled hother)

/-! ## The run -/

/-- Every step here is a step there, or none. -/
theorem step_simulates {g : Clients Tid} (hrun : (machine stale p).run tr = some s)
    (hg : a.Granted) (hapart : Apart s a) (hi : AskedInv s) (hsent : SentInv s.sessions)
    (h : Step stale s a s') (hahead : Ahead stale s g) :
    ((∀ t b, a ≠ .side t b) ∧ Ahead stale s' g) ∨
    ((∀ t b, a ≠ .side t b) ∧ ∃ t g', Clients.step stale g (t, .serve) = some g' ∧
      Ahead stale s' g') ∨
    ∃ t b g', a = .side t b ∧ Clients.step stale g (t, b) = some g' ∧ Ahead stale s' g' := by
  cases h with
  | @side t b x hb h =>
    have hask : (s.sessions.pc t).reply ≠ none → ∃ c next, (s.side t).server = .ask c next := by
      intro hreply
      obtain ⟨c, next, hask, -⟩ := hi t fun hidle => hreply (by rw [hidle]; rfl)
      exact ⟨c, next, hask⟩
    have hstep := step_ahead g.list hb h hask
    rw [← hahead.side t] at hstep
    have hown : b.Own := by cases b <;> trivial
    refine .inr (.inr ⟨t, b, _, rfl, Clients.own_step (s := g) hown hstep, hahead.list, fun u => ?_⟩)
    by_cases hut : u = t
    · subst hut
      show Function.update g.side u _ u = (Function.update s.side u _ u).ahead _ _
      rw [Function.update_self, Function.update_self]
      rfl
    · show Function.update g.side t _ u = (Function.update s.side t _ u).ahead _ _
      rw [Function.update_of_ne hut, Function.update_of_ne hut]
      exact hahead.side u
  | @call t c next v hask h =>
    have hs := Server.step_cases h
    refine .inl ⟨by simp, hahead.still (t := t) (settled_call hs) (fun u hu =>
      step_pc_other hs (Ne.symm hu)) ?_⟩
    cases hs with
    | call hp =>
      rw [goto_self, hp]
      exact Op.entry_reply _
  | @turn t c v h =>
    rcases turn_ahead hrun hg hapart hi hsent h hahead with hstill | hserve
    · exact .inl ⟨by simp, hstill⟩
    · exact .inr (.inl ⟨by simp, t, hserve⟩)
  | @ret t reply c next v hp hask h =>
    have hs := Server.step_cases h
    refine .inl ⟨by simp, hahead.list.trans (settled_ret hs).symm, fun u => ?_⟩
    show g.side u = (Function.update s.side t _ u).ahead (stale u) (v.pc u).reply
    rw [hahead.side u]
    by_cases hut : u = t
    · subst hut
      cases hs with
      | ret _ =>
        rw [Function.update_self, goto_self, hp]
        rfl
    · rw [Function.update_of_ne hut, step_pc_other hs (Ne.symm hut)]

/-- **The operations of the server may be seen as single steps.** To every run in which they
go on step by step there is one in which they are performed at once, with the same clients:
each does and prints the same, and where no operation is under way both sides of every
session, the pipes and the store are the same as well. -/
theorem run_serves (hg : ∀ a ∈ tr, a.Granted) (hapart : (machine stale p).Meets Apart tr)
    (hrun : (machine stale p).run tr = some s) :
    ∃ tr' g, (Clients.machine stale p Server.createList).run tr' = some g ∧ Ahead stale s g ∧
      (∀ {O : Type} {out : Link.State → Link.Act → List O}, Visible out → ∀ t,
        Clients.logOf out stale p Server.createList t tr' = logOf out stale p t tr) ∧
      ((∀ t, s.sessions.pc t = .idle) → g = ⟨s.side, s.sessions.list⟩) := by
  have hinv : AskedInv s ∧ SentInv s.sessions ∧
      ∃ tr' g, (Clients.machine stale p Server.createList).run tr' = some g ∧ Ahead stale s g ∧
        ∀ {O : Type} {out : Link.State → Link.Act → List O}, Visible out → ∀ t,
          Clients.logOf out stale p Server.createList t tr' = logOf out stale p t tr := by
    refine (machine stale p).run_invariant_of_meets
      (C := fun s a => a.Granted ∧ Apart s a)
      (I := fun tr s => AskedInv s ∧ SentInv s.sessions ∧
        ∃ tr' g, (Clients.machine stale p Server.createList).run tr' = some g ∧
          Ahead stale s g ∧ ∀ {O : Type} {out : Link.State → Link.Act → List O}, Visible out →
            ∀ t, Clients.logOf out stale p Server.createList t tr' = logOf out stale p t tr)
      ⟨fun t h => absurd rfl h, nofun, [], _, rfl, ⟨rfl, fun _ => rfl⟩, fun _ _ => rfl⟩ ?_ tr s
      (fun before a after s htr hs => ⟨hg a (by rw [htr]; simp), hapart before a after s htr hs⟩)
      hrun
    rintro tr s a s' hrun ⟨hg, hapart⟩ ⟨hi, hsent, tr', g, hg', hahead, hlog⟩ hstep
    have h := step_cases hstep
    have hsessions := run_sessions hrun
    refine ⟨step_askedInv hrun hg h hi, ?_, ?_⟩
    · cases h with
      | side => exact hsent
      | call _ h =>
        exact step_sentInv (Server.step_cases h) trivial (run_sizedInv hsessions)
          (run_targetInv hsessions) hsent
      | turn h =>
        exact step_sentInv (Server.step_cases h) hapart (run_sizedInv hsessions)
          (run_targetInv hsessions) hsent
      | ret _ _ h =>
        exact step_sentInv (Server.step_cases h) trivial (run_sizedInv hsessions)
          (run_targetInv hsessions) hsent
    have hsnoc : ∀ {O : Type} {out : Link.State → Link.Act → List O} (t : Tid),
        logOf out stale p t (tr ++ [a]) = logOf out stale p t tr ++ outOf out t s a :=
      fun t => (machine stale p).log_snoc _ hrun hstep
    rcases step_simulates hrun hg hapart hi hsent h hahead with
      ⟨hno, hahead'⟩ | ⟨hno, t, g', hserve, hahead'⟩ | ⟨t, b, g', rfl, hstep', hahead'⟩
    · refine ⟨tr', g, hg', hahead', fun hout u => ?_⟩
      rw [hsnoc, hlog hout]
      cases a with
      | side t b => exact absurd rfl (hno t b)
      | _ => exact (List.append_nil _).symm
    · change (Clients.machine stale p Server.createList).step g (t, .serve) = some g' at hserve
      refine ⟨tr' ++ [(t, .serve)], g', Machine.run_snoc _ |>.mpr ⟨g, hg', hserve⟩, hahead',
        fun {O out} hout u => ?_⟩
      have hnone : outOf out u s a = [] := by
        cases a with
        | side t b => exact absurd rfl (hno t b)
        | _ => rfl
      rw [hsnoc, hnone, List.append_nil, ← hlog hout]
      refine (Machine.log_snoc _ _ hg' hserve).trans ?_
      dsimp only
      rw [hout.serve]
      split <;> exact List.append_nil _
    · change (Clients.machine stale p Server.createList).step g (t, b) = some g' at hstep'
      refine ⟨tr' ++ [(t, b)], g', Machine.run_snoc _ |>.mpr ⟨g, hg', hstep'⟩, hahead',
        fun {O out} hout u => ?_⟩
      rw [hsnoc, ← hlog hout]
      refine (Machine.log_snoc _ _ hg' hstep').trans (congrArg (_ ++ ·) ?_)
      show (if t = u then out (g.session u) b else []) = if t = u then out (s.session u) b else []
      split
      next htu =>
        subst htu
        refine hout.client _ _ b ?_ ?_
        · show (g.side t).client = (s.side t).client
          rw [hahead.side t]
          rfl
        · show (g.side t).out = (s.side t).out
          rw [hahead.side t]
          rfl
      next => rfl
  obtain ⟨-, -, tr', g, hg', hahead, hlog⟩ := hinv
  refine ⟨tr', g, hg', hahead, hlog, fun hidle => ?_⟩
  have hside : g.side = s.side := by
    funext t
    rw [hahead.side t, hidle t]
    rfl
  have hlist : g.list = s.sessions.list := by
    rw [hahead.list]
    refine settled_quiet (run_mutexInv (run_sessions hrun)) fun t => ?_
    unfold Server.State.status
    rw [hidle t]
    rfl
  rw [← hside, ← hlist]

/-! ## Job files -/

theorem visible_returned : Visible returned where
  serve _ := rfl
  client x y a hclient hout := by
    cases a with
    | act =>
      simp only [returned, hclient]
      cases y.client with
      | ask q next => cases q <;> first | rfl | rw [hout]
      | _ => rfl
    | _ => rfl

theorem visible_writes : Visible writes where
  serve _ := rfl
  client x y a hclient hout := by
    cases a with
    | act => simp only [writes, hclient]
    | _ => rfl

/-- **Clients with job files**, and operations that go on step by step: there is an order of
calls executed in turn in which each client's own ones are a beginning of its file's
commands, in file order; its calls have returned what they return in that order, and its
`.out` file holds what they print there. Where no operation is under way the order ends in
the store of the server. -/
theorem files_worked_off {uninit files : Tid → List UInt8} {junk : Tid → Nat → UInt8}
    {stack : Tid → Stack} {D : Tid → List Decoded}
    (hw : Clients.Working uninit files junk stack D p Server.createList)
    (hg : ∀ a ∈ tr, a.Granted) (hapart : (machine stale p).Meets Apart tr)
    (hrun : (machine stale p).run tr = some s) :
    ∃ (order : List (Tid × Call × EventList)) (g : Clients Tid), Ahead stale s g ∧
      order.map Prod.snd = inTurn Server.createList (order.map fun x => x.2.1) ∧
      (∀ t, WorksOff (callsFrom (stack t) 0 (D t)) (Clients.share t order)
        (logOf returned stale p t tr) (logOf writes stale p t tr) (g.session t)) ∧
      ((∀ t, s.sessions.pc t = .idle) →
        s.sessions.list = execCalls Server.createList (order.map fun x => x.2.1) ∧
        ∀ t, g.session t = s.session t) := by
  obtain ⟨tr', g, hrun', hahead, hlog, hidle⟩ := run_serves hg hapart hrun
  obtain ⟨hturn, hlist⟩ := Clients.run_order hrun'
  refine ⟨_, g, hahead, hturn, fun t => ?_, fun hrest => ?_⟩
  · rw [← Clients.run_share hrun', ← hlog visible_returned, ← hlog visible_writes]
    exact hw.worksOff hrun' t (Clients.run_others hw hrun' t)
  · rw [hidle hrest] at hlist ⊢
    exact ⟨hlist, fun t => rfl⟩

end Stepwise

end Ems.Proto.Link
