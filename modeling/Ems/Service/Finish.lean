import Ems.Conc.Ending
import Ems.Server.Work
import Ems.Service.Progress

/-!
# Nobody goes on for ever

Without a new client and without signals the whole comes to rest, whoever is scheduled
(`comes_to_end`). A client gets closer to its end with every step of `ems_setup` and of its
session, where the operations of the others leave it where it is (`sessions_descend`). The
server gets closer to its own with every byte it reads, every step of its threads and of a worker
with its client; a worker begins anew with every client, which is paid for when it is
dequeued.
-/

namespace Ems.Service

open Base Conc Wire Proto Server Parse

variable {n : Nat} {T : Type}

/-- What is left of `ems_setup`. -/
def Setup.left : Setup → Nat
  | .outside => 0
  | .openResp => 9
  | .inResp => 8
  | .readId got => 3 + (4 - got.length)
  | .openReq _ => 2
  | .inReq _ => 1
  | .connected _ => 0

/-- What is left to a worker of its client. -/
def Desk.left : Desk → Nat
  | .openResp => 9
  | .inResp => 8
  | .writeId left => 3 + left.length
  | .openReq => 3
  | .inReq => 2
  | .requests => 1
  | .closed => 0

variable {x : Setting n T} {s s' : State n T} {w : Fin n} {t : T} {bytes : List UInt8}

theorem SetupStep.left {u : Setup} (h : SetupStep x s t u bytes) : u.left < (s.setup t).left := by
  cases h with
  | @readPart got k hu hpos hk hlen =>
    rw [List.length_append, List.length_take, Nat.min_eq_left hk] at hlen
    simp only [hu, Setup.left, List.length_append, List.length_take, Nat.min_eq_left hk]
    omega
  | readLast hu => simp only [hu, Setup.left]; omega
  | openResp hu => simp [hu, Setup.left]
  | respOpen hu => simp [hu, Setup.left]
  | openReq hu => simp [hu, Setup.left]
  | reqOpen hu => simp [hu, Setup.left]

theorem DeskStep.left {d : Desk} (h : DeskStep s w t d bytes) : d.left < (s.desk w).left := by
  cases h with
  | respOpen hd => simp [hd, Desk.left, le4_length]
  | writePart hd hpos hk =>
    simp only [hd, Desk.left, List.length_drop]
    omega
  | writeLast hd hpos => simp only [hd, Desk.left]; omega
  | openResp hd => simp [hd, Desk.left]
  | openReq hd => simp [hd, Desk.left]
  | reqOpen hd => simp [hd, Desk.left]
  | close hd => simp [hd, Desk.left]

/-! ## The whole -/

variable [DecidableEq T]

/-- What is left to the server, when `waiting` connections are in the queue. -/
def State.left (s : State n T) (waiting : Nat) : Nat :=
  s.register.left (4 + 6 * n + Pool.perNode) + s.pool.left waiting + ∑ w, (s.desk w).left

/-- A client is ahead by `ems_setup` first, then by its session. -/
def Nearer : Nat × Nat × Nat → Nat × Nat × Nat → Prop :=
  Prod.Lex (· < ·) (Prod.Lex (· < ·) (· < ·))

theorem nearer_wellFounded : WellFounded Nearer :=
  WellFounded.prod_lex wellFounded_lt (WellFounded.prod_lex wellFounded_lt wellFounded_lt)

variable {uninit files : T → List UInt8} {junk : T → Nat → UInt8} {stack : T → Client.Stack}
  {D : T → List Decoded} {tr : List (Act n T)} {a : Act n T}

/-- What is left to the clients and to the server. -/
structure Remaining (x : Setting n T) (junk : T → Nat → UInt8) (stack : T → Client.Stack)
    (D : T → List Decoded) (w : (T → Nat × Nat × Nat) × Nat) (s : State n T) : Prop where
  setup : ∀ t, (w.1 t).1 = (s.setup t).left
  session : ∀ t, Link.Clients.Ahead x.stale junk stack D s.clients t (w.1 t).2
  server : ∃ nodes, s.pool.queue.Holds nodes ∧ w.2 = s.left nodes.length

omit [DecidableEq T] in
/-- The desks of the workers, of which one perhaps begins anew. -/
theorem reset_left {b : Pool.Act n} (hdesk : ∀ w, s.pool.serves w = none → s.desk w = .openResp)
    (hturns : ∀ w, b = .worker w → isServing (s.pool.worker w) = true → s.desk w = .closed) :
    ∑ w, (s.reset b w).left ≤ (∑ w, (s.desk w).left) + s.pool.cost b := by
  cases b with
  | worker w =>
    have hsum : (∑ v, (s.reset (.worker w) v).left) + (s.desk w).left =
        (∑ v, (s.desk v).left) + (s.reset (.worker w) w).left :=
      Pool.sum_change (f := fun v => (s.desk v).left)
        (g := fun v => (s.reset (.worker w) v).left) fun v hv =>
          congrArg Desk.left (Function.update_of_ne hv ..)
    have hself : s.reset (.worker w) w = .openResp := Function.update_self ..
    rw [hself] at hsum
    cases hserves : s.pool.serves w with
    | none =>
      rw [hdesk w hserves] at hsum
      omega
    | some c =>
      have hcost : s.pool.cost (.worker w) = Pool.atClient := by
        simp [Pool.State.cost, hserves]
      rw [hturns w rfl (by rw [Pool.serves_eq.mp hserves]; rfl)] at hsum
      have hnine : Desk.openResp.left ≤ Pool.atClient := by decide
      have hzero : Desk.closed.left = 0 := rfl
      omega
  | _ => exact Nat.le_add_right _ _

theorem serving_terminate (ha : a.Serving) (h : Step x s a s') :
    s'.register.terminate = s.register.terminate := by
  cases h with
  | @loop b r hl hr =>
    cases Register.step_cases hr with
    | int => exact absurd ha id
    | intFails => exact absurd ha id
    | _ => rfl
  | _ => rfl

section Remaining

variable {w : (T → Nat × Nat × Nat) × Nat} {nodes : List Nat}

omit [DecidableEq T] in
/-- The server goes on, and the clients are where they were. -/
theorem Remaining.serve (hr : Remaining x junk stack D w s) (hleft : w.2 = s.left nodes.length)
    (hsetup : s'.setup = s.setup) (hclients : s'.clients = s.clients)
    (hless : ∃ nodes', s'.pool.queue.Holds nodes' ∧
      s'.left nodes'.length < s.left nodes.length) :
    ∃ w', Prod.Lex (Descends Nearer) (· < ·) w' w ∧ Remaining x junk stack D w' s' := by
  obtain ⟨nodes', hh', hless⟩ := hless
  refine ⟨(w.1, s'.left nodes'.length), .right _ (hleft ▸ hless), fun t => ?_, fun t => ?_,
    nodes', hh', rfl⟩
  · rw [hsetup]
    exact hr.setup t
  · rw [hclients]
    exact hr.session t

/-- A client goes on, and the other ones are where they were. The server may have more
before it than it had. -/
theorem Remaining.follow (hr : Remaining x junk stack D w s) {t : T} {v : Nat × Nat × Nat}
    (hnearer : Nearer v (w.1 t)) (hh : s'.pool.queue.Holds nodes)
    (hsetup : v.1 = (s'.setup t).left)
    (hahead : Link.Clients.Ahead x.stale junk stack D s'.clients t v.2)
    (hothers : ∀ u, u ≠ t → s'.setup u = s.setup u ∧ ∀ r,
      Link.Clients.Ahead x.stale junk stack D s.clients u r →
        Link.Clients.Ahead x.stale junk stack D s'.clients u r) :
    ∃ w', Prod.Lex (Descends Nearer) (· < ·) w' w ∧ Remaining x junk stack D w' s' := by
  have hself : Function.update w.1 t v t = v := Function.update_self ..
  have hother : ∀ u, u ≠ t → Function.update w.1 t v u = w.1 u := fun u hu =>
    Function.update_of_ne hu ..
  refine ⟨(Function.update w.1 t v, s'.left nodes.length), .left _ _ ⟨t, ?_, hother⟩,
    fun u => ?_, fun u => ?_, nodes, hh, rfl⟩
  · rw [hself]
    exact hnearer
  · by_cases hu : u = t
    · subst hu
      dsimp only
      rw [hself]
      exact hsetup
    · dsimp only
      rw [hother u hu, (hothers u hu).1]
      exact hr.setup u
  · by_cases hu : u = t
    · subst hu
      dsimp only
      rw [hself]
      exact hahead
    · dsimp only
      rw [hother u hu]
      exact (hothers u hu).2 _ (hr.session u)

end Remaining

/-- **Every step takes something off.** -/
theorem step_remaining (hx : x.Named)
    (hw : Link.Clients.Working uninit files junk stack D x.program x.list)
    (hcalm : (machine x).Meets Calm tr) (hrun : (machine x).run tr = some s)
    (hterm : s.register.terminate = false) (ha : a.Serving) (h : Step x s a s')
    {w : (T → Nat × Nat × Nat) × Nat} (hr : Remaining x junk stack D w s) :
    ∃ w', Prod.Lex (Descends Nearer) (· < ·) w' w ∧ Remaining x junk stack D w' s' := by
  have hrunning := run_running hrun hterm
  obtain ⟨nodes, hh, hleft⟩ := hr.server
  cases h with
  | register => exact absurd ha id
  | leave => exact absurd ha id
  | @loop b r hl hstep =>
    have hown : b.Own := by
      cases b with
      | read => trivial
      | main => trivial
      | _ => exact absurd ha id
    have hless := Register.step_left (4 + 6 * n + Pool.perNode) hown hstep
    refine hr.serve hleft rfl rfl ⟨nodes, hh, ?_⟩
    simp only [State.left]
    omega
  | @enqueue node buffer c q hm hc hq =>
    -- the call has been counted with the request
    have hstep : Register.step s.register .main =
        some ⟨s.register.pipe, s.register.usr1Sig, s.register.terminate, .head⟩ := by
      simp [Register.step, Register.advance, hm]
    have hless := Register.step_left (a := .main) (4 + 6 * n + Pool.perNode) trivial hstep
    have hone : (Register.leaving s.register .main).length = 1 := by simp [Register.leaving, hm]
    rw [hone, Nat.mul_one] at hless
    cases Pool.step_cases hq with
    | connect hlisten =>
      refine hr.serve hleft rfl rfl ⟨nodes, hh, ?_⟩
      simp only [State.left, Pool.State.left, Pool.MainPc.left, hlisten]
      omega
  | @pool b q ht hq =>
    have hworks : b.Works := by
      cases b with
      | main => trivial
      | worker => trivial
      | spurious => exact absurd ha id
      | _ => exact absurd ht id
    obtain ⟨nodes₁, hd⟩ := Pool.run_deliveryInv ((pool_part x).run hrun)
    rw [hd.holds.unique hh] at hd
    obtain ⟨nodes', hh', hless⟩ := Pool.step_left (Pool.step_cases hq) hworks hrunning hh hd.full
    have hreset := reset_left (b := b) (run_inv hx hcalm hrun).desk fun w hb hserving => by
      subst hb
      exact ht hserving
    refine hr.serve hleft rfl rfl ⟨nodes', hh', ?_⟩
    simp only [State.left]
    omega
  | @setup t k u bytes hu =>
    refine hr.follow (v := (u.left, (w.1 t).2)) ?_ hh ?_ (hr.session t) fun v hv =>
      ⟨?_, fun _ => id⟩
    · have hdown := hu.left
      rw [← hr.setup t] at hdown
      exact .left _ _ hdown
    · show u.left = (Function.update s.setup t u t).left
      rw [Function.update_self]
    · exact Function.update_of_ne hv ..
  | @desk v t k d bytes _ hd =>
    have hsum : (∑ u, (Function.update s.desk v d u).left) + (s.desk v).left =
        (∑ u, (s.desk u).left) + (Function.update s.desk v d v).left :=
      Pool.sum_change (f := fun u => (s.desk u).left)
        (g := fun u => (Function.update s.desk v d u).left) fun u hu =>
          congrArg Desk.left (Function.update_of_ne hu ..)
    rw [Function.update_self] at hsum
    have hdown := hd.left
    refine hr.serve hleft rfl rfl ⟨nodes, hh, ?_⟩
    simp only [State.left]
    omega
  | @session t b c _ hstep =>
    obtain ⟨⟨r, hdown, hahead⟩, hothers⟩ := Link.Clients.sessions_descend hw
      ((clients_part x).run hrun) hstep (hr.session t)
    refine hr.follow (v := ((w.1 t).1, r)) ?_ hh (hr.setup t) hahead fun u hu =>
      ⟨rfl, hothers u hu⟩
    exact .right _ hdown

/-- **Nobody goes on for ever.** From every state that a run with job files, with names that
fit and without a signal in the middle of a request or a `SIGINT` comes to: without new clients
and signals, no schedule of the server and the clients that have registered can be followed
for ever. -/
theorem comes_to_end [Finite T] (hx : x.Named)
    (hw : Link.Clients.Working uninit files junk stack D x.program x.list)
    (hcalm : (machine x).Meets Calm tr) (hrun : (machine x).run tr = some s)
    (hterm : s.register.terminate = false) : (machine x).Ends Act.Serving s := by
  have hstart : ∃ w, Remaining x junk stack D w s := by
    choose v hv using fun t => (Link.Clients.run_ahead hw ((clients_part x).run hrun) t).1
    obtain ⟨nodes, hd⟩ := Pool.run_deliveryInv ((pool_part x).run hrun)
    exact ⟨(fun t => ((s.setup t).left, v t), s.left nodes.length), fun _ => rfl, hv, nodes,
      hd.holds, rfl⟩
  obtain ⟨w, hr⟩ := hstart
  refine Machine.ends_of (I := fun w tr s => (machine x).Meets Calm tr ∧
      (machine x).run tr = some s ∧ s.register.terminate = false ∧ Remaining x junk stack D w s)
    (WellFounded.prod_lex (descends_finite nearer_wellFounded) wellFounded_lt) ?_
    ⟨hcalm, hrun, hterm, hr⟩
  rintro w tr s a s' ha ⟨hcalm, hrun, hterm, hr⟩ h
  obtain ⟨w', hdown, hr'⟩ := step_remaining hx hw hcalm hrun hterm ha (step_cases h) hr
  have hquiet : isSignal a = false := by
    cases a with
    | loop b =>
      cases b with
      | sigusr1 => exact absurd ha id
      | sigint => exact absurd ha id
      | _ => rfl
    | _ => rfl
  exact ⟨w', hdown, hcalm.snoc hrun (calm_of_quiet hquiet s),
    (machine x).run_snoc.mpr ⟨s, hrun, h⟩, (serving_terminate ha (step_cases h)).trans hterm, hr'⟩

/-- Both clients have registered, and nobody has done anything yet. -/
theorem comes_to_end_bothRegister : ∃ s,
    (machine oneListing).run [.register true, .register false] = some s ∧
      (machine oneListing).Ends Act.Serving s := by
  have hends : ((machine oneListing).run [.register true, .register false]).map
      (fun s => s.register.terminate) = some false := by decide +kernel
  obtain ⟨s, hrun, hterm⟩ := Option.map_eq_some_iff.mp hends
  exact ⟨s, hrun, comes_to_end oneListing_named oneListing_working (meets_calm (by decide)) hrun
    hterm⟩

end Ems.Service
