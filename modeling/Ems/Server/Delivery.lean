import Ems.Server.Pool

/-!
# What the queue hands over

The connections of the main thread reach the workers once each and in order
(`delivers_once`), and none of them waits while a worker sleeps beside it
(`no_idle_sleeper`). Both are about all runs, with any number of workers.

The first is an account of addresses: a node is fresh when it is linked, leaves
the queue by `take` and is then with one worker only, so nobody writes to it
again and its paths are the ones it was filled with. The second rests on where
the lock is: a worker falls asleep while it still has `queue_lock` and the queue
is empty, and main does not give the lock back between linking a node and the
broadcast.
-/

namespace Ems.Server.Pool

open Conc Base

variable {n : Nat}

/-- The connection a step links. -/
def arrived (s : State n) : Act n → List Connection
  | .main =>
    match s.main with
    | .enqueuePush connection => [connection]
    | _ => []
  | _ => []

/-- The node a step takes out of the queue. -/
def departed (s : State n) : Act n → List Nat
  | .worker w => if s.worker w = .take then (dequeueConnection s.queue).1.toList else []
  | _ => []

/-- The connections of a run, in the order in which they were enqueued. -/
def enqueued (tr : List (Act n)) : List Connection := (machine n).log arrived tr

/-- The nodes handed to workers, in the order in which they were dequeued. -/
def handed (tr : List (Act n)) : List Nat := (machine n).log departed tr

/-- The node a worker has dequeued and not yet copied. -/
def WorkerPc.carries : WorkerPc → Option Nat
  | .unlockTaken connection => connection
  | .copy connection => some connection
  | _ => none

@[simp] theorem arrived_worker (s : State n) (w : Fin n) : arrived s (.worker w) = [] := rfl

theorem departed_worker {s : State n} {w : Fin n} (h : s.worker w ≠ .take) :
    departed s (.worker w) = [] := if_neg h

/-! ## Once each, in order -/

/-- Every node that was ever linked is still in the queue or was handed over; its
paths are what it was enqueued with, and at most one worker has it. -/
structure DeliveryInv (sent : List Connection) (gone : List Nat) (s : State n)
    (nodes : List Nat) : Prop where
  holds : s.queue.Holds nodes
  names : (gone ++ nodes).map s.queue.conn = sent
  nodup : (gone ++ nodes).Nodup
  old : ∀ a ∈ gone, a < s.queue.fresh
  full : ∀ w, s.worker w = .take → nodes ≠ []
  carried : ∀ w a, (s.worker w).carries = some a → a ∈ gone
  alone : ∀ w v a, (s.worker w).carries = some a → (s.worker v).carries = some a → w = v

theorem deliveryInv_init : DeliveryInv [] [] (State.init : State n) [] where
  holds := initQueue_holds
  names := rfl
  nodup := List.nodup_nil
  old := by simp
  full := nofun
  carried := nofun
  alone := nofun

/-- A step that leaves the queue alone, gives nobody a node and sends nobody to
`take` unless there is one. -/
theorem deliveryInv_same {sent : List Connection} {gone nodes : List Nat} {s s' : State n}
    (hi : DeliveryInv sent gone s nodes) (hq : s'.queue = s.queue)
    (ht : ∀ w, s'.worker w = .take → s.worker w = .take ∨ nodes ≠ [])
    (hc : ∀ w a, (s'.worker w).carries = some a → (s.worker w).carries = some a) :
    DeliveryInv sent gone s' nodes where
  holds := by rw [hq]; exact hi.holds
  names := by rw [hq]; exact hi.names
  nodup := hi.nodup
  old := by rw [hq]; exact hi.old
  full := fun w hw => (ht w hw).elim (hi.full w) id
  carried := fun w a hw => hi.carried w a (hc w a hw)
  alone := fun w v a hw hv => hi.alone w v a (hc w a hw) (hc v a hv)

/-- A worker's move of that kind. -/
theorem deliveryInv_goto {sent : List Connection} {gone nodes : List Nat} {s s' : State n}
    {w : Fin n} {pc : WorkerPc} (hi : DeliveryInv sent gone s nodes) (hq : s'.queue = s.queue)
    (hw : s'.worker = Function.update s.worker w pc) (ht : pc = .take → nodes ≠ [])
    (hc : pc.carries = (s.worker w).carries ∨ pc.carries = none) :
    DeliveryInv sent gone s' nodes := by
  refine deliveryInv_same hi hq (fun u hu => ?_) fun u a hu => ?_
  · rw [hw] at hu
    by_cases huw : u = w
    · subst huw
      rw [Function.update_self] at hu
      exact Or.inr (ht hu)
    · rw [Function.update_of_ne huw] at hu
      exact Or.inl hu
  · rw [hw] at hu
    by_cases huw : u = w
    · subst huw
      rw [Function.update_self] at hu
      rcases hc with hsame | hnone
      · exact hsame.symm.trans hu
      · rw [hnone] at hu; cases hu
    · rwa [Function.update_of_ne huw] at hu

theorem wakeAll_carries (s : State n) (w : Fin n) :
    (s.wakeAll.worker w).carries = (s.worker w).carries ∧
      (s.wakeAll.worker w = .take → s.worker w = .take) := by
  unfold State.wakeAll
  dsimp only
  split
  next h => rw [h]; exact ⟨rfl, nofun⟩
  next => exact ⟨rfl, id⟩

/-- The new node is none of the old ones, whose paths stay as they are. -/
theorem enqueueConnection_conn {queue : ConnectionQueue} {c : Connection} :
    (enqueueConnection queue c).conn = Function.update queue.conn queue.fresh c ∧
      (enqueueConnection queue c).fresh = queue.fresh + 1 := by
  unfold enqueueConnection
  split
  · exact ⟨rfl, rfl⟩
  · split <;> exact ⟨rfl, rfl⟩

theorem dequeueConnection_conn (queue : ConnectionQueue) :
    (dequeueConnection queue).2.conn = queue.conn ∧
      (dequeueConnection queue).2.fresh = queue.fresh := by
  unfold dequeueConnection
  dsimp only
  split <;> exact ⟨rfl, rfl⟩

/-- Main links a node. -/
theorem deliveryInv_push {sent : List Connection} {gone nodes : List Nat} {s : State n}
    {c : Connection} {m : MainPc} (hi : DeliveryInv sent gone s nodes) :
    DeliveryInv (sent ++ [c]) gone { s with queue := enqueueConnection s.queue c, main := m }
      (nodes ++ [s.queue.fresh]) := by
  obtain ⟨hconn, hfresh⟩ := @enqueueConnection_conn s.queue c
  have hlt : ∀ a ∈ gone ++ nodes, a < s.queue.fresh := by
    intro a ha
    rcases List.mem_append.mp ha with h | h
    · exact hi.old a h
    · exact hi.holds.old a h
  constructor
  · exact hi.holds.enqueue c
  · show (gone ++ (nodes ++ [s.queue.fresh])).map (enqueueConnection s.queue c).conn = _
    -- the address is new, so filling it overwrites nobody's paths
    have hold : (gone ++ nodes).map (Function.update s.queue.conn s.queue.fresh c) =
        (gone ++ nodes).map s.queue.conn :=
      List.map_congr_left fun a ha => Function.update_of_ne (Nat.ne_of_lt (hlt a ha)) ..
    rw [hconn, ← List.append_assoc, List.map_append, hold, hi.names]
    simp
  · rw [← List.append_assoc, List.nodup_append]
    refine ⟨hi.nodup, List.nodup_singleton _, ?_⟩
    intro a ha b hb
    rw [List.mem_singleton.mp hb]
    exact Nat.ne_of_lt (hlt a ha)
  · intro a ha
    show a < (enqueueConnection s.queue c).fresh
    rw [hfresh]
    exact Nat.lt_succ_of_lt (hi.old a ha)
  · exact fun w _ => by simp
  · exact hi.carried
  · exact hi.alone

/-- A worker takes the first node. -/
theorem deliveryInv_take {sent : List Connection} {gone : List Nat} {s : State n} {w : Fin n}
    {a : Nat} {nodes : List Nat} (hi : DeliveryInv sent gone s (a :: nodes))
    (hother : ∀ u, s.worker u = .take → u = w) :
    DeliveryInv sent (gone ++ [a]) (State.goto { s with queue := (dequeueConnection s.queue).2 } w
      (.unlockTaken (some a))) nodes := by
  obtain ⟨hconn, hfresh⟩ := dequeueConnection_conn s.queue
  have hsplit : gone ++ a :: nodes = gone ++ [a] ++ nodes := by simp
  have hnew : a ∉ gone := fun hmem =>
    (List.nodup_append.mp hi.nodup).2.2 a hmem a (List.mem_cons_self ..) rfl
  have hw : ∀ u b, ((State.goto { s with queue := (dequeueConnection s.queue).2 } w
      (.unlockTaken (some a))).worker u).carries = some b →
      (u = w ∧ b = a) ∨ (s.worker u).carries = some b := by
    intro u b hu
    by_cases huw : u = w
    · subst huw
      simp only [State.goto, Function.update_self, WorkerPc.carries, Option.some.injEq] at hu
      exact Or.inl ⟨rfl, hu.symm⟩
    · simp only [State.goto, Function.update_of_ne huw] at hu
      exact Or.inr hu
  constructor
  · exact hi.holds.dequeue.2
  · show (gone ++ [a] ++ nodes).map (dequeueConnection s.queue).2.conn = sent
    rw [hconn, ← hsplit]
    exact hi.names
  · rw [← hsplit]
    exact hi.nodup
  · intro b hb
    show b < (dequeueConnection s.queue).2.fresh
    rw [hfresh]
    rcases List.mem_append.mp hb with h | h
    · exact hi.old b h
    · rw [List.mem_singleton.mp h]
      exact hi.holds.old a (List.mem_cons_self ..)
  · intro u hu
    by_cases huw : u = w
    · subst huw
      simp [State.goto] at hu
    · simp only [State.goto, Function.update_of_ne huw] at hu
      exact absurd (hother u hu) huw
  · intro u b hu
    rcases hw u b hu with ⟨-, rfl⟩ | hold
    · exact List.mem_append_right _ (List.mem_singleton_self _)
    · exact List.mem_append_left _ (hi.carried u b hold)
  · intro u v b hu hv
    -- the node has just left the queue, so nobody else had it
    rcases hw u b hu with ⟨rfl, rfl⟩ | hu' <;> rcases hw v _ hv with ⟨rfl, hb⟩ | hv'
    · rfl
    · exact absurd (hi.carried v _ hv') hnew
    · subst hb; exact absurd (hi.carried u _ hu') hnew
    · exact hi.alone u v b hu' hv'

theorem step_deliveryInv {sent : List Connection} {gone nodes : List Nat} {s s' : State n}
    {a : Act n} (hs : Step s a s') (hq : QueueInv s) (hi : DeliveryInv sent gone s nodes) :
    ∃ nodes', DeliveryInv (sent ++ arrived s a) (gone ++ departed s a) s' nodes' := by
  cases hs
  case enqueuePush c h =>
    refine ⟨nodes ++ [s.queue.fresh], ?_⟩
    have harr : arrived s .main = [c] := by simp only [arrived, h]
    rw [harr, show departed s .main = [] from rfl, List.append_nil]
    exact deliveryInv_push hi
  case take w h =>
    rw [arrived_worker, List.append_nil]
    cases nodes with
    | nil => exact absurd rfl (hi.full w h)
    | cons a nodes =>
      have hfst := hi.holds.dequeue.1
      have hdep : departed s (.worker w) = [a] := by simp [departed, h, hfst]
      rw [hdep, hfst]
      refine ⟨nodes, deliveryInv_take hi fun u hu => ?_⟩
      -- two workers at `take` would both have the lock
      have hin : ∀ v, s.worker v = .take → s.inside (.worker v) := by
        intro v hv
        unfold State.inside
        simp only [hv]
        rfl
      cases hq.owned.unique (hin u hu) (hin w h)
      rfl
  case testFull w h he =>
    refine ⟨nodes, ?_⟩
    rw [departed_worker (by rw [h]; nofun), List.append_nil, arrived_worker, List.append_nil]
    -- the test has just seen a node, and the lock is kept until `take`
    refine deliveryInv_goto hi rfl rfl (fun _ hnil => ?_) (Or.inr rfl)
    rw [hi.holds.isEmpty_iff.mpr hnil] at he
    cases he
  case enqueueBroadcast h =>
    refine ⟨nodes, ?_⟩
    simp only [departed, arrived, List.append_nil, h]
    exact deliveryInv_same hi rfl (fun w hw => Or.inl ((wakeAll_carries s w).2 hw))
      fun w a hw => (wakeAll_carries s w).1.symm.trans hw
  case broadcast h =>
    refine ⟨nodes, ?_⟩
    simp only [departed, arrived, List.append_nil, h]
    exact deliveryInv_same hi rfl (fun w hw => Or.inl ((wakeAll_carries s w).2 hw))
      fun w a hw => (wakeAll_carries s w).1.symm.trans hw
  case checkUnlock w b h =>
    refine ⟨nodes, ?_⟩
    rw [departed_worker (by rw [h]; nofun), List.append_nil, arrived_worker, List.append_nil]
    exact deliveryInv_goto hi rfl rfl (by cases b <;> simp) (Or.inr (by cases b <;> rfl))
  case recheckUnlock w b h =>
    refine ⟨nodes, ?_⟩
    rw [departed_worker (by rw [h]; nofun), List.append_nil, arrived_worker, List.append_nil]
    exact deliveryInv_goto hi rfl rfl (by cases b <;> simp) (Or.inr (by cases b <;> rfl))
  -- a worker that neither takes nor is about to
  case spurious | checkLock | checkRead | acquire | testEmpty | wait | woken | recheckLock |
      recheckRead | leave | unlockNone | unlockTaken | copy | served =>
    refine ⟨nodes, ?_⟩
    simp only [departed, arrived, List.append_nil, *, reduceCtorEq, if_false]
    exact deliveryInv_goto hi rfl rfl nofun (by simp [*, WorkerPc.carries])
  -- main away from the queue
  all_goals
    refine ⟨nodes, ?_⟩
    simp only [departed, arrived, List.append_nil, *]
    exact deliveryInv_same hi rfl (fun _ hw => Or.inl hw) fun _ _ hw => hw

theorem run_deliveryInv {tr : List (Act n)} {s : State n} (h : (machine n).run tr = some s) :
    ∃ nodes, DeliveryInv (enqueued tr) (handed tr) s nodes := by
  refine (machine n).run_invariant
    (I := fun tr s => ∃ nodes, DeliveryInv (enqueued tr) (handed tr) s nodes)
    ⟨[], deliveryInv_init⟩ ?_ tr s h
  rintro tr s a s' hr ⟨nodes, hi⟩ hstep
  unfold enqueued handed
  rw [(machine n).log_snoc arrived hr hstep, (machine n).log_snoc departed hr hstep]
  exact step_deliveryInv (step_cases hstep) (run_queueInv hr) hi

/-- **Every connection once, in order.** Following `next` from `front` gives the
nodes that are waiting; `rear` is the last of them. The nodes handed to workers
and then these are all different and carry, in this order, the paths of the
connections enqueued so far. Nobody dequeues from an empty queue, and a node that
was handed over is with one worker. -/
theorem delivers_once {tr : List (Act n)} {s : State n} (hrun : (machine n).run tr = some s) :
    ∃ nodes, Chain s.queue.next s.queue.front nodes ∧ s.queue.rear = nodes.getLast? ∧
      (s.queue.front = none ↔ s.queue.rear = none) ∧
      (handed tr ++ nodes).Nodup ∧ (handed tr ++ nodes).map s.queue.conn = enqueued tr ∧
      (∀ w, s.worker w = .take → nodes ≠ []) ∧
      ∀ w a, (s.worker w).carries = some a →
        a ∈ handed tr ∧ ∀ v, (s.worker v).carries = some a → v = w := by
  obtain ⟨nodes, hi⟩ := run_deliveryInv hrun
  refine ⟨nodes, hi.holds.chain, hi.holds.rear, ?_, hi.nodup, hi.names, hi.full, fun w a hw =>
    ⟨hi.carried w a hw, fun v hv => hi.alone v w a hv hw⟩⟩
  have hempty := hi.holds.isEmpty_iff
  unfold isEmpty at hempty
  rw [Option.isNone_iff_eq_none] at hempty
  rw [hempty, hi.holds.rear, List.getLast?_eq_none_iff]

/-- Two clients arrive; the first of two workers has taken the older one. -/
def twoArrivals : List (Act 2) :=
  [.connect ⟨[1], [2]⟩, .main, .main, .main, .main, .connect ⟨[3], [4]⟩, .main, .main, .main, .main,
    .worker 0, .worker 0, .worker 0, .worker 0, .worker 0, .worker 0]

theorem delivers_once_twoArrivals :
    ∃ s nodes, (machine 2).run twoArrivals = some s ∧ Chain s.queue.next s.queue.front nodes ∧
      (([0] : List Nat) ++ nodes).map s.queue.conn = [⟨[1], [2]⟩, ⟨[3], [4]⟩] := by
  obtain ⟨s, hs⟩ := Option.isSome_iff_exists.mp
    (show ((machine 2).run twoArrivals).isSome = true by decide)
  obtain ⟨nodes, hchain, -, -, -, hnames, -⟩ := delivers_once hs
  have hgone : handed twoArrivals = [0] := by decide
  have hsent : enqueued twoArrivals = [⟨[1], [2]⟩, ⟨[3], [4]⟩] := by decide
  rw [hgone, hsent] at hnames
  exact ⟨s, nodes, hs, hchain, hnames⟩

/-! ## Nobody sleeps beside a connection -/

/-- A worker asleep means an empty queue, or a broadcast about to come. -/
def AwakeInv (s : State n) : Prop :=
  ∀ w, s.worker w = .asleep → isEmpty s.queue = true ∨ s.main = .enqueueBroadcast

/-- A worker's move to a place where it is awake. -/
theorem awakeInv_goto {s s' : State n} {w : Fin n} {pc : WorkerPc} (hi : AwakeInv s)
    (hq : isEmpty s.queue = true → isEmpty s'.queue = true) (hm : s'.main = s.main)
    (hw : s'.worker = Function.update s.worker w pc)
    (hp : pc = .asleep → isEmpty s'.queue = true) : AwakeInv s' := by
  intro u hu
  rw [hw] at hu
  by_cases huw : u = w
  · subst huw
    rw [Function.update_self] at hu
    exact Or.inl (hp hu)
  · rw [Function.update_of_ne huw] at hu
    rw [hm]
    exact (hi u hu).imp_left hq

/-- A move of main that links nothing and is not the broadcast. -/
theorem awakeInv_main {s s' : State n} (hi : AwakeInv s) (hq : s'.queue = s.queue)
    (hw : s'.worker = s.worker) (hm : s.main ≠ .enqueueBroadcast) : AwakeInv s' := by
  intro u hu
  rw [hw] at hu
  rw [hq]
  exact Or.inl ((hi u hu).resolve_right hm)

theorem step_awakeInv {s s' : State n} {a : Act n} (hs : Step s a s') (hq : QueueInv s)
    (hi : AwakeInv s) : AwakeInv s' := by
  cases hs
  case connect c h => exact awakeInv_main hi rfl rfl (by rw [h]; nofun)
  case shutdown h => exact awakeInv_main hi rfl rfl (by rw [h]; nofun)
  case enqueueLock c h hl => exact awakeInv_main hi rfl rfl (by rw [h]; nofun)
  case enqueuePush c h => exact fun _ _ => Or.inr rfl
  case enqueueBroadcast h => exact fun w hw => absurd hw (wakeAll_awake s w)
  case broadcast h => exact fun w hw => absurd hw (wakeAll_awake s w)
  case enqueueUnlock h => exact awakeInv_main hi rfl rfl (by rw [h]; nofun)
  case setLock l h hl => exact awakeInv_main hi rfl rfl (by rw [h]; nofun)
  case setFlag h => exact awakeInv_main hi rfl rfl (by rw [h]; nofun)
  case setUnlock h => exact awakeInv_main hi rfl rfl (by rw [h]; nofun)
  case join i w h hw he => exact awakeInv_main hi rfl rfl (by rw [h]; nofun)
  case joined i h hn => exact awakeInv_main hi rfl rfl (by rw [h]; nofun)
  -- the worker saw the queue empty, and has kept the lock since
  case wait w h => exact awakeInv_goto hi id rfl rfl fun _ => hq.empty w h
  case take w h => exact awakeInv_goto hi isEmpty_dequeue rfl rfl nofun
  case checkUnlock w b h => exact awakeInv_goto hi id rfl rfl (by cases b <;> simp)
  case recheckUnlock w b h => exact awakeInv_goto hi id rfl rfl (by cases b <;> simp)
  all_goals exact awakeInv_goto hi id rfl rfl nofun

theorem run_awakeInv {tr : List (Act n)} {s : State n} (h : (machine n).run tr = some s) :
    AwakeInv s :=
  (machine n).run_invariant (I := fun _ s => AwakeInv s) nofun
    (fun _ _ _ _ hr hi hstep => step_awakeInv (step_cases hstep) (run_queueInv hr) hi) tr s h

/-- **No lost wakeup on arrival.** Whenever `queue_lock` is free and a connection
is waiting, no worker is asleep without having been woken. -/
theorem no_idle_sleeper {tr : List (Act n)} {s : State n} (hrun : (machine n).run tr = some s)
    (hfree : s.queueLock = none) (hwork : isEmpty s.queue = false) (w : Fin n) :
    s.worker w ≠ .asleep := by
  intro hw
  rcases run_awakeInv hrun w hw with hempty | hmain
  · rw [hwork] at hempty
    cases hempty
  · -- main would still have the lock
    have hin : s.inside .main := by
      unfold State.inside
      rw [hmain]
      rfl
    have howner := ((run_queueInv hrun).owned .main).mpr hin
    rw [hfree] at howner
    cases howner

/-- The only worker sleeps; a client arrives. -/
def sleeperAndClient : List (Act 1) :=
  List.replicate 6 (.worker (Fin.last 0)) ++ [.connect ⟨[1], [2]⟩, .main, .main, .main, .main]

theorem no_idle_sleeper_sleeperAndClient :
    ∃ s, (machine 1).run sleeperAndClient = some s ∧ isEmpty s.queue = false ∧
      s.worker 0 ≠ .asleep := by
  have hend : ((machine 1).run sleeperAndClient).map (fun s => (s.queueLock, isEmpty s.queue)) =
      some (none, false) := by decide
  obtain ⟨s, hs, hstate⟩ := Option.map_eq_some_iff.mp hend
  obtain ⟨hfree, hwork⟩ := Prod.mk.inj hstate
  exact ⟨s, hs, hwork, no_idle_sleeper hs hfree hwork 0⟩

end Ems.Server.Pool
