import Ems.Server.Delivery

/-!
# The connections that workers have

A worker has a connection from `dequeue_connection` on until it is done with its client;
behind the two `memcpy`s it serves it. `Hands` is all that a step can do to that, whatever
else it does. As long as no two connections are alike no two workers have the same one, and
none comes back (`run_holding`).
-/

namespace Ems.Server.Pool

open Conc Base

variable {n : Nat}

/-- The connection a worker has dequeued and not yet left. -/
def State.has (s : State n) (w : Fin n) : Option Connection :=
  match s.worker w with
  | .unlockTaken connection => connection.map s.queue.conn
  | .copy a => some (s.queue.conn a)
  | .serving c => some c
  | _ => none

/-- The connection a worker serves. -/
def State.serves (s : State n) (w : Fin n) : Option Connection :=
  match s.worker w with
  | .serving c => some c
  | _ => none

/-- The connection a step takes out of the queue. -/
def takes (s : State n) (a : Act n) : List Connection := (departed s a).map s.queue.conn

/-- The connections of a run, in the order in which they were dequeued. -/
def taken (tr : List (Act n)) : List Connection := (machine n).log takes tr

/-- What a step does with the connections of the workers. -/
inductive Hands (s : State n) : Act n → List Connection → State n → Prop where
  | take {w c s'} (h : s.has w = none) (hhas : s'.has = Function.update s.has w (some c))
      (hserves : s'.serves = s.serves) : Hands s (.worker w) [c] s'
  | meet {w c s'} (h : s.has w = some c) (hnone : s.serves w = none) (hhas : s'.has = s.has)
      (hserves : s'.serves = Function.update s.serves w (some c)) : Hands s (.worker w) [] s'
  | leave {w c s'} (h : s.serves w = some c) (hhas : s'.has = Function.update s.has w none)
      (hserves : s'.serves = Function.update s.serves w none) : Hands s (.worker w) [] s'
  | other {a s'} (hhas : s'.has = s.has) (hserves : s'.serves = s.serves)
      (hidle : ∀ w, a = .worker w → s.serves w = none) : Hands s a [] s'

theorem has_of_serves {s : State n} {w : Fin n} {c : Connection} (h : s.serves w = some c) :
    s.has w = some c := by
  unfold State.serves at h
  unfold State.has
  split at h
  next hw => rw [hw]; exact h
  next => cases h

theorem serves_eq {s : State n} {w : Fin n} {c : Connection} :
    s.serves w = some c ↔ s.worker w = .serving c := by
  unfold State.serves
  cases hw : s.worker w <;> simp

/-- A worker's move to another place. -/
theorem has_goto {s s' : State n} {w : Fin n} {pc : WorkerPc} {o : Option Connection}
    (hq : s'.queue.conn = s.queue.conn) (hw : s'.worker = Function.update s.worker w pc)
    (ho : s'.has w = o) : s'.has = Function.update s.has w o := by
  funext u
  by_cases hu : u = w
  · subst hu
    rw [Function.update_self, ho]
  · rw [Function.update_of_ne hu]
    unfold State.has
    rw [hw, Function.update_of_ne hu, hq]

theorem serves_goto {s s' : State n} {w : Fin n} {pc : WorkerPc} {o : Option Connection}
    (hw : s'.worker = Function.update s.worker w pc) (ho : s'.serves w = o) :
    s'.serves = Function.update s.serves w o := by
  funext u
  by_cases hu : u = w
  · subst hu
    rw [Function.update_self, ho]
  · rw [Function.update_of_ne hu]
    unfold State.serves
    rw [hw, Function.update_of_ne hu]

theorem has_same {s s' : State n} {w : Fin n} {pc : WorkerPc}
    (hq : s'.queue.conn = s.queue.conn) (hw : s'.worker = Function.update s.worker w pc)
    (h : s'.has w = s.has w) : s'.has = s.has := by
  rw [has_goto hq hw h, Function.update_eq_self]

theorem serves_same {s s' : State n} {w : Fin n} {pc : WorkerPc}
    (hw : s'.worker = Function.update s.worker w pc) (h : s'.serves w = s.serves w) :
    s'.serves = s.serves := by
  rw [serves_goto hw h, Function.update_eq_self]

/-- A worker without a client stays without one. -/
theorem hands_goto {s s' : State n} {w : Fin n} {pc : WorkerPc}
    (hq : s'.queue.conn = s.queue.conn) (hw : s'.worker = Function.update s.worker w pc)
    (hhas : s'.has w = s.has w) (hnone : s.serves w = none) (hserves : s'.serves w = none) :
    Hands s (.worker w) [] s' :=
  .other (has_same hq hw hhas) (serves_same hw (hserves.trans hnone.symm))
    fun v hv => by cases hv; exact hnone

theorem hands_main {s s' : State n} (hhas : ∀ w, s'.has w = s.has w)
    (hserves : ∀ w, s'.serves w = s.serves w) : Hands s .main [] s' :=
  .other (funext hhas) (funext hserves) fun _ h => by cases h

/-- What is in the hands of the workers stays when somebody is woken. -/
theorem wakeAll_has (s : State n) (w : Fin n) :
    s.wakeAll.has w = s.has w ∧ s.wakeAll.serves w = s.serves w := by
  unfold State.wakeAll State.has State.serves
  dsimp only
  by_cases h : s.worker w = .asleep
  · rw [if_pos h, h]
    exact ⟨rfl, rfl⟩
  · rw [if_neg h]
    exact ⟨rfl, rfl⟩

theorem step_hands {sent : List Connection} {gone nodes : List Nat} {s s' : State n} {a : Act n}
    (hi : DeliveryInv sent gone s nodes) (hs : Step s a s') : Hands s a (takes s a) s' := by
  have hnone : ∀ {w}, s.worker w ≠ .take → takes s (.worker w) = [] := by
    intro w hw
    unfold takes
    rw [departed_worker hw]
    rfl
  cases hs
  case take w h =>
    cases nodes with
    | nil => exact absurd rfl (hi.full w h)
    | cons b nodes =>
      have hfst := hi.holds.dequeue.1
      have hconn := (dequeueConnection_conn s.queue).1
      have htakes : takes s (.worker w) = [s.queue.conn b] := by
        simp [takes, departed, h, hfst]
      rw [htakes]
      refine .take (by simp [State.has, h]) (has_goto hconn rfl ?_) (serves_same rfl ?_)
      · simp [State.has, State.goto, hfst, hconn]
      · simp [State.serves, State.goto, h]
  case copy w b h =>
    rw [hnone (by rw [h]; simp)]
    have hhas : s.has w = some (s.queue.conn b) := by simp [State.has, h]
    refine .meet hhas (by simp [State.serves, h]) (has_same rfl rfl ?_) (serves_goto rfl ?_)
    · rw [hhas]
      simp [State.has, State.goto]
    · simp [State.serves, State.goto]
  case served w c h =>
    rw [hnone (by rw [h]; simp)]
    refine .leave (serves_eq.mpr h) (has_goto rfl rfl ?_) (serves_goto rfl ?_)
    · simp [State.has, State.goto]
    · simp [State.serves, State.goto]
  case enqueuePush c h =>
    -- nobody has the new node
    refine hands_main (fun w => ?_) fun _ => rfl
    have hold : ∀ b, (s.worker w).carries = some b →
        (enqueueConnection s.queue c).conn b = s.queue.conn b := by
      intro b hb
      rw [enqueueConnection_conn.1]
      exact Function.update_of_ne (Nat.ne_of_lt (hi.old b (hi.carried w b hb))) ..
    unfold State.has
    dsimp only
    split
    next connection hw =>
      cases connection with
      | none => rfl
      | some b => exact congrArg some (hold b (by rw [hw]; rfl))
    next b hw => exact congrArg some (hold b (by rw [hw]; rfl))
    next => rfl
    next => rfl
  case enqueueBroadcast h =>
    exact hands_main (fun w => (wakeAll_has s w).1) fun w => (wakeAll_has s w).2
  case broadcast h =>
    exact hands_main (fun w => (wakeAll_has s w).1) fun w => (wakeAll_has s w).2
  case spurious w h =>
    refine .other (has_same rfl rfl ?_) (serves_same rfl ?_) fun v hv => by cases hv
    · simp [State.has, State.goto, h]
    · simp [State.serves, State.goto, h]
  case checkUnlock w b h =>
    rw [hnone (by rw [h]; simp)]
    refine hands_goto rfl rfl ?_ (by simp [State.serves, h]) ?_
    · cases b <;> simp [State.has, State.goto, h]
    · cases b <;> simp [State.serves, State.goto]
  case recheckUnlock w b h =>
    rw [hnone (by rw [h]; simp)]
    refine hands_goto rfl rfl ?_ (by simp [State.serves, h]) ?_
    · cases b <;> simp [State.has, State.goto, h]
    · cases b <;> simp [State.serves, State.goto]
  case checkLock | checkRead | acquire | testEmpty | testFull | wait | woken | recheckLock |
      recheckRead | leave | unlockNone | unlockTaken =>
    rw [hnone (by simp [*])]
    exact hands_goto rfl rfl (by simp [State.has, State.goto, *]) (by simp [State.serves, *])
      (by simp [State.serves, State.goto])
  -- main away from the queue
  case connect | shutdown => exact .other rfl rfl fun v hv => by cases hv
  all_goals exact hands_main (fun _ => rfl) fun _ => rfl

/-! ## Every run -/

/-- What a node was filled with stays in it. -/
theorem step_conn {s s' : State n} {a : Act n} (hs : Step s a s') {b : Nat}
    (hb : b < s.queue.fresh) : s'.queue.conn b = s.queue.conn b := by
  cases hs
  case enqueuePush c h =>
    show (enqueueConnection s.queue c).conn b = _
    rw [enqueueConnection_conn.1]
    exact Function.update_of_ne (Nat.ne_of_lt hb) ..
  case take w h => exact congrFun (dequeueConnection_conn s.queue).1 b
  all_goals rfl

/-- The connections taken are those of the nodes handed over. -/
theorem taken_eq {tr : List (Act n)} {s : State n} (hrun : (machine n).run tr = some s) :
    taken tr = (handed tr).map s.queue.conn := by
  refine (machine n).run_invariant (I := fun tr s => taken tr = (handed tr).map s.queue.conn) rfl
    (fun tr s a s' hs hi h => ?_) tr s hrun
  obtain ⟨nodes, hd⟩ := run_deliveryInv hs
  have hstep := step_cases h
  have hdeparted : (departed s a).map s'.queue.conn = takes s a := by
    refine List.map_congr_left fun b hb => step_conn hstep ?_
    cases a with
    | worker w =>
      simp only [departed] at hb
      split at hb
      next hw =>
        cases nodes with
        | nil => exact absurd rfl (hd.full w hw)
        | cons b' nodes =>
          rw [hd.holds.dequeue.1] at hb
          rw [List.mem_singleton.mp hb]
          exact hd.holds.old b' (List.mem_cons_self ..)
      next => exact absurd hb List.not_mem_nil
    | _ => exact absurd hb List.not_mem_nil
  unfold taken handed at hi ⊢
  rw [(machine n).log_snoc takes hs h, (machine n).log_snoc departed hs h, List.map_append, hi,
    hdeparted]
  refine congrArg (· ++ _) (List.map_congr_left fun b hb => ?_)
  exact (step_conn hstep (hd.old b hb)).symm

/-- The connections that were enqueued are those taken and those waiting; each worker has one
of those taken, and no two the same. -/
structure Holding (sent taken : List Connection) (s : State n) (nodes : List Nat) : Prop where
  holds : s.queue.Holds nodes
  split : taken ++ nodes.map s.queue.conn = sent
  mem : ∀ w c, s.has w = some c → c ∈ taken
  alone : ∀ w v c, s.has w = some c → s.has v = some c → w = v

theorem step_hands_holding {s s' : State n} {a : Act n} {gone new : List Connection}
    (hh : Hands s a new s') (hnew : ∀ c ∈ new, c ∉ gone)
    (hmem : ∀ w c, s.has w = some c → c ∈ gone)
    (halone : ∀ w v c, s.has w = some c → s.has v = some c → w = v) :
    (∀ w c, s'.has w = some c → c ∈ gone ++ new) ∧
      ∀ w v c, s'.has w = some c → s'.has v = some c → w = v := by
  cases hh with
  | @take w c _ h hhas =>
    have hcases : ∀ v d, s'.has v = some d → v = w ∧ d = c ∨ v ≠ w ∧ s.has v = some d := by
      intro v d hv
      rw [hhas] at hv
      by_cases hvw : v = w
      · subst hvw
        rw [Function.update_self] at hv
        exact Or.inl ⟨rfl, (Option.some.inj hv).symm⟩
      · rw [Function.update_of_ne hvw] at hv
        exact Or.inr ⟨hvw, hv⟩
    have hfresh : c ∉ gone := hnew c (List.mem_singleton_self c)
    refine ⟨fun v d hv => ?_, fun v u d hv hu => ?_⟩
    · rcases hcases v d hv with ⟨-, rfl⟩ | ⟨-, hv⟩
      · exact List.mem_append_right _ (List.mem_singleton_self _)
      · exact List.mem_append_left _ (hmem v d hv)
    · rcases hcases v d hv with ⟨rfl, rfl⟩ | ⟨-, hv⟩ <;>
        rcases hcases u _ hu with ⟨rfl, heq⟩ | ⟨-, hu⟩
      · rfl
      · exact absurd (hmem u _ hu) hfresh
      · exact absurd (hmem v _ hv) (heq ▸ hfresh)
      · exact halone v u d hv hu
  | meet _ _ hhas =>
    rw [hhas, List.append_nil]
    exact ⟨hmem, halone⟩
  | @leave w c _ _ hhas =>
    have hcases : ∀ v d, s'.has v = some d → s.has v = some d := by
      intro v d hv
      rw [hhas] at hv
      by_cases hvw : v = w
      · subst hvw
        rw [Function.update_self] at hv
        cases hv
      · rwa [Function.update_of_ne hvw] at hv
    rw [List.append_nil]
    exact ⟨fun v d hv => hmem v d (hcases v d hv),
      fun v u d hv hu => halone v u d (hcases v d hv) (hcases u d hu)⟩
  | other hhas =>
    rw [hhas, List.append_nil]
    exact ⟨hmem, halone⟩

/-- **No connection is with two workers**, nor comes back, when no two are alike. -/
theorem run_holding {tr : List (Act n)} {s : State n} (hrun : (machine n).run tr = some s)
    (hnodup : (enqueued tr).Nodup) : ∃ nodes, Holding (enqueued tr) (taken tr) s nodes := by
  have hsplit : ∀ {tr s}, (machine n).run tr = some s →
      ∃ nodes, s.queue.Holds nodes ∧ taken tr ++ nodes.map s.queue.conn = enqueued tr := by
    intro tr s hrun
    obtain ⟨nodes, hd⟩ := run_deliveryInv hrun
    refine ⟨nodes, hd.holds, ?_⟩
    rw [taken_eq hrun, ← List.map_append]
    exact hd.names
  have hhas : (∀ w c, s.has w = some c → c ∈ taken tr) ∧
      ∀ w v c, s.has w = some c → s.has v = some c → w = v := by
    refine (machine n).run_invariant (I := fun tr s => (enqueued tr).Nodup →
      (∀ w c, s.has w = some c → c ∈ taken tr) ∧
        ∀ w v c, s.has w = some c → s.has v = some c → w = v) (fun _ => ⟨?_, ?_⟩)
      (fun tr s a s' hs hi h hnodup => ?_) tr s hrun hnodup
    · exact fun w c hw => by cases hw
    · exact fun w v c hw => by cases hw
    · obtain ⟨nodes, hd⟩ := run_deliveryInv hs
      obtain ⟨nodes', -, hsplit'⟩ := hsplit ((machine n).run_snoc.mpr ⟨s, hs, h⟩)
      have htaken : taken (tr ++ [a]) = taken tr ++ takes s a := Machine.log_snoc _ _ hs h
      have hbefore : (enqueued tr).Nodup := by
        unfold enqueued at hnodup ⊢
        rw [Machine.log_snoc _ _ hs h] at hnodup
        exact (List.nodup_append.mp hnodup).1
      rw [← hsplit', htaken] at hnodup
      obtain ⟨hmem, halone⟩ := hi hbefore
      rw [htaken]
      refine step_hands_holding (step_hands hd (step_cases h)) (fun c hc hold => ?_) hmem halone
      have htwice := (List.nodup_append.mp (List.nodup_append.mp hnodup).1).2.2
      exact htwice c hold c hc rfl
  obtain ⟨nodes, hholds, hall⟩ := hsplit hrun
  exact ⟨nodes, hholds, hall, hhas.1, hhas.2⟩

end Ems.Server.Pool
