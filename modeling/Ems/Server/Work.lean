import Mathlib.Algebra.BigOperators.Fin
import Mathlib.Algebra.Order.BigOperators.Group.Finset
import Ems.Server.Register
import Ems.Server.Running

/-!
# The work left at the server

What the threads of the pool can still do without a new connection, counted in steps. A
worker on its way to sleep has a few left; a connection that waits takes a worker once around,
and the broadcast that comes with a new one wakes all of them. Every step but a wakeup without a
signal takes something off (`step_left`), and a worker that leaves its client more than
`atClient`, with which another client begins.

In the registration loop every byte counts for what an `enqueue_connection` brings about.
-/

namespace Ems.Server.Pool

open Conc

variable {n : Nat}

/-- The steps that the places of a worker behind the two `memcpy`s are worth. -/
def atClient : Nat := 10

/-- What a worker can do before it sleeps. -/
def WorkerPc.left : WorkerPc → Nat
  | .asleep => 0
  | .wait => 1
  | .take => 1
  | .test => 2
  | .acquire => 3
  | .recheckUnlock _ => 3
  | .checkUnlock _ => 4
  | .recheckRead => 4
  | .checkRead => 5
  | .recheckLock => 5
  | .checkLock => 6
  | .woken => 6
  | .serving _ => 7 + atClient
  | .copy _ => 8 + atClient
  | .unlockTaken _ => 9 + atClient
  | .leave => 0
  | .exited => 0

/-- What a connection in the queue is worth. -/
def perNode : Nat := 9 + atClient

/-- What the main thread can do in `enqueue_connection`, and cause. -/
def MainPc.left (n : Nat) : MainPc → Nat
  | .enqueueUnlock => 1
  | .enqueueBroadcast => 2 + 6 * n
  | .enqueuePush _ => 3 + 6 * n + perNode
  | .enqueueLock _ => 4 + 6 * n + perNode
  | _ => 0

/-- The work left, when `waiting` connections are in the queue. -/
def State.left (s : State n) (waiting : Nat) : Nat :=
  s.main.left n + perNode * waiting + ∑ w, (s.worker w).left

/-- One summand is another one. -/
theorem sum_change {f g : Fin n → Nat} {w : Fin n} (h : ∀ u, u ≠ w → g u = f u) :
    (∑ u, g u) + f w = (∑ u, f u) + g w := by
  have hrest : ∑ u ∈ Finset.univ.erase w, g u = ∑ u ∈ Finset.univ.erase w, f u :=
    Finset.sum_congr rfl fun u hu => h u (Finset.ne_of_mem_erase hu)
  have hg := Finset.sum_erase_add Finset.univ g (Finset.mem_univ w)
  have hf := Finset.sum_erase_add Finset.univ f (Finset.mem_univ w)
  omega

/-- A worker goes to another place. -/
theorem left_goto (s s' : State n) {w : Fin n} {pc : WorkerPc} (waiting waiting' : Nat)
    (hm : s'.main = s.main) (hw : s'.worker = Function.update s.worker w pc) :
    s'.left waiting' + (s.worker w).left + perNode * waiting =
      s.left waiting + pc.left + perNode * waiting' := by
  have hsum : (∑ u, (s'.worker u).left) + (s.worker w).left =
      (∑ u, (s.worker u).left) + (s'.worker w).left :=
    sum_change (f := fun u => (s.worker u).left) (g := fun u => (s'.worker u).left) fun u hu =>
      congrArg WorkerPc.left (by rw [hw, Function.update_of_ne hu])
  have hself : s'.worker w = pc := by rw [hw, Function.update_self]
  rw [hself] at hsum
  unfold State.left
  rw [hm]
  omega

/-- A broadcast gives every worker a way back to sleep. -/
theorem wakeAll_left (s : State n) :
    ∑ w, (s.wakeAll.worker w).left ≤ (∑ w, (s.worker w).left) + 6 * n := by
  have hone : ∀ w ∈ (Finset.univ : Finset (Fin n)),
      (s.wakeAll.worker w).left ≤ (s.worker w).left + 6 := by
    intro w _
    unfold State.wakeAll
    dsimp only
    by_cases h : s.worker w = .asleep
    · rw [if_pos h, h]
      exact Nat.le_refl 6
    · rw [if_neg h]
      exact Nat.le_add_right _ 6
  have hall := Finset.sum_le_sum hone
  rw [Finset.sum_add_distrib, Finset.sum_const, Finset.card_univ, Fintype.card_fin,
    smul_eq_mul] at hall
  omega

/-- What the next client of a worker costs. -/
def State.cost (s : State n) : Act n → Nat
  | .worker w => if (s.serves w).isSome then atClient else 0
  | _ => 0

/-- The steps of the pool that nothing new brings about. -/
def Act.Works : Act n → Prop
  | .main => True
  | .worker _ => True
  | _ => False

theorem step_left {s s' : State n} {a : Act n} {nodes : List Nat} (hs : Step s a s')
    (ha : a.Works) (hi : Running s) (hh : s.queue.Holds nodes)
    (hfull : ∀ w, s.worker w = .take → nodes ≠ []) :
    ∃ nodes', s'.queue.Holds nodes' ∧
      s'.left nodes'.length + s.cost a < s.left nodes.length := by
  have hout : ∀ {pc : MainPc}, s.main = pc → pc.loops = false →
      ∃ nodes', s'.queue.Holds nodes' ∧ s'.left nodes'.length + s.cost a < s.left nodes.length := by
    intro pc hm hpc
    have hmain := hi.main
    rw [hm, hpc] at hmain
    cases hmain
  -- a worker that stays without a client and takes no connection
  have hgoto : ∀ {w : Fin n} {pc : WorkerPc}, a = .worker w → s'.queue = s.queue →
      s'.main = s.main → s'.worker = Function.update s.worker w pc → s.serves w = none →
      pc.left < (s.worker w).left →
      ∃ nodes', s'.queue.Holds nodes' ∧ s'.left nodes'.length + s.cost a < s.left nodes.length := by
    intro w pc haw hq hm hw hnone hless
    have hchange := left_goto s s' nodes.length nodes.length hm hw
    have hcost : s.cost a = 0 := by rw [haw]; simp [State.cost, hnone]
    exact ⟨nodes, hq ▸ hh, by omega⟩
  cases hs
  case connect => exact absurd ha id
  case shutdown => exact absurd ha id
  case spurious => exact absurd ha id
  case enqueueLock c h hl =>
    refine ⟨nodes, hh, ?_⟩
    simp only [State.left, State.cost, h, MainPc.left]
    omega
  case enqueuePush c h =>
    refine ⟨_, hh.enqueue c, ?_⟩
    simp only [State.left, State.cost, h, MainPc.left, List.length_append, List.length_singleton,
      Nat.mul_add]
    omega
  case enqueueBroadcast h =>
    refine ⟨nodes, hh, ?_⟩
    have hwake := wakeAll_left s
    simp only [State.left, State.cost, h, MainPc.left]
    omega
  case enqueueUnlock h =>
    refine ⟨nodes, hh, ?_⟩
    simp only [State.left, State.cost, h, MainPc.left]
    omega
  case setLock h _ => exact hout h rfl
  case setFlag h => exact hout h rfl
  case setUnlock h => exact hout h rfl
  case broadcast h => exact hout h rfl
  case join h _ _ => exact hout h rfl
  case joined h _ => exact hout h rfl
  case take w h =>
    cases nodes with
    | nil => exact absurd rfl (hfull w h)
    | cons b nodes =>
      have hdequeue := hh.dequeue
      have hchange := left_goto s (State.goto { s with queue := (dequeueConnection s.queue).2 } w
        (.unlockTaken (dequeueConnection s.queue).1)) (w := w) (b :: nodes).length nodes.length
        rfl rfl
      have hcost : s.cost (.worker w) = 0 := by simp [State.cost, State.serves, h]
      refine ⟨nodes, hdequeue.2, ?_⟩
      simp only [h, WorkerPc.left, perNode, List.length_cons, Nat.mul_add] at hchange
      rw [hcost, List.length_cons]
      omega
  case served w c h =>
    have hchange := left_goto s (s.goto w .checkLock) (w := w) nodes.length nodes.length rfl rfl
    have hcost : s.cost (.worker w) = atClient := by simp [State.cost, State.serves, h]
    refine ⟨nodes, hh, ?_⟩
    simp only [h, WorkerPc.left] at hchange
    rw [hcost]
    omega
  case checkUnlock w b h =>
    have hb := hi.stays w
    rw [h] at hb
    cases b with
    | true => cases hb
    | false => exact hgoto rfl rfl rfl rfl (by simp [State.serves, h]) (by rw [h]; decide)
  case recheckUnlock w b h =>
    have hb := hi.stays w
    rw [h] at hb
    cases b with
    | true => cases hb
    | false => exact hgoto rfl rfl rfl rfl (by simp [State.serves, h]) (by rw [h]; decide)
  case leave w h =>
    have hb := hi.stays w
    rw [h] at hb
    cases hb
  all_goals
    exact hgoto rfl rfl rfl rfl (by simp [State.serves, *]) (by simp [WorkerPc.left, atClient, *])

end Ems.Server.Pool

namespace Ems.Server.Register

open Proto

/-- Where each call of `enqueue_connection` is worth `e`. -/
def Pc.left (e : Nat) : Pc → Nat
  | .reading _ => 0
  | .stopped => 0
  | .head => 1
  | .action => 2
  | .enqueue _ => 2 + e
  | .failed => 3
  | .received _ => 3 + e

def State.left (s : State) (e : Nat) : Nat := (4 + e) * s.pipe.length + s.main.left e

theorem step_left {s r : State} {a : Act} (e : Nat) (ha : a.Own) (h : step s a = some r) :
    r.left e + e * (leaving s a).length < s.left e := by
  cases a with
  | read k =>
    simp only [step] at h
    cases hm : s.main with
    | reading got =>
      rw [hm] at h
      by_cases hk : 0 < k ∧ k ≤ setupRequestBufsiz - got.length ∧ k ≤ s.pipe.length
      · dsimp only at h
        rw [if_pos hk] at h
        cases h
        obtain ⟨b, hb⟩ := Nat.exists_eq_add_of_le hk.2.2
        have hrest : (s.pipe.drop k).length = b := by rw [List.length_drop]; omega
        have hpos : 4 + e ≤ (4 + e) * k := Nat.le_mul_of_pos_right _ hk.1
        have hpc : ∀ pc : Pc, pc.left e ≤ 3 + e := by
          intro pc
          cases pc <;> simp [Pc.left] <;> omega
        have hmain := hpc (if (got ++ s.pipe.take k).length = setupRequestBufsiz then
          .received (got ++ s.pipe.take k) else .reading (got ++ s.pipe.take k))
        simp only [State.left, leaving, hrest, hb, Nat.mul_add, List.length_nil, hm]
        omega
      · dsimp only at h
        rw [if_neg hk] at h
        cases h
    | _ => rw [hm] at h; cases h
  | main =>
    cases step_cases h with
    | stop hm => rcases hm with hm | hm <;> simp [State.left, leaving, hm, Pc.left]
    | enqueued hm =>
      simp only [State.left, leaving, hm, Pc.left, List.length_singleton]
      omega
    | ignore hm =>
      simp only [State.left, leaving, hm, Pc.left, List.length_nil]
      omega
    | start hm => simp [State.left, leaving, hm, Pc.left]
    | signalled hm => simp [State.left, leaving, hm, Pc.left]
    | retry hm => simp [State.left, leaving, hm, Pc.left]
    | handled hm => simp [State.left, leaving, hm, Pc.left]
    | accept hm => simp [State.left, leaving, hm, Pc.left]
  | _ => exact absurd ha id

end Ems.Server.Register
