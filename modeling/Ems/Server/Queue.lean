import Mathlib.Data.List.Nodup
import Mathlib.Logic.Function.Basic
import Ems.Base.Chain

/-!
# The connection queue

`queue.c` without its locks: `enqueue_connection` and `dequeue_connection` on
the two pointers and the links between the nodes. `Holds` is what the structure
stands for, the addresses of the waiting connections from front to rear; the two
operations are then an append and the removal of the head.

Mirroring notes:
- A node is an address; its paths and its `next` field are functions of the
  address. `fresh` is the address `malloc` returns next, so nodes are never
  reused.
- `malloc` succeeds. The node is filled before it is linked, which nobody else
  can see.
-/

namespace Ems.Server

open Base

/-- The two pipe names of a `struct Connection`. -/
structure Connection where
  reqPipePath : List UInt8
  respPipePath : List UInt8
deriving DecidableEq, Repr

/-- `front`, `rear` and the nodes of a `struct ConnectionQueue`. -/
structure ConnectionQueue where
  front : Option Nat
  rear : Option Nat
  next : Nat → Option Nat
  conn : Nat → Connection
  fresh : Nat

/-- The pointers as `init_queue` leaves them. -/
def initQueue : ConnectionQueue := ⟨none, none, fun _ => none, fun _ => ⟨[], []⟩, 0⟩

/-- `isEmpty`. -/
def isEmpty (queue : ConnectionQueue) : Bool := queue.front.isNone

/-- `enqueue_connection`, between locking and the broadcast. -/
def enqueueConnection (queue : ConnectionQueue) (connection : Connection) : ConnectionQueue :=
  let new := queue.fresh
  let filled := { queue with
    fresh := new + 1
    conn := Function.update queue.conn new connection
    next := Function.update queue.next new none }
  if isEmpty queue then { filled with rear := some new, front := some new }
  else
    match queue.rear with
    | none => filled
    | some rear =>
      { filled with next := Function.update filled.next rear (some new), rear := some new }

/-- `dequeue_connection`: the node it returns and the queue it leaves. -/
def dequeueConnection (queue : ConnectionQueue) : Option Nat × ConnectionQueue :=
  (queue.front,
    if queue.front = queue.rear then { queue with front := none, rear := none }
    else { queue with front := queue.front.bind queue.next })

/-- The queue links the nodes `nodes`, from front to rear. -/
structure ConnectionQueue.Holds (queue : ConnectionQueue) (nodes : List Nat) : Prop where
  chain : Chain queue.next queue.front nodes
  rear : queue.rear = nodes.getLast?
  nodup : nodes.Nodup
  old : ∀ a ∈ nodes, a < queue.fresh

theorem initQueue_holds : initQueue.Holds [] := ⟨rfl, rfl, List.nodup_nil, by simp⟩

theorem ConnectionQueue.Holds.unique {queue : ConnectionQueue} {nodes nodes' : List Nat}
    (h : queue.Holds nodes) (h' : queue.Holds nodes') : nodes = nodes' :=
  h.chain.unique h'.chain

theorem ConnectionQueue.Holds.isEmpty_iff {queue : ConnectionQueue} {nodes : List Nat}
    (h : queue.Holds nodes) : isEmpty queue = true ↔ nodes = [] := by
  unfold isEmpty
  rw [Option.isNone_iff_eq_none]
  cases nodes with
  | nil => exact ⟨fun _ => rfl, fun _ => h.chain⟩
  | cons a as =>
    rw [h.chain.1]
    simp

/-- `enqueue_connection` appends a node. -/
theorem ConnectionQueue.Holds.enqueue {queue : ConnectionQueue} {nodes : List Nat}
    (h : queue.Holds nodes) (connection : Connection) :
    (enqueueConnection queue connection).Holds (nodes ++ [queue.fresh]) := by
  have hnew : queue.fresh ∉ nodes := fun hmem => Nat.lt_irrefl _ (h.old _ hmem)
  have hnodup : (nodes ++ [queue.fresh]).Nodup :=
    List.nodup_append.mpr ⟨h.nodup, List.nodup_singleton _, by
      rintro a ha b hb rfl
      exact hnew (List.mem_singleton.mp hb ▸ ha)⟩
  have hold : ∀ a ∈ nodes ++ [queue.fresh], a < queue.fresh + 1 := by
    intro a ha
    rcases List.mem_append.mp ha with ha | ha
    · exact Nat.lt_succ_of_lt (h.old a ha)
    · rw [List.mem_singleton.mp ha]; exact Nat.lt_succ_self _
  unfold enqueueConnection
  by_cases hempty : nodes = []
  · subst hempty
    rw [if_pos (h.isEmpty_iff.mpr rfl)]
    exact ⟨⟨rfl, Function.update_self ..⟩, rfl, hnodup, hold⟩
  · rw [if_neg fun he => hempty (h.isEmpty_iff.mp he)]
    obtain ⟨init, last, rfl⟩ : ∃ init last, nodes = init ++ [last] :=
      ⟨nodes.dropLast, nodes.getLast hempty, (List.dropLast_append_getLast hempty).symm⟩
    have hrear : queue.rear = some last := by rw [h.rear, List.getLast?_concat]
    have hlast : last ≠ queue.fresh := by
      rintro rfl
      exact hnew (List.mem_append_right _ (List.mem_singleton_self _))
    rw [hrear]
    refine ⟨h.chain.append_new ?_ (Function.update_self ..) ?_, ?_, hnodup, hold⟩
    · exact (Function.update_of_ne (Ne.symm hlast) ..).trans (Function.update_self ..)
    · intro a ha
      have hal : a ≠ last := by
        rintro rfl
        exact (List.nodup_append.mp h.nodup).2.2 a ha a (List.mem_singleton_self _) rfl
      have haf : a ≠ queue.fresh := by
        rintro rfl
        exact hnew (List.mem_append_left _ ha)
      exact (Function.update_of_ne hal ..).trans (Function.update_of_ne haf ..)
    · exact List.getLast?_concat.symm

/-- `dequeue_connection` takes the first node. -/
theorem ConnectionQueue.Holds.dequeue {queue : ConnectionQueue} {a : Nat} {nodes : List Nat}
    (h : queue.Holds (a :: nodes)) :
    (dequeueConnection queue).1 = some a ∧ (dequeueConnection queue).2.Holds nodes := by
  obtain ⟨hfront, hchain⟩ := h.chain
  have hanodes := (List.nodup_cons.mp h.nodup).1
  refine ⟨hfront, ?_⟩
  unfold dequeueConnection
  cases nodes with
  | nil =>
    have hrear : queue.rear = some a := h.rear
    rw [if_pos (hfront.trans hrear.symm)]
    exact ⟨rfl, rfl, List.nodup_nil, by simp⟩
  | cons b bs =>
    have hrear : queue.rear = (b :: bs).getLast? := by rw [h.rear]; rfl
    have hne : queue.front ≠ queue.rear := by
      rw [hfront, hrear]
      intro heq
      exact hanodes (List.mem_of_getLast? heq.symm)
    rw [if_neg hne]
    refine ⟨?_, hrear, (List.nodup_cons.mp h.nodup).2, fun c hc => h.old c (List.mem_cons_of_mem _ hc)⟩
    show Chain queue.next (queue.front.bind queue.next) (b :: bs)
    rw [hfront]
    exact hchain

/-- Taking from an empty queue leaves it empty. -/
theorem ConnectionQueue.Holds.dequeue_nil {queue : ConnectionQueue} (h : queue.Holds []) :
    (dequeueConnection queue).1 = none ∧ (dequeueConnection queue).2.Holds [] := by
  have hfront : queue.front = none := h.chain
  have hrear : queue.rear = none := h.rear
  refine ⟨hfront, ?_⟩
  unfold dequeueConnection
  rw [if_pos (hfront.trans hrear.symm)]
  exact ⟨rfl, rfl, List.nodup_nil, by simp⟩

end Ems.Server
