import Ems.Server.Held

/-!
# The pool before its shutdown

As long as the main thread has not left its loop no worker leaves either, and nobody holds
the lock of the flag for writing (`Running`). Then a thread of the pool waits only for the
queue's lock, whose owner can go on, for a broadcast, or for its client (`exists_step`).
-/

namespace Ems.Server.Pool

open Conc

variable {n : Nat}

/-- The main thread is in its loop or in `enqueue_connection`. -/
def MainPc.loops : MainPc → Bool
  | .listen => true
  | .enqueueLock _ => true
  | .enqueuePush _ => true
  | .enqueueBroadcast => true
  | .enqueueUnlock => true
  | _ => false

/-- The worker is not on its way out. -/
def WorkerPc.stays : WorkerPc → Bool
  | .checkUnlock terminate => !terminate
  | .recheckUnlock terminate => !terminate
  | .leave => false
  | .exited => false
  | _ => true

structure Running (s : State n) : Prop where
  main : s.main.loops = true
  flag : s.terminate = false
  lock : s.terminationLock.writer = none
  stays : ∀ w, (s.worker w).stays = true

/-- A worker that stays goes to another place. -/
theorem Running.goto {s s' : State n} {w : Fin n} {pc : WorkerPc} (hi : Running s)
    (hm : s'.main = s.main) (ht : s'.terminate = s.terminate)
    (hl : s'.terminationLock.writer = none) (hw : s'.worker = Function.update s.worker w pc)
    (hp : pc.stays = true) : Running s' := by
  refine ⟨hm ▸ hi.main, ht ▸ hi.flag, hl, fun u => ?_⟩
  rw [hw]
  by_cases huw : u = w
  · rw [huw, Function.update_self]
    exact hp
  · rw [Function.update_of_ne huw]
    exact hi.stays u

theorem Running.wakeAll {s : State n} (hi : Running s) (w : Fin n) :
    (s.wakeAll.worker w).stays = true := by
  unfold State.wakeAll
  dsimp only
  by_cases h : s.worker w = .asleep
  · rw [if_pos h]
    rfl
  · rw [if_neg h]
    exact hi.stays w

theorem step_running {s s' : State n} {a : Act n} (hs : Step s a s') (ha : a ≠ .shutdown)
    (hi : Running s) : Running s' := by
  have hout : ∀ {pc : MainPc}, s.main = pc → pc.loops = false → Running s' := by
    intro pc hm hpc
    have hmain := hi.main
    rw [hm, hpc] at hmain
    cases hmain
  cases hs
  case connect => exact ⟨rfl, hi.flag, hi.lock, hi.stays⟩
  case shutdown => exact absurd rfl ha
  case enqueueLock => exact ⟨rfl, hi.flag, hi.lock, hi.stays⟩
  case enqueuePush => exact ⟨rfl, hi.flag, hi.lock, hi.stays⟩
  case enqueueBroadcast => exact ⟨rfl, hi.flag, hi.lock, hi.wakeAll⟩
  case enqueueUnlock => exact ⟨rfl, hi.flag, hi.lock, hi.stays⟩
  case setLock h _ => exact hout h rfl
  case setFlag h => exact hout h rfl
  case setUnlock h => exact hout h rfl
  case broadcast h => exact hout h rfl
  case join h _ _ => exact hout h rfl
  case joined h _ => exact hout h rfl
  case spurious => exact hi.goto rfl rfl hi.lock rfl rfl
  -- the flag is read as it is
  case checkRead => exact hi.goto rfl rfl hi.lock rfl (by rw [hi.flag]; rfl)
  case recheckRead => exact hi.goto rfl rfl hi.lock rfl (by rw [hi.flag]; rfl)
  case checkLock h hl => exact hi.goto rfl rfl (RwLock.rdlock_some hl).2.1 rfl rfl
  case recheckLock h hl => exact hi.goto rfl rfl (RwLock.rdlock_some hl).2.1 rfl rfl
  case checkUnlock w b h =>
    have hb := hi.stays w
    rw [h] at hb
    cases b with
    | true => cases hb
    | false => exact hi.goto rfl rfl (RwLock.unlock_unwritten hi.lock _) rfl rfl
  case recheckUnlock w b h =>
    have hb := hi.stays w
    rw [h] at hb
    cases b with
    | true => cases hb
    | false => exact hi.goto rfl rfl (RwLock.unlock_unwritten hi.lock _) rfl rfl
  case leave w h =>
    have hb := hi.stays w
    rw [h] at hb
    cases hb
  all_goals exact hi.goto rfl rfl hi.lock rfl rfl

theorem running_init : Running (State.init : State n) := ⟨rfl, rfl, rfl, fun _ => rfl⟩

/-- The worker waits for nobody of the pool but, perhaps, its owner of the queue's lock. -/
theorem worker_moves {s : State n} {w : Fin n} (hi : Running s)
    (hlock : s.queueLock = none ∨ (s.worker w).holding = true) (hw : s.worker w ≠ .asleep) :
    (step s (.worker w)).isSome := by
  have hrdlock : ∀ u : Who n, (s.terminationLock.rdlock u).isSome := by
    intro u
    unfold RwLock.rdlock
    rw [if_pos hi.lock]
    rfl
  have hstays := hi.stays w
  show (advance s w).isSome
  unfold advance
  cases hp : s.worker w with
  | checkLock =>
    dsimp only
    rw [Option.isSome_map]
    exact hrdlock _
  | recheckLock =>
    dsimp only
    rw [Option.isSome_map]
    exact hrdlock _
  | acquire =>
    rw [hp] at hlock
    dsimp only
    rw [if_pos (hlock.resolve_right Bool.false_ne_true)]
    rfl
  | woken =>
    rw [hp] at hlock
    dsimp only
    rw [if_pos (hlock.resolve_right Bool.false_ne_true)]
    rfl
  | asleep => exact absurd hp hw
  | exited => rw [hp] at hstays; cases hstays
  | _ => rfl

/-- The main thread goes on with `enqueue_connection`. -/
theorem main_moves {s : State n} (hi : Running s)
    (hlock : s.queueLock = none ∨ s.main.holding = true) (hm : s.main ≠ .listen) :
    (step s .main).isSome := by
  have hloops := hi.main
  show (advanceMain s).isSome
  unfold advanceMain
  cases hp : s.main with
  | listen => exact absurd hp hm
  | enqueueLock c =>
    rw [hp] at hlock
    dsimp only
    rw [if_pos (hlock.resolve_right Bool.false_ne_true)]
    rfl
  | enqueuePush c => rfl
  | enqueueBroadcast => rfl
  | enqueueUnlock => rfl
  | _ => rw [hp] at hloops; cases hloops

/-- **Nobody waits for ever for a lock.** When neither the main thread nor a worker without a
client can go on, the main thread listens and all these workers are asleep. -/
theorem rest_of_stuck {s : State n} (hi : Running s) (hq : QueueInv s)
    (hmain : (step s .main).isSome = false)
    (hworkers : ∀ w, s.serves w = none → (step s (.worker w)).isSome = false) :
    s.main = .listen ∧ ∀ w, s.serves w = none → s.worker w = .asleep := by
  have hfree : s.queueLock = none := by
    cases hl : s.queueLock with
    | none => rfl
    | some u =>
      have hin := (hq.owned u).mp hl
      cases u with
      | main =>
        have hne : s.main ≠ .listen := fun h => by
          unfold State.inside at hin
          rw [h] at hin
          cases hin
        rw [main_moves hi (.inr hin) hne] at hmain
        cases hmain
      | worker w =>
        have hhold : (s.worker w).holding = true := hin
        have hnone : s.serves w = none := by
          unfold State.serves
          cases hp : s.worker w with
          | serving c => rw [hp] at hhold; cases hhold
          | _ => rfl
        have hne : s.worker w ≠ .asleep := fun h => by rw [h] at hhold; cases hhold
        have hstuck := hworkers w hnone
        rw [worker_moves hi (.inr hhold) hne] at hstuck
        cases hstuck
  refine ⟨?_, fun w hw => ?_⟩
  · by_contra hne
    rw [main_moves hi (.inl hfree) hne] at hmain
    cases hmain
  · by_contra hne
    have hstuck := hworkers w hw
    rw [worker_moves hi (.inl hfree) hne] at hstuck
    cases hstuck

end Ems.Server.Pool
