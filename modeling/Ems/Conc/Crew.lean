import Ems.Conc.Machine
import Ems.Conc.Program

/-!
# Threads that run programs

Any number of threads that share a store and some locks. A thread calls a piece of code,
makes its steps in any order with those of the others, and returns. Calls are numbered in
the order in which they are made, so that two calls of one thread can be told apart.

`none_stuck` is what an order of the locks is good for: when every piece of code follows
it, no set of threads can wait for each other. It does not matter to whom a lock is given
first, nor whether a reader has to wait behind a writer that waits: a thread waits for a
lock only while somebody else holds it.
-/

namespace Conc

/-! ## What a thread holds -/

namespace RwLock

variable {T : Type} [DecidableEq T] {k k' : RwLock T} {t u : T} {mode : Mode}

/-- A lock call. -/
def take (k : RwLock T) (t : T) : Mode → Option (RwLock T)
  | .read => k.rdlock t
  | .write => k.wrlock t

/-- How the thread holds the lock. -/
def held (k : RwLock T) (t : T) : Option Mode :=
  if k.writer = some t then some .write
  else if t ∈ k.readers then some .read
  else none

/-- Nobody holds a free lock. -/
@[simp] theorem held_free : (free : RwLock T).held t = none := by simp [held, free]

/-- Who takes a lock holds it. -/
theorem held_take (h : k.take t mode = some k') : k'.held t = some mode := by
  cases mode with
  | read =>
    obtain ⟨-, hw, hr⟩ := rdlock_some h
    simp [held, hw, hr]
  | write =>
    obtain ⟨-, -, hw, -⟩ := wrlock_some h
    simp [held, hw]

/-- The others hold what they held. -/
theorem held_take_other (h : k.take t mode = some k') (hu : u ≠ t) : k'.held u = k.held u := by
  cases mode with
  | read =>
    obtain ⟨hw, hw', hr⟩ := rdlock_some h
    simp [held, hw, hw', hr, hu]
  | write =>
    obtain ⟨hw, hr, hw', hr'⟩ := wrlock_some h
    simp [held, hw, hw', hr, hr', Ne.symm hu]

/-- A lock that is granted for writing was held by nobody. -/
theorem held_before_write (h : k.take t .write = some k') (u : T) : k.held u = none := by
  obtain ⟨hw, hr, -⟩ := wrlock_some h
  simp [held, hw, hr]

/-- A lock that is granted was held for writing by nobody. -/
theorem held_before (h : k.take t mode = some k') (u : T) : k.held u ≠ some .write := by
  cases mode with
  | read =>
    obtain ⟨hw, -⟩ := rdlock_some h
    simp [held, hw]
  | write =>
    rw [held_before_write h]
    nofun

/-- Who gives back a lock does not hold it. -/
theorem held_unlock : (k.unlock t).held t = none := by
  unfold unlock
  split
  next => exact held_free
  next hw => simp [held, hw]

/-- The others hold what they held. -/
theorem held_unlock_other (hu : u ≠ t) : (k.unlock t).held u = k.held u := by
  unfold unlock
  split
  next hw =>
    have hr : k.readers = ∅ := k.excl (by simp [hw])
    simp [held, free, hw, hr, Ne.symm hu]
  next => simp [held, hu]

/-- A writer is alone. -/
theorem held_alone (h : k.held t = some .write) (hu : u ≠ t) : k.held u = none := by
  have hw : k.writer = some t := by
    by_contra hw
    unfold held at h
    rw [if_neg hw] at h
    split at h <;> cases h
  have hr : k.readers = ∅ := k.excl (by simp [hw])
  simp [held, hw, hr, Ne.symm hu]

end RwLock

/-! ## The machine -/

/-- A call under way: its number, what was called, and the rest of the code. -/
structure Running (L E : Type) (R : E → Type) (α C : Type) where
  no : Nat
  call : C
  rest : Program L E R α

/-- The store, its locks and the threads. -/
structure Crew (T L E : Type) (R : E → Type) (α C σ : Type) where
  store : σ
  lock : L → RwLock T
  calls : Nat
  thread : T → Option (Running L E R α C)

/-- A thread calls, moves, returns; `H` is what is left to chance. -/
inductive Crew.Act (T C H : Type) where
  | call (t : T) (c : C)
  | step (t : T) (x : H)
  | ret (t : T)

/-- The code of every call, and what the actions do to the store. -/
structure System (L E : Type) (R : E → Type) (α C σ H : Type) where
  code : C → Program L E R α
  answer : H → (e : E) → σ → Option (R e × σ)

variable {T L E α C σ H : Type} {R : E → Type} [DecidableEq T]

namespace Crew

/-- Nobody in a call, no lock held. -/
def start (store : σ) : Crew T L E R α C σ := ⟨store, fun _ => RwLock.free, 0, fun _ => none⟩

/-- Thread `t` goes on with `next`. -/
def goto (s : Crew T L E R α C σ) (t : T) (next : Option (Running L E R α C)) :
    Crew T L E R α C σ :=
  { s with thread := Function.update s.thread t next }

/-- The locks of thread `t`. -/
def held (s : Crew T L E R α C σ) (t : T) : Program.Held L := fun l => (s.lock l).held t

section

variable {s : Crew T L E R α C σ} {t u : T} {l : L}

/-- A thread that moves is where it has moved to. -/
@[simp] theorem goto_self (next : Option (Running L E R α C)) : (s.goto t next).thread t = next :=
  Function.update_self ..

/-- The others stay where they are. -/
@[simp] theorem goto_other {next : Option (Running L E R α C)} (h : u ≠ t) :
    (s.goto t next).thread u = s.thread u :=
  Function.update_of_ne h ..

/-- Nobody holds anything in the beginning. -/
theorem held_start (store : σ) (t : T) :
    (start store : Crew T L E R α C σ).held t = fun _ => none :=
  funext fun _ => RwLock.held_free

/-- A lock that is held for writing is held by nobody else. -/
theorem held_alone (h : s.held t l = some .write) (hu : u ≠ t) : s.held u l = none :=
  RwLock.held_alone h hu

end

variable [DecidableEq L]

/-- One step of a thread with the call `r`. -/
def advance (sys : System L E R α C σ H) (s : Crew T L E R α C σ) (t : T) (x : H)
    (r : Running L E R α C) : Option (Crew T L E R α C σ) :=
  match r.rest with
  | .done _ => none
  | .lock l mode next =>
    ((s.lock l).take t mode).map fun k =>
      { s with lock := Function.update s.lock l k }.goto t (some { r with rest := next })
  | .unlock l next =>
    some ({ s with lock := Function.update s.lock l ((s.lock l).unlock t) }.goto t
      (some { r with rest := next }))
  | .act e next =>
    (sys.answer x e s.store).map fun a =>
      { s with store := a.2 }.goto t (some { r with rest := next a.1 })
  | .undefined => none

/-- One action. -/
def step (sys : System L E R α C σ H) (s : Crew T L E R α C σ) :
    Act T C H → Option (Crew T L E R α C σ)
  | .call t c =>
    match s.thread t with
    | none => some ({ s with calls := s.calls + 1 }.goto t (some ⟨s.calls, c, sys.code c⟩))
    | some _ => none
  | .step t x => (s.thread t).bind (advance sys s t x)
  | .ret t =>
    match s.thread t with
    | some ⟨_, _, .done _⟩ => some (s.goto t none)
    | _ => none

/-- The thread an action is of. -/
def Act.who : Act T C H → T
  | .call t _ => t
  | .step t _ => t
  | .ret t => t

/-! ## What one step can do -/

inductive Step (sys : System L E R α C σ H) :
    Crew T L E R α C σ → Act T C H → Crew T L E R α C σ → Prop where
  | call {s t c} (h : s.thread t = none) :
      Step sys s (.call t c)
        ({ s with calls := s.calls + 1 }.goto t (some ⟨s.calls, c, sys.code c⟩))
  | ret {s t n c a} (h : s.thread t = some ⟨n, c, .done a⟩) : Step sys s (.ret t) (s.goto t none)
  | lock {s t x n c l mode next k} (h : s.thread t = some ⟨n, c, .lock l mode next⟩)
      (hk : (s.lock l).take t mode = some k) :
      Step sys s (.step t x)
        ({ s with lock := Function.update s.lock l k }.goto t (some ⟨n, c, next⟩))
  | unlock {s t x n c l next} (h : s.thread t = some ⟨n, c, .unlock l next⟩) :
      Step sys s (.step t x)
        ({ s with lock := Function.update s.lock l ((s.lock l).unlock t) }.goto t
          (some ⟨n, c, next⟩))
  | act {s t x n c e next r store} (h : s.thread t = some ⟨n, c, .act e next⟩)
      (hr : sys.answer x e s.store = some (r, store)) :
      Step sys s (.step t x) ({ s with store := store }.goto t (some ⟨n, c, next r⟩))

/-- Every action is one of the rules. -/
theorem step_cases {sys : System L E R α C σ H} {s s' : Crew T L E R α C σ} {a : Act T C H}
    (h : step sys s a = some s') : Step sys s a s' := by
  cases a with
  | call t c =>
    simp only [step] at h
    split at h
    next ht => cases h; exact .call ht
    next => cases h
  | ret t =>
    simp only [step] at h
    split at h
    next ht => cases h; exact .ret ht
    next => cases h
  | step t x =>
    obtain ⟨⟨n, c, p⟩, ht, hadv⟩ := Option.bind_eq_some_iff.mp h
    unfold advance at hadv
    cases p with
    | done a => cases hadv
    | lock l mode next =>
      obtain ⟨k, hk, rfl⟩ := Option.map_eq_some_iff.mp hadv
      exact .lock ht hk
    | unlock l next => cases hadv; exact .unlock ht
    | act e next =>
      obtain ⟨⟨r, store⟩, hr, rfl⟩ := Option.map_eq_some_iff.mp hadv
      exact .act ht hr
    | undefined => cases hadv

section Steps

variable {sys : System L E R α C σ H} {s s' : Crew T L E R α C σ} {a : Act T C H} {t u : T}
  {l : L}

/-- A lock that was granted is held. -/
theorem held_lock {mode : Mode} {k : RwLock T} (hk : (s.lock l).take t mode = some k)
    (next : Option (Running L E R α C)) :
    (goto { s with lock := Function.update s.lock l k } t next).held t =
      Function.update (s.held t) l (some mode) := by
  funext l'
  show (Function.update s.lock l k l').held t = _
  by_cases hl : l' = l
  · rw [hl, Function.update_self, Function.update_self]
    exact RwLock.held_take hk
  · rw [Function.update_of_ne hl, Function.update_of_ne hl]
    rfl

/-- A lock that was given back is not held. -/
theorem held_unlock (next : Option (Running L E R α C)) :
    (goto { s with lock := Function.update s.lock l ((s.lock l).unlock t) } t next).held t =
      Function.update (s.held t) l none := by
  funext l'
  show (Function.update s.lock l _ l').held t = _
  by_cases hl : l' = l
  · rw [hl, Function.update_self, Function.update_self]
    exact RwLock.held_unlock
  · rw [Function.update_of_ne hl, Function.update_of_ne hl]
    rfl

/-- A step changes nothing of what the other threads hold. -/
theorem Step.held_other (hs : Step sys s a s') (hu : u ≠ a.who) : s'.held u = s.held u := by
  cases hs
  case lock t x n c l mode next k h hk =>
    funext l'
    show (Function.update s.lock l k l').held u = _
    by_cases hl : l' = l
    · rw [hl, Function.update_self]
      exact RwLock.held_take_other hk hu
    · rw [Function.update_of_ne hl]
      rfl
  case unlock t x n c l next h =>
    funext l'
    show (Function.update s.lock l ((s.lock l).unlock t) l').held u = _
    by_cases hl : l' = l
    · rw [hl, Function.update_self]
      exact RwLock.held_unlock_other hu
    · rw [Function.update_of_ne hl]
      rfl
  all_goals rfl

/-- Nor of where they are. -/
theorem Step.thread_other (hs : Step sys s a s') (hu : u ≠ a.who) :
    s'.thread u = s.thread u := by
  cases hs <;> exact goto_other hu

/-- Calls are numbered upwards. -/
theorem Step.calls_le (hs : Step sys s a s') : s.calls ≤ s'.calls := by
  cases hs
  case call => exact Nat.le_succ _
  all_goals exact Nat.le_refl _

end Steps

/-! ## The history of a call -/

section History

/-- The threads as a machine. -/
def machine (sys : System L E R α C σ H) (store : σ) :
    Machine (Crew T L E R α C σ) (Act T C H) :=
  ⟨start store, step sys⟩

/-- What a step shows: the action of a call and its answer. -/
def answered (sys : System L E R α C σ H) (s : Crew T L E R α C σ) :
    Act T C H → List (Nat × (e : E) × R e)
  | .step t x =>
    match s.thread t with
    | some ⟨n, _, .act e _⟩ => ((sys.answer x e s.store).map fun a => (n, ⟨e, a.1⟩)).toList
    | _ => []
  | _ => []

omit [DecidableEq T] [DecidableEq L] in
/-- What a step has asked and been answered. -/
theorem answered_act {sys : System L E R α C σ H} {s : Crew T L E R α C σ} {t : T} {x : H}
    {n : Nat} {c : C} {e : E} {next : R e → Program L E R α} {r : R e} {store : σ}
    (h : s.thread t = some ⟨n, c, .act e next⟩) (hr : sys.answer x e s.store = some (r, store)) :
    answered sys s (.step t x) = [(n, ⟨e, r⟩)] := by
  simp only [answered, h, hr, Option.map_some, Option.toList_some]

/-- What a step shows: a call that returns, and its result. -/
def returned (s : Crew T L E R α C σ) : Act T C H → List (Nat × C × α)
  | .ret t =>
    match s.thread t with
    | some ⟨n, c, .done a⟩ => [(n, c, a)]
    | _ => []
  | _ => []

variable (sys : System L E R α C σ H) (store : σ)

/-- The actions of call number `n` in a run. -/
def history (tr : List (Act T C H)) (n : Nat) : Program.Past E R :=
  ((machine sys store).log (answered sys) tr).filterMap fun x => if x.1 = n then some x.2 else none

/-- The calls that have returned in a run. -/
def returns (tr : List (Act T C H)) : List (Nat × C × α) := (machine sys store).log returned tr

/-- The numbers of the calls: those under way and those that have returned are all
different, and only calls that have been made have done anything. -/
structure Numbered (tr : List (Act T C H)) (s : Crew T L E R α C σ) : Prop where
  running : ∀ t r, s.thread t = some r → r.no < s.calls
  distinct : ∀ t u r r', s.thread t = some r → s.thread u = some r' → r.no = r'.no → t = u
  ended : ∀ x ∈ returns sys store tr, x.1 < s.calls ∧ ∀ t r, s.thread t = some r → r.no ≠ x.1
  nodup : ((returns sys store tr).map (·.1)).Nodup
  silent : ∀ n, s.calls ≤ n → history sys store tr n = []

variable {sys store} {s s' : Crew T L E R α C σ} {a : Act T C H} {tr : List (Act T C H)}

omit [DecidableEq T] [DecidableEq L] in
/-- Only a call that has come to its end returns. -/
theorem mem_returned {x : Nat × C × α} (hx : x ∈ returned s a) :
    s.thread a.who = some ⟨x.1, x.2.1, .done x.2.2⟩ := by
  cases a with
  | ret t =>
    simp only [returned] at hx
    split at hx
    next ht =>
      rw [List.mem_singleton.mp hx]
      exact ht
    next => exact absurd hx List.not_mem_nil
  | _ => exact absurd hx List.not_mem_nil

/-- One step more of the history of a call. -/
theorem history_snoc (hrun : (machine sys store).run tr = some s) (h : step sys s a = some s')
    (n : Nat) : history sys store (tr ++ [a]) n = history sys store tr n ++
      (answered sys s a).filterMap fun x => if x.1 = n then some x.2 else none := by
  unfold history
  rw [(machine sys store).log_snoc _ hrun h, List.filterMap_append]

/-- One step more of what has been returned. -/
theorem returns_snoc (hrun : (machine sys store).run tr = some s) (h : step sys s a = some s') :
    returns sys store (tr ++ [a]) = returns sys store tr ++ returned s a :=
  (machine sys store).log_snoc _ hrun h

omit [DecidableEq T] [DecidableEq L] in
/-- Who acts is the call of the thread. -/
theorem answered_no {x : Nat × (e : E) × R e} (hx : x ∈ answered sys s a) :
    ∃ r, s.thread a.who = some r ∧ r.no = x.1 := by
  cases a with
  | step t y =>
    simp only [answered] at hx
    split at hx
    next n c e next ht =>
      obtain ⟨b, -, rfl⟩ := Option.map_eq_some_iff.mp (Option.mem_toList.mp hx)
      exact ⟨_, ht, rfl⟩
    next => exact absurd hx List.not_mem_nil
  | _ => exact absurd hx List.not_mem_nil

/-- The history of any other call stays as it is. -/
theorem history_other (hrun : (machine sys store).run tr = some s) (h : step sys s a = some s')
    {n : Nat} (hn : ∀ r, s.thread a.who = some r → r.no ≠ n) :
    history sys store (tr ++ [a]) n = history sys store tr n := by
  rw [history_snoc hrun h, List.filterMap_eq_nil_iff.mpr, List.append_nil]
  intro x hx
  obtain ⟨r, hr, hno⟩ := answered_no hx
  rw [if_neg (by rw [← hno]; exact hn r hr)]

variable (sys store) in
/-- The call has been made: it is under way or has returned. -/
def Made (tr : List (Act T C H)) (s : Crew T L E R α C σ) (n : Nat) : Prop :=
  (∃ t r, s.thread t = some r ∧ r.no = n) ∨ n ∈ (returns sys store tr).map (·.1)

/-- It stays so. -/
theorem Made.step {n : Nat} (hrun : (machine sys store).run tr = some s)
    (h : step sys s a = some s') (hn : Made sys store tr s n) :
    Made sys store (tr ++ [a]) s' n := by
  unfold Made
  rw [returns_snoc hrun h, List.map_append, List.mem_append]
  rcases hn with ⟨t, r, ht, rfl⟩ | hn
  · by_cases hta : t = a.who
    · subst hta
      -- the moving thread is the one that makes the call: it goes on, or the call is returned now
      cases step_cases h
      case call hnone =>
        simp only [Act.who] at ht
        rw [hnone] at ht
        cases ht
      case ret hat =>
        simp only [Act.who, hat] at ht
        cases ht
        exact .inr (.inr (by simp [returned, hat]))
      case lock hat _ =>
        simp only [Act.who, hat] at ht
        cases ht
        exact .inl ⟨_, _, goto_self _, rfl⟩
      case unlock hat =>
        simp only [Act.who, hat] at ht
        cases ht
        exact .inl ⟨_, _, goto_self _, rfl⟩
      case act hat _ =>
        simp only [Act.who, hat] at ht
        cases ht
        exact .inl ⟨_, _, goto_self _, rfl⟩
    · refine .inl ⟨t, r, ?_, rfl⟩
      rw [(step_cases h).thread_other hta]
      exact ht
  · exact .inr (.inl hn)

/-- No calls yet. -/
theorem start_numbered : Numbered sys store [] (start store : Crew T L E R α C σ) where
  running := nofun
  distinct := nofun
  ended := nofun
  nodup := List.nodup_nil
  silent _ _ := rfl

/-- A call goes on: only its own history may grow. -/
theorem Numbered.move (hi : Numbered sys store tr s) {t : T} {n : Nat} {c : C}
    {p p' : Program L E R α} (h : s.thread t = some ⟨n, c, p⟩)
    (hcalls : s'.calls = s.calls) (hthread : s'.thread = (s.goto t (some ⟨n, c, p'⟩)).thread)
    (hret : returns sys store (tr ++ [a]) = returns sys store tr)
    (hhist : ∀ k, k ≠ n → history sys store (tr ++ [a]) k = history sys store tr k) :
    Numbered sys store (tr ++ [a]) s' := by
  -- every call under way was under way before, with the same number
  have hold : ∀ u r, s'.thread u = some r → ∃ r', s.thread u = some r' ∧ r'.no = r.no := by
    intro u r hu
    rw [hthread] at hu
    by_cases hut : u = t
    · rw [hut, goto_self] at hu
      cases hu
      exact ⟨⟨n, c, p⟩, by rw [hut]; exact h, rfl⟩
    · rw [goto_other hut] at hu
      exact ⟨r, hu, rfl⟩
  constructor
  · intro u r hu
    obtain ⟨r', hr', hno⟩ := hold u r hu
    rw [hcalls, ← hno]
    exact hi.running u r' hr'
  · intro u v r r' hu hv heq
    obtain ⟨q, hq, hqno⟩ := hold u r hu
    obtain ⟨q', hq', hqno'⟩ := hold v r' hv
    exact hi.distinct u v q q' hq hq' (by rw [hqno, hqno', heq])
  · intro x hx
    rw [hret] at hx
    obtain ⟨hlt, hno⟩ := hi.ended x hx
    refine ⟨by rw [hcalls]; exact hlt, fun u r hu => ?_⟩
    obtain ⟨q, hq, hqno⟩ := hold u r hu
    rw [← hqno]
    exact hno u q hq
  · rw [hret]
    exact hi.nodup
  · intro k hk
    rw [hcalls] at hk
    have hkn : k ≠ n := by
      have := hi.running t _ h
      dsimp only at this
      omega
    rw [hhist k hkn]
    exact hi.silent k hk

/-- The numbers stay apart, one step. -/
theorem step_numbered (hrun : (machine sys store).run tr = some s)
    (hstep : step sys s a = some s') (hi : Numbered sys store tr s) :
    Numbered sys store (tr ++ [a]) s' := by
  have hret := returns_snoc hrun hstep
  have hhist := history_snoc hrun hstep
  cases step_cases hstep
  -- the new call gets the next number, which no call under way and no ended one has
  case call t c h =>
    simp only [returned, List.append_nil] at hret
    simp only [answered, List.filterMap_nil, List.append_nil] at hhist
    constructor
    · intro u r hu
      show r.no < s.calls + 1
      by_cases hut : u = t
      · rw [hut, goto_self] at hu
        cases hu
        exact Nat.lt_succ_self _
      · rw [goto_other hut] at hu
        exact Nat.lt_succ_of_lt (hi.running u r hu)
    · intro u v r r' hu hv heq
      by_cases hut : u = t
      · by_cases hvt : v = t
        · rw [hut, hvt]
        · rw [hut, goto_self] at hu
          rw [goto_other hvt] at hv
          cases hu
          exact absurd heq (Nat.ne_of_gt (hi.running v r' hv))
      · by_cases hvt : v = t
        · rw [goto_other hut] at hu
          rw [hvt, goto_self] at hv
          cases hv
          exact absurd heq (Nat.ne_of_lt (hi.running u r hu))
        · rw [goto_other hut] at hu
          rw [goto_other hvt] at hv
          exact hi.distinct u v r r' hu hv heq
    · intro x hx
      rw [hret] at hx
      obtain ⟨hlt, hno⟩ := hi.ended x hx
      refine ⟨Nat.lt_succ_of_lt hlt, fun u r hu => ?_⟩
      by_cases hut : u = t
      · rw [hut, goto_self] at hu
        cases hu
        exact Nat.ne_of_gt hlt
      · rw [goto_other hut] at hu
        exact hno u r hu
    · rw [hret]
      exact hi.nodup
    · intro n hn
      rw [hhist]
      exact hi.silent n (Nat.le_of_succ_le hn)
  -- the call leaves the threads and joins the ended ones
  case ret t n c r h =>
    simp only [returned, h] at hret
    simp only [answered, List.filterMap_nil, List.append_nil] at hhist
    have hold : ∀ u r, (s.goto t none).thread u = some r → u ≠ t ∧ s.thread u = some r := by
      intro u r hu
      by_cases hut : u = t
      · rw [hut, goto_self] at hu
        cases hu
      · rw [goto_other hut] at hu
        exact ⟨hut, hu⟩
    constructor
    · exact fun u r hu => hi.running u r (hold u r hu).2
    · exact fun u v r r' hu hv => hi.distinct u v r r' (hold u r hu).2 (hold v r' hv).2
    · intro x hx
      rw [hret] at hx
      rcases List.mem_append.mp hx with hx | hx
      · exact ⟨(hi.ended x hx).1, fun u r hu => (hi.ended x hx).2 u r (hold u r hu).2⟩
      · rw [List.mem_singleton.mp hx]
        refine ⟨hi.running t _ h, fun u r hu heq => (hold u r hu).1 ?_⟩
        exact hi.distinct u t r _ (hold u r hu).2 h heq
    · rw [hret, List.map_append, List.nodup_append]
      refine ⟨hi.nodup, List.nodup_singleton _, fun x hx y hy heq => ?_⟩
      obtain ⟨z, hz, rfl⟩ := List.mem_map.mp hx
      rw [List.map_singleton, List.mem_singleton] at hy
      exact (hi.ended z hz).2 t _ h (by rw [heq, hy])
    · intro k hk
      rw [hhist]
      exact hi.silent k hk
  case lock h hk =>
    simp only [returned, List.append_nil] at hret
    simp only [answered, h, List.filterMap_nil, List.append_nil] at hhist
    exact hi.move h rfl rfl hret fun k _ => hhist k
  case unlock h =>
    simp only [returned, List.append_nil] at hret
    simp only [answered, h, List.filterMap_nil, List.append_nil] at hhist
    exact hi.move h rfl rfl hret fun k _ => hhist k
  case act h hr =>
    simp only [returned, List.append_nil] at hret
    simp only [answered_act h hr, List.filterMap_cons, List.filterMap_nil] at hhist
    refine hi.move h rfl rfl hret fun k hk => ?_
    rw [hhist, if_neg (Ne.symm hk), List.append_nil]

/-- In every run. -/
theorem run_numbered (hrun : (machine sys store).run tr = some s) : Numbered sys store tr s :=
  (machine sys store).run_invariant start_numbered
    (fun _ _ _ _ hrun hi h => step_numbered hrun h hi) tr s hrun

end History

/-! ## An order of the locks -/

section Order

variable {ρ : Type} [LT ρ] (rank : L → ρ) (undefined fair : C → Program.Past E R → Prop)
  (allowed : (e : E) × R e → Prop)

/-- Every thread is in the middle of code that follows the order, and was answered in an
allowed way so far. -/
def InOrder (s : Crew T L E R α C σ) : Prop :=
  ∀ t, match s.thread t with
    | none => Program.Free (s.held t)
    | some r => ∃ past, (∀ x ∈ past, allowed x) ∧
        Program.Ordered rank (undefined r.call) (fair r.call) r.rest (s.held t) past

/-- The answer of the step is allowed. -/
def Allowed (sys : System L E R α C σ H) (s : Crew T L E R α C σ) : Act T C H → Prop
  | .step t x => ∀ n c e next r store, s.thread t = some ⟨n, c, .act e next⟩ →
      sys.answer x e s.store = some (r, store) → allowed ⟨e, r⟩
  | _ => True

variable {rank undefined fair allowed} {sys : System L E R α C σ H}

/-- One step. A thread that moves is at the next node of its code. -/
theorem step_inOrder (hcode : ∀ c, Program.Ordered rank (undefined c) (fair c) (sys.code c)
      (fun _ => none) [])
    (hfair : ∀ c past, (∀ x ∈ past, allowed x) → fair c past)
    {s s' : Crew T L E R α C σ} {a : Act T C H} (hs : Step sys s a s')
    (hok : Allowed allowed sys s a) (hi : InOrder rank undefined fair allowed s) :
    InOrder rank undefined fair allowed s' := by
  intro u
  by_cases hu : u = a.who
  · subst hu
    have hself := hi a.who
    cases hs
    -- a thread without a call holds nothing, which is how the code of a call begins
    case call t c h =>
      simp only [Act.who, h] at hself
      simp only [Act.who, goto_self]
      have hfree : held (goto { s with calls := s.calls + 1 } t (some ⟨s.calls, c, sys.code c⟩)) t =
          fun _ => none := funext hself
      rw [hfree]
      exact ⟨[], fun _ hx => absurd hx List.not_mem_nil, hcode c⟩
    -- at the end of the code nothing is held any more, provided the answers were fair
    case ret h =>
      simp only [Act.who, h] at hself
      simp only [Act.who, goto_self]
      obtain ⟨past, hpast, hord⟩ := hself
      exact hord.1.mpr (hfair _ past hpast)
    case lock h hk =>
      simp only [Act.who, h] at hself
      simp only [Act.who, goto_self, held_lock hk]
      obtain ⟨past, hpast, hord⟩ := hself
      exact ⟨past, hpast, hord.2⟩
    case unlock h =>
      simp only [Act.who, h] at hself
      simp only [Act.who, goto_self, held_unlock]
      obtain ⟨past, hpast, hord⟩ := hself
      exact ⟨past, hpast, hord.2⟩
    case act t x n c e next r store h hr =>
      simp only [Act.who, h] at hself
      simp only [Act.who, goto_self]
      obtain ⟨past, hpast, hord⟩ := hself
      -- the code behind an action is in order for every answer
      refine ⟨past ++ [(⟨e, r⟩ : (e : E) × R e)], fun y hy => ?_, hord r⟩
      rcases List.mem_append.mp hy with hold | hnew
      · exact hpast y hold
      · rw [List.mem_singleton.mp hnew]
        exact hok n c e next r store h hr
  · rw [hs.thread_other hu, hs.held_other hu]
    exact hi u

/-- The thread is about to ask for the lock. -/
def Waits (s : Crew T L E R α C σ) (t : T) (l : L) : Prop :=
  ∃ n c mode next, s.thread t = some ⟨n, c, .lock l mode next⟩

/-- A lock that a thread waits for is above those it holds. -/
theorem InOrder.rank_lt {s : Crew T L E R α C σ} (hi : InOrder rank undefined fair allowed s)
    {t : T} {k l : L} (hw : s.Waits t l) (hk : s.held t k ≠ none) : rank k < rank l := by
  obtain ⟨n, c, mode, next, ht⟩ := hw
  have hself := hi t
  simp only [ht] at hself
  obtain ⟨past, -, hord⟩ := hself
  exact hord.1 k hk

end Order

/-- **No deadlock.** Of threads that each wait for a lock of another one there are none.
By induction on the lock that is waited for, from the highest one down: whoever holds it
waits for a higher one. -/
theorem InOrder.none_stuck {ρ : Type} [Preorder ρ] [WellFoundedGT ρ] {rank : L → ρ}
    {undefined fair : C → Program.Past E R → Prop} {allowed : (e : E) × R e → Prop}
    {s : Crew T L E R α C σ} (hi : InOrder rank undefined fair allowed s) {D : Set T}
    (hD : ∀ t ∈ D, ∃ l, s.Waits t l ∧ ∃ u ∈ D, s.held u l ≠ none) : D = ∅ := by
  have hnone : ∀ r t l, rank l = r → t ∈ D → ¬ s.Waits t l := by
    intro r
    induction r using WellFoundedGT.induction with
    | ind r ih =>
      intro t l hr ht hw
      obtain ⟨l', hw', u, hu, hheld⟩ := hD t ht
      -- a thread waits for one lock at most
      have hsame : l' = l := by
        obtain ⟨_, _, _, _, h⟩ := hw
        obtain ⟨_, _, _, _, h'⟩ := hw'
        rw [h] at h'
        cases h'
        rfl
      subst hsame
      -- its holder waits as well, for a lock above this one
      obtain ⟨k, hk, -⟩ := hD u hu
      exact ih (rank k) (by rw [← hr]; exact hi.rank_lt hk hheld) u k rfl hu hk
  refine Set.eq_empty_of_forall_notMem fun t ht => ?_
  obtain ⟨l, hw, -⟩ := hD t ht
  exact hnone _ t l rfl ht hw

end Crew

end Conc
