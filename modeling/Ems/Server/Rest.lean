import Ems.Conc.Ending
import Ems.Server.Linear
import Ems.Server.Report

/-!
# The server comes to rest

When no new request and no new SIGUSR1 come, the requests under way and the report are all
served, whoever is scheduled. Two facts make this up. While anything is left to do somebody
can go on (`exists_step`): a session that is inside a lock waits for no other, and the main
thread, which has the list's lock and asks for mutexes, waits only for sessions that are
inside an event. And nobody goes on for ever (`step_left`): every loop of the operations
has a last iteration, if no event has dimensions that a `size_t` cannot count beyond.
-/

namespace Ems.Server.Report

open Conc

/-! ## Dimensions -/

/-- The number of bytes of the matrix does not wrap, and the rows can be counted. -/
def Fits (rows cols : UInt64) : Prop :=
  rows.toNat * cols.toNat * 4 < 2 ^ 64 ∧ rows.toNat + 1 < 2 ^ 64

/-- A request that creates an event of such dimensions, or no event. -/
def Act.Fits : Act → Prop
  | .session (.call _ (.create _ rows cols)) => Report.Fits rows cols
  | _ => True

/-- The dimensions of the event a session is about to create. -/
def creating : Pc → Option (UInt64 × UInt64)
  | .createLock _ rows cols => some (rows, cols)
  | .createLookup _ rows cols => some (rows, cols)
  | .createAppend _ rows cols => some (rows, cols)
  | _ => none

/-- All dimensions fit. -/
structure FitsInv (s : Server.State) : Prop where
  asked : ∀ t d, creating (s.pc t) = some d → Fits d.1 d.2
  events : ∀ event ∈ s.list.nodes, Fits event.rows event.cols

/-- A session moves on, and creates nothing larger. -/
theorem fitsInv_goto {s s' : Server.State} {t : Tid} {pc : Pc} (hi : FitsInv s)
    (hl : ∀ event ∈ s'.list.nodes, Fits event.rows event.cols)
    (hp : s'.pc = Function.update s.pc t pc)
    (hpc : creating pc = none ∨ creating pc = creating (s.pc t)) : FitsInv s' := by
  refine ⟨fun u d hu => ?_, hl⟩
  rw [hp] at hu
  by_cases hut : u = t
  · subst hut
    rw [Function.update_self] at hu
    rcases hpc with hnone | hsame
    · rw [hnone] at hu
      cases hu
    · exact hi.asked u d (hsame.symm.trans hu)
  · rw [Function.update_of_ne hut] at hu
    exact hi.asked u d hu

/-- An event is changed, but not its dimensions. -/
theorem fits_setEvent {s : Server.State} {e : Nat} {event event' : Event} (hi : FitsInv s)
    (he : s.list.nodes[e]? = some event) (hr : event'.rows = event.rows)
    (hc : event'.cols = event.cols) :
    ∀ x ∈ (s.setEvent e event').list.nodes, Fits x.rows x.cols := by
  intro x hx
  rcases List.mem_or_eq_of_mem_set hx with hold | rfl
  · exact hi.events x hold
  · rw [hr, hc]
    exact hi.events event (List.mem_of_getElem? he)

/-- The events fit, one step. -/
theorem step_fitsInv {s s' : Server.State} {a : Server.Act} (hs : Server.Step s a s')
    (ha : (Act.session a).Fits) (hi : FitsInv s) : FitsInv s' := by
  cases hs
  case call t op h =>
    refine ⟨fun u d hu => ?_, hi.events⟩
    by_cases hut : u = t
    · subst hut
      rw [goto_self] at hu
      cases op with
      | create id rows cols => cases hu; exact ha
      | _ => cases hu
    · rw [goto_other hut] at hu
      exact hi.asked u d hu
  case createAppend t c id rows cols h =>
    refine fitsInv_goto hi (fun event hevent => ?_) rfl (.inl rfl)
    change event ∈ (createEvent c.alloc s.list id rows cols).1.nodes at hevent
    rcases createEvent_cases c.alloc s.list id rows cols with hc | hc
    · rw [hc] at hevent
      exact hi.events event hevent
    · rw [hc] at hevent
      rcases List.mem_append.mp hevent with hold | hnew
      · exact hi.events event hold
      · rw [List.mem_singleton.mp hnew]
        exact hi.asked t (rows, cols) (by rw [h]; rfl)
  case reserveAdmit t c q e event h he hq =>
    exact fitsInv_goto hi (fits_setEvent hi he rfl rfl) rfl (.inl rfl)
  case reserveStore t c q e r i event h he hlt hin =>
    exact fitsInv_goto hi (fits_setEvent hi he rfl rfl) rfl (.inl rfl)
  all_goals exact fitsInv_goto hi hi.events rfl (by simp [*, creating])

/-- In every run whose CREATEs fit. -/
theorem run_fitsInv {tr : List Act} {x : State} (hfit : ∀ a ∈ tr, a.Fits)
    (h : machine.run tr = some x) : FitsInv x.sessions := by
  refine machine.run_invariant_of_meets (C := fun _ a => a.Fits)
    (I := fun _ x => FitsInv x.sessions) ⟨nofun, nofun⟩ ?_ tr x (machine.meets_of_forall hfit) h
  intro tr x a x' _ ha hi hstep
  cases step_cases hstep with
  | session _ hs => exact step_fitsInv (Server.step_cases hs) ha hi
  | signal => exact hi
  | main => exact hi

/-- The report of such an event ends. -/
theorem FitsInv.printable {s : Server.State} (hi : FitsInv s) {k : Nat} {event : Event}
    (he : s.list.nodes[k]? = some event) : Client.Printable event :=
  have h := hi.events event (List.mem_of_getElem? he)
  ⟨h.1, h.2⟩

/-- The dimensions of an event never change, and no event goes away. -/
theorem shape_session {tr : List Server.Act} {s s' : Server.State} {a : Server.Act}
    (hrun : Server.machine.run tr = some s) (h : Server.step s a = some s') {e : Nat}
    (he : e < s.list.nodes.length) :
    (s'.list.nodes[e]?).map Event.shape = (s.list.nodes[e]?).map Event.shape := by
  have hs := (run_createdInv hrun).order
  have hs' := (run_createdInv (Server.machine.run_snoc.mpr ⟨s, hrun, h⟩)).order
  unfold creations at hs hs'
  rw [Server.machine.log_snoc created hrun h, ← hs] at hs'
  rw [← List.getElem?_map, ← List.getElem?_map, hs']
  exact List.getElem?_append_left (by rw [List.length_map]; exact he)

/-- The dimensions of the event at `e`. -/
def dims (s : Server.State) (e : Nat) : UInt64 × UInt64 :=
  (((s.list.nodes[e]?).map Event.shape).map (·.2)).getD (0, 0)

/-- The dimensions of an event of the list. -/
theorem dims_eq {s : Server.State} {e : Nat} {event : Event}
    (he : s.list.nodes[e]? = some event) : dims s e = (event.rows, event.cols) := by
  unfold dims
  rw [he]
  rfl

/-- A step of a session leaves the dimensions. -/
theorem dims_session {tr : List Server.Act} {s s' : Server.State} {a : Server.Act}
    (hrun : Server.machine.run tr = some s) (h : Server.step s a = some s') {e : Nat}
    (he : e < s.list.nodes.length) : dims s' e = dims s e := by
  unfold dims
  rw [shape_session hrun h he]

/-- Who stores seats has tested that they are inside the event. -/
def StoringInv (s : Server.State) : Prop :=
  ∀ t q e r i, s.pc t = .reserveStore q e r i →
    ∀ event, s.list.nodes[e]? = some event → q.inBounds event = true

/-- The test looks at the dimensions only. -/
theorem inBounds_congr {q : Request} {event event' : Event} (hr : event'.rows = event.rows)
    (hc : event'.cols = event.cols) : q.inBounds event' = q.inBounds event := by
  unfold Request.inBounds outOfBounds
  rw [hr, hc]

/-- In every run. -/
theorem run_storingInv {tr : List Server.Act} {s : Server.State}
    (h : Server.machine.run tr = some s) : StoringInv s := by
  refine Server.machine.run_invariant (I := fun _ s => StoringInv s) nofun ?_ tr s h
  intro tr s a s' hrun hi hstep u q e r i hu event' he'
  have hs := Server.step_cases hstep
  -- the session was there before, or it has just made the test
  by_cases hsame : ∃ j, s.pc u = .reserveStore q e r j
  · obtain ⟨j, hj⟩ := hsame
    have hlt := run_targetInv hrun u e (by rw [hj]; rfl)
    have he := List.getElem?_eq_getElem hlt
    have hdims := dims_session hrun hstep hlt
    rw [dims_eq he, dims_eq he', Prod.mk.injEq] at hdims
    rw [inBounds_congr hdims.1 hdims.2]
    exact hi u q e r j hj _ he
  · have hown : a.session = u := by
      by_contra hother
      exact hsame ⟨i, (step_pc_other hs hother).symm.trans hu⟩
    subst hown
    cases hs
    case reserveAdmit t c q' e' event h he hq =>
      simp only [Server.Act.session, goto_self, Pc.reserveStore.injEq] at hu
      obtain ⟨rfl, rfl, -, -⟩ := hu
      change (s.list.nodes.set e' _)[e']? = some event' at he'
      obtain ⟨hlt, -⟩ := List.getElem?_eq_some_iff.mp he
      rw [List.getElem?_set_self hlt] at he'
      cases he'
      unfold Request.admitted at hq
      rw [Bool.and_eq_true] at hq
      exact hq.1
    case reserveStore t c q' e' r' j event h he hj hin =>
      simp only [Server.Act.session, goto_self, Pc.reserveStore.injEq] at hu
      obtain ⟨rfl, rfl, rfl, -⟩ := hu
      exact absurd ⟨j, h⟩ hsame
    case call t op h =>
      simp only [Server.Act.session, goto_self] at hu
      cases op <;> cases hu
    all_goals
      simp only [Server.Act.session, goto_self] at hu
      cases hu

/-- With dimensions that fit, every seat that is stored is in the block. -/
theorem stored_inside {tr : List Server.Act} {s : Server.State} (hfit : FitsInv s)
    (hrun : Server.machine.run tr = some s) {t : Tid} {q : Request} {e i : Nat} {r : UInt32}
    {event : Event} (hp : s.pc t = .reserveStore q e r i) (he : s.list.nodes[e]? = some event)
    (hi : i < q.numSeats.toNat) : q.index event i < event.data.length := by
  have hbounds := run_storingInv hrun t q e r i hp event he
  unfold Request.inBounds at hbounds
  rw [List.all_eq_true] at hbounds
  have hinside := hbounds i (List.mem_range.mpr hi)
  rw [Bool.not_eq_true', outOfBounds_eq_false] at hinside
  have hbytes := (hfit.events event (List.mem_of_getElem? he)).1
  have hcap : capacity event < 2 ^ 64 := by
    unfold capacity
    omega
  have hlt := seatIndex_lt hcap hinside
  rw [(run_sizedInv hrun e event he).cells, UInt64.toNat_mul]
  exact (Nat.mod_eq_of_lt hcap).symm ▸ hlt

/-! ## Somebody can go on -/

/-- A session that has not come to the last node of the list. -/
def BoundInv (s : Server.State) : Prop :=
  ∀ t num last ids, s.pc t = .listIds num last ids → ids.length ≤ last

/-- Nobody lists beyond the last node, one step. -/
theorem step_boundInv {s s' : Server.State} {a : Server.Act} (hs : Server.Step s a s')
    (hi : BoundInv s) : BoundInv s' := by
  have hgoto : ∀ {t : Tid} {pc : Pc}, s'.pc = Function.update s.pc t pc →
      (∀ num last ids, pc = .listIds num last ids → ids.length ≤ last) → BoundInv s' := by
    intro t pc hp hpc u num last ids hu
    rw [hp] at hu
    by_cases hut : u = t
    · subst hut
      rw [Function.update_self] at hu
      exact hpc num last ids hu
    · rw [Function.update_of_ne hut] at hu
      exact hi u num last ids hu
  cases hs
  case call t op h => exact hgoto rfl fun num last ids h => by cases op <;> cases h
  case listCount t c h hn => exact hgoto rfl fun num last ids h => by cases h; exact Nat.zero_le _
  case listNext t c num last ids event h he hto =>
    refine hgoto rfl fun num' last' ids' h' => ?_
    cases h'
    have := hi t num last ids h
    rw [List.length_append, List.length_singleton]
    omega
  all_goals exact hgoto rfl nofun

/-- In every run. -/
theorem run_boundInv {tr : List Server.Act} {s : Server.State}
    (h : Server.machine.run tr = some s) : BoundInv s :=
  Server.machine.run_invariant (I := fun _ s => BoundInv s) nofun
    (fun _ _ _ _ _ hi hstep => step_boundInv (Server.step_cases hstep) hi) tr s h

/-- The places before a lock call. -/
def atLock : Pc → Bool
  | .createLock _ _ _ => true
  | .reserveLock _ => true
  | .reserveMutex _ _ => true
  | .showLock _ => true
  | .listLock => true
  | _ => false

/-- What is left to chance, when nothing fails. -/
def turn : Choice := ⟨Alloc.allOk, 1⟩

/-- A session that is not about to take a lock is not held up. -/
theorem advance_isSome {tr : List Server.Act} {s : Server.State} (hfit : FitsInv s)
    (hrun : Server.machine.run tr = some s) {t : Tid} (hlock : atLock (s.pc t) = false)
    (hidle : s.pc t ≠ .idle) (hdone : ∀ r, s.pc t ≠ .done r) : (advance s t turn).isSome := by
  have htarget := run_targetInv hrun t
  have hseen := run_seenInv hrun t
  have hbound := run_boundInv hrun t
  have hnode : ∀ {e : Nat}, (s.pc t).target = some e → ∃ event, s.list.nodes[e]? = some event :=
    fun he => ⟨_, List.getElem?_eq_getElem (htarget _ he)⟩
  unfold advance
  cases hp : s.pc t <;> rw [hp] at hlock hidle hseen
  case idle => exact absurd rfl hidle
  case done r => exact absurd hp (hdone r)
  case createLock => cases hlock
  case reserveLock => cases hlock
  case reserveMutex => cases hlock
  case showLock => cases hlock
  case listLock => cases hlock
  case createLookup => dsimp only; split <;> rfl
  case createAppend => rfl
  case createUnlock => rfl
  case reserveLookup => rfl
  case reserveUnlist => rfl
  case reserveCheck q e =>
    obtain ⟨event, he⟩ := hnode (e := e) (by rw [hp]; rfl)
    simp only [he]
    split <;> rfl
  case reserveStore q e r i =>
    obtain ⟨event, he⟩ := hnode (e := e) (by rw [hp]; rfl)
    simp only [he]
    split
    next hi => rw [if_pos (stored_inside hfit hrun hp he hi)]; rfl
    next => rfl
  case reserveRelease => rfl
  case showLookup => rfl
  case showUnlist => rfl
  case showHeader event => cases event <;> rfl
  case showData e sent =>
    obtain ⟨event, he⟩ := hnode (e := e) (by rw [hp]; rfl)
    simp only [he]
    split
    next => rw [if_pos (show 0 < turn.chunk by decide)]; rfl
    next => rfl
  case listCount => dsimp only; split <;> rfl
  case listIds num last ids =>
    -- there are nodes up to the one that is the last
    obtain ⟨hnum, hne, hlast, -⟩ := hseen
    have hlen : s.list.nodes.length ≠ 0 := by
      rw [← (run_createdInv hrun).eventNum_toNat, ← hnum]
      exact fun h => hne (UInt64.toNat_inj.mp h)
    have hle := hbound num last ids hp
    rw [List.length_map] at hlast
    have hlt : ids.length < s.list.nodes.length := by omega
    simp only [List.getElem?_eq_getElem hlt]
    split <;> rfl
  case listUnlock => rfl

/-- Nothing new comes: the steps that serve what has been asked for. -/
def Act.Serves : Act → Prop
  | .session (.call _ _) => False
  | .signal => False
  | _ => True

/-- A step of the sessions is one of the server, unless the main thread is in the way. -/
theorem step_session {x : State} {a : Server.Act} (hb : blocked x a = false)
    (h : (Server.step x.sessions a).isSome) : (step x (.session a)).isSome := by
  simp only [step, hb, Bool.false_eq_true, if_false]
  rw [Option.isSome_map]
  exact h

/-- Away from a lock, nobody waits for the report. -/
theorem not_blocked {x : State} {t : Tid} (h : atLock (x.sessions.pc t) = false) (c : Choice) :
    blocked x (.step t c) = false := by
  unfold blocked
  dsimp only
  split
  next hp => rw [hp] at h; cases h
  next hp => rw [hp] at h; cases h
  next => rfl

/-- A session inside a lock can go on. -/
theorem session_moves {tr : List Act} {x : State} (hrun : machine.run tr = some x)
    (hfit : FitsInv x.sessions) {t : Tid} (hlock : atLock (x.sessions.pc t) = false) (hidle : x.sessions.pc t ≠ .idle) :
    ∃ a : Act, a.Serves ∧ (step x a).isSome := by
  by_cases hdone : ∃ r, x.sessions.pc t = .done r
  · obtain ⟨r, hr⟩ := hdone
    refine ⟨.session (.ret t), trivial, step_session rfl ?_⟩
    simp only [Server.step, hr]
    rfl
  · refine ⟨.session (.step t turn), trivial, step_session (not_blocked hlock _) ?_⟩
    exact advance_isSome hfit (run_sessions hrun) hlock hidle fun r hr => hdone ⟨r, hr⟩

/-- The main thread can go on when no session is inside a lock. -/
theorem main_moves {tr : List Act} {x : State} (hrun : machine.run tr = some x)
    (hfit : FitsInv x.sessions) (hwriter : x.sessions.rwl.writer = none)
    (hmutex : ∀ e, x.sessions.mutex e = none) (hidle : x.report ≠ .idle) :
    (step x .main).isSome := by
  obtain ⟨hrep, hprint⟩ := run_reportInv hrun
  show ((advanceMain x).map _).isSome = true
  rw [Option.isSome_map]
  have hnode : ∀ k, x.report.holding = some k → ∃ event, x.sessions.list.nodes[k]? = some event :=
    fun k hk => ⟨_, List.getElem?_eq_getElem (hrep.lt hrun hk)⟩
  unfold advanceMain
  cases hx : x.report with
  | idle => exact absurd hx hidle
  | lock => simp only [hwriter, if_true]; rfl
  | head => dsimp only; split <;> rfl
  | mutex k last out => simp only [hmutex k, if_true]; rfl
  | title k last out =>
    obtain ⟨event, he⟩ := hnode k (by rw [hx]; rfl)
    simp only [he]
    rfl
  | row k last out i text =>
    obtain ⟨event, he⟩ := hnode k (by rw [hx]; rfl)
    simp only [he]
    rfl
  | seat k last out i j text =>
    obtain ⟨event, he⟩ := hnode k (by rw [hx]; rfl)
    have hp := hfit.printable he
    obtain ⟨n, hn, m, hm, rfl, rfl, -⟩ : Printing event (.seat k last out i j text) := by
      have := hprint k event (by rw [hx]; rfl) he hp
      rwa [hx] at this
    simp only [he, Option.bind_some]
    split
    next hle =>
      -- the seat is a cell of the block
      have hcols := cols_lt hp hn
      have hlt := (ofNat_succ_le (Nat.lt_of_le_of_lt (Nat.succ_le_succ hm) hcols)).mp hle
      have hcell : n * event.cols.toNat + m < event.data.length := by
        have hbound : n * event.cols.toNat + (m + 1) ≤ event.rows.toNat * event.cols.toNat :=
          inside_mul_le (Nat.succ_pos n) hn hlt
        have hfits := hp.fits
        rw [(run_sizedInv (run_sessions hrun) k event he).cells, UInt64.toNat_mul,
          Nat.mod_eq_of_lt (by omega)]
        omega
      rw [seat_index hp hn hlt, List.getElem?_eq_getElem hcell]
      rfl
    next => rfl
  | next k last out => dsimp only; split <;> rfl
  | unlock => rfl
  | done => rfl

/-- Nobody is in the middle of anything. -/
def AtRest (x : State) : Prop := (∀ t, x.sessions.pc t = .idle) ∧ x.report = .idle

/-- Before its first lock a session has nothing locked. -/
theorem free_outside {pc : Pc} (h : pc = .idle ∨ atLock pc = true) :
    pc.reading = false ∧ pc.writing = false ∧ pc.holding = none := by
  rcases h with rfl | h
  · exact ⟨rfl, rfl, rfl⟩
  · cases pc <;> first | exact ⟨rfl, rfl, rfl⟩ | cases h

/-- When every session is idle or about to take a lock, no lock is held. -/
theorem locks_free {tr : List Server.Act} {s : Server.State}
    (hrun : Server.machine.run tr = some s)
    (hout : ∀ t, s.pc t = .idle ∨ atLock (s.pc t) = true) :
    s.rwl.writer = none ∧ s.rwl.readers = ∅ ∧ ∀ e, s.mutex e = none := by
  have hrwl := run_rwlInv hrun
  refine ⟨?_, ?_, fun e => ?_⟩
  · rw [Option.eq_none_iff_forall_ne_some]
    intro t ht
    exact Bool.false_ne_true ((free_outside (hout t)).2.1.symm.trans ((hrwl.writer t).mp ht))
  · refine Finset.eq_empty_of_forall_notMem fun t ht => ?_
    exact Bool.false_ne_true ((free_outside (hout t)).1.symm.trans ((hrwl.reader t).mp ht))
  · rw [Option.eq_none_iff_forall_ne_some]
    intro t ht
    have hholds := (run_mutexInv hrun e t).mp ht
    rw [(free_outside (hout t)).2.2] at hholds
    cases hholds

/-- As long as something is left to do, somebody can do it. -/
theorem exists_step {tr : List Act} {x : State} (hrun : machine.run tr = some x)
    (hfit : FitsInv x.sessions) (hrest : ¬ AtRest x) :
    ∃ a : Act, a.Serves ∧ (step x a).isSome := by
  by_cases hinside : ∃ t, atLock (x.sessions.pc t) = false ∧ x.sessions.pc t ≠ .idle
  · obtain ⟨t, hlock, hidle⟩ := hinside
    exact session_moves hrun hfit hlock hidle
  -- every session is idle or about to take a lock, so all locks of sessions are free
  have hout : ∀ t, x.sessions.pc t = .idle ∨ atLock (x.sessions.pc t) = true := by
    intro t
    by_cases hidle : x.sessions.pc t = .idle
    · exact .inl hidle
    · refine .inr (Bool.eq_true_of_not_eq_false fun hlock => hinside ⟨t, hlock, hidle⟩)
  obtain ⟨hwriter, hreaders, hmutex⟩ := locks_free (run_sessions hrun) hout
  by_cases hidle : x.report = .idle
  · -- no report: whoever waits gets its lock
    obtain ⟨t, ht⟩ : ∃ t, x.sessions.pc t ≠ .idle := by
      by_contra hno
      exact hrest ⟨fun t => by by_contra h; exact hno ⟨t, h⟩, hidle⟩
    have hlock := (hout t).resolve_left ht
    have hrd : ∃ l, x.sessions.rwl.rdlock t = some l := ⟨_, if_pos hwriter⟩
    have hwr : ∃ l, x.sessions.rwl.wrlock t = some l := ⟨_, if_pos ⟨hwriter, hreaders⟩⟩
    obtain ⟨l, hl⟩ := hrd
    obtain ⟨l', hl'⟩ := hwr
    refine ⟨.session (.step t turn), trivial, step_session ?_ ?_⟩
    · unfold blocked
      rw [hidle]
      dsimp only
      split <;> rfl
    · simp only [Server.step]
      unfold advance
      cases hp : x.sessions.pc t <;> rw [hp] at hlock
      case createLock => simp only [hl']; rfl
      case reserveLock => simp only [hl]; rfl
      case reserveMutex q e => simp only [hmutex e, if_true]; rfl
      case showLock => simp only [hl]; rfl
      case listLock => simp only [hl]; rfl
      all_goals cases hlock
  · exact ⟨.main, trivial, main_moves hrun hfit hwriter hmutex hidle⟩

/-! ## Nobody goes on for ever -/

/-- How much a session has left to do: the places behind the one it is at, and the
iterations of the loop it is in. -/
def left (s : Server.State) : Pc → Nat ×ₗ Nat
  | .idle => toLex (0, 0)
  | .createLock _ _ _ => toLex (5, 0)
  | .createLookup _ _ _ => toLex (4, 0)
  | .createAppend _ _ _ => toLex (3, 0)
  | .createUnlock _ => toLex (2, 0)
  | .reserveLock _ => toLex (8, 0)
  | .reserveLookup _ => toLex (7, 0)
  | .reserveUnlist _ _ => toLex (6, 0)
  | .reserveMutex _ _ => toLex (5, 0)
  | .reserveCheck _ _ => toLex (4, 0)
  | .reserveStore q _ _ i => toLex (3, q.numSeats.toNat - i)
  | .reserveRelease _ _ _ => toLex (2, 0)
  | .showLock _ => toLex (6, 0)
  | .showLookup _ => toLex (5, 0)
  | .showUnlist _ => toLex (4, 0)
  | .showHeader _ => toLex (3, 0)
  | .showData e sent => toLex (2, ((dims s e).1 * (dims s e).2 * 4).toNat - sent.length)
  | .listLock => toLex (5, 0)
  | .listCount => toLex (4, 0)
  | .listIds _ last ids => toLex (3, last - ids.length)
  | .listUnlock _ _ => toLex (2, 0)
  | .done _ => toLex (1, 0)

/-- A session that moves has less left. -/
theorem session_left {tr : List Server.Act} {s s' : Server.State} {a : Server.Act}
    (hrun : Server.machine.run tr = some s) (hs : Server.Step s a s')
    (ha : (Act.session a).Serves) :
    left s' (s'.pc a.session) < left s (s.pc a.session) := by
  cases hs
  case call => exact ha.elim
  case reserveStore t c q e r i event h he hi hin =>
    rw [show Server.Act.session (.step t c) = t from rfl, goto_self, h]
    refine Prod.Lex.toLex_lt_toLex.mpr (.inr ⟨rfl, ?_⟩)
    dsimp only
    omega
  case showWrite t c e sent event h he hn hc =>
    rw [show Server.Act.session (.step t c) = t from rfl, goto_self, h]
    have hsized := run_sizedInv hrun e event he
    have hlen : 0 < (((event.bytes.take event.byteSize).drop sent.length).take c.chunk).length := by
      rw [hsized.take_bytes, List.length_take, List.length_drop, Event.bytes_length,
        ← hsized.byteSize]
      omega
    unfold Event.byteSize at hn
    refine Prod.Lex.toLex_lt_toLex.mpr (.inr ⟨rfl, ?_⟩)
    rw [show dims (s.goto t _) e = dims s e from rfl, dims_eq he]
    dsimp only
    rw [List.length_append]
    omega
  case listNext t c num last ids event h he hto =>
    rw [show Server.Act.session (.step t c) = t from rfl, goto_self, h]
    have := run_boundInv hrun t num last ids h
    refine Prod.Lex.toLex_lt_toLex.mpr (.inr ⟨rfl, ?_⟩)
    dsimp only
    rw [List.length_append, List.length_singleton]
    omega
  all_goals
    simp only [Server.Act.session, goto_self, *]
    simp [left, Prod.Lex.toLex_lt_toLex]

/-- And the others have as much left as before. -/
theorem others_left {tr : List Server.Act} {s s' : Server.State} {a : Server.Act}
    (hrun : Server.machine.run tr = some s) (h : Server.step s a = some s') {u : Tid}
    (hu : a.session ≠ u) : left s' (s'.pc u) = left s (s.pc u) := by
  rw [step_pc_other (Server.step_cases h) hu]
  cases hp : s.pc u
  case showData e sent =>
    have he := run_targetInv hrun u e (by rw [hp]; rfl)
    unfold left
    dsimp only
    rw [dims_session hrun h he]
  all_goals rfl

/-- How much of a report is left: the events, the rows of this one and its columns. -/
def remaining (s : Server.State) : Place → Nat ×ₗ Nat ×ₗ Nat ×ₗ Nat ×ₗ Nat
  | .idle => toLex (0, toLex (0, toLex (0, toLex (0, 0))))
  | .lock => toLex (5, toLex (0, toLex (0, toLex (0, 0))))
  | .head => toLex (4, toLex (0, toLex (0, toLex (0, 0))))
  | .mutex k last _ => toLex (3, toLex (last - k, toLex (3, toLex (0, 0))))
  | .title k last _ => toLex (3, toLex (last - k, toLex (2, toLex (0, 0))))
  | .row k last _ i _ => toLex (3, toLex (last - k, toLex (1,
      toLex ((dims s k).1.toNat + 1 - i.toNat, (dims s k).2.toNat + 2))))
  | .seat k last _ i j _ => toLex (3, toLex (last - k, toLex (1,
      toLex ((dims s k).1.toNat + 1 - i.toNat, (dims s k).2.toNat + 1 - j.toNat))))
  | .next k last _ => toLex (3, toLex (last - k, toLex (0, toLex (0, 0))))
  | .unlock _ => toLex (2, toLex (0, toLex (0, toLex (0, 0))))
  | .done _ => toLex (1, toLex (0, toLex (0, toLex (0, 0))))

/-- The main thread gets on with its report. -/
theorem main_remaining {s : Server.State} {r r' : Place} (hs : Prints s r r')
    (hprint : ∀ k event, r.holding = some k → s.list.nodes[k]? = some event →
      Printing event r ∧ Client.Printable event)
    (hpos : ∀ k last, r.position = some (k, last) → k ≤ last) :
    remaining s r' < remaining s r := by
  cases hs
  case row k last out i text event he hi =>
    obtain ⟨⟨n, hn, rfl, -⟩, hp⟩ := hprint k event rfl he
    simp [remaining, Prod.Lex.toLex_lt_toLex]
  case seat k last out i j text event seat he hj hcell =>
    obtain ⟨⟨n, hn, m, hm, rfl, rfl, -⟩, hp⟩ := hprint k event rfl he
    have hcols := cols_lt hp hn
    have hlt := (ofNat_succ_le (Nat.lt_of_le_of_lt (Nat.succ_le_succ hm) hcols)).mp hj
    simp only [remaining, Prod.Lex.toLex_lt_toLex, lt_self_iff_false, true_and, false_or,
      dims_eq he, ofNat_succ_succ, UInt64.toNat_ofNat']
    rw [Nat.mod_eq_of_lt (show m + 1 + 1 < 2 ^ 64 by omega),
      Nat.mod_eq_of_lt (show m + 1 < 2 ^ 64 by omega)]
    omega
  case newline k last out i j text event he hgt =>
    obtain ⟨⟨n, hn, m, hm, rfl, rfl, -⟩, hp⟩ := hprint k event rfl he
    have hends := hp.ends
    simp only [remaining, Prod.Lex.toLex_lt_toLex, lt_self_iff_false, true_and, false_or,
      dims_eq he, ofNat_succ_succ, UInt64.toNat_ofNat']
    rw [Nat.mod_eq_of_lt (show n + 1 + 1 < 2 ^ 64 by omega),
      Nat.mod_eq_of_lt (show n + 1 < 2 ^ 64 by omega)]
    omega
  case next k last out hk =>
    have := hpos k last rfl
    simp only [remaining, Prod.Lex.toLex_lt_toLex, lt_self_iff_false, true_and, false_or]
    omega
  all_goals simp [remaining, Prod.Lex.toLex_lt_toLex]

/-- The sessions do not change what is left of the report. -/
theorem remaining_session {tr : List Server.Act} {s s' : Server.State} {a : Server.Act}
    {r : Place} (hrun : Server.machine.run tr = some s) (h : Server.step s a = some s')
    (hlt : ∀ k, r.holding = some k → k < s.list.nodes.length) :
    remaining s' r = remaining s r := by
  cases r
  case row k last out i text =>
    simp only [remaining, dims_session hrun h (hlt k rfl)]
  case seat k last out i j text =>
    simp only [remaining, dims_session hrun h (hlt k rfl)]
  all_goals rfl

/-- The sessions from number `n` on have had nothing to do. -/
def Below (n : Nat) (x : State) : Prop := ∀ t, n ≤ t → x.sessions.pc t = .idle

/-- A session of the first `n` makes its step. -/
theorem below_session {x : State} {a : Server.Act} {s : Server.State} {n : Nat}
    (hs : Server.Step x.sessions a s) (ha : a.session < n) (hi : Below n x) :
    Below n { x with sessions := s } := by
  intro t ht
  show s.pc t = .idle
  rw [step_pc_other hs (Nat.ne_of_lt (Nat.lt_of_lt_of_le ha ht))]
  exact hi t ht

/-- Finitely many sessions have ever moved. -/
theorem exists_below {tr : List Act} {x : State} (h : machine.run tr = some x) :
    ∃ n, Below n x := by
  refine machine.run_invariant (I := fun _ x => ∃ n, Below n x) ⟨0, fun _ _ => rfl⟩ ?_ tr x h
  intro tr x a x' _ hi hstep
  obtain ⟨n, hn⟩ := hi
  cases step_cases hstep with
  | @session a s _ hs =>
    exact ⟨max n (a.session + 1),
      below_session (Server.step_cases hs) (Nat.le_max_right n (a.session + 1))
        fun t ht => hn t (Nat.le_trans (Nat.le_max_left ..) ht)⟩
  | signal => exact ⟨n, hn⟩
  | main => exact ⟨n, hn⟩

/-- A session that serves a request is one of those that had something to do. -/
theorem session_below {x : State} {a : Server.Act} {s : Server.State} {n : Nat}
    (hs : Server.Step x.sessions a s) (ha : (Act.session a).Serves) (hi : Below n x) :
    a.session < n := by
  by_contra hge
  have hidle := hi a.session (Nat.le_of_not_lt hge)
  cases hs <;> first | exact ha.elim | simp_all [Server.Act.session]

/-- What is left to do: of the report, and by each session. -/
def toDo (n : Nat) (x : State) : (Nat ×ₗ Nat ×ₗ Nat ×ₗ Nat ×ₗ Nat) × (Fin n → Nat ×ₗ Nat) :=
  (remaining x.sessions x.report, fun t => left x.sessions (x.sessions.pc t))

/-- Every step that serves what has been asked for leaves less to do. -/
theorem step_left {tr : List Act} {x x' : State} {a : Act} {n : Nat}
    (hrun : machine.run tr = some x) (hfit : FitsInv x.sessions) (hn : Below n x)
    (ha : a.Serves) (hstep : machine.step x a = some x') :
    Prod.Lex (· < ·) (Descends (· < ·)) (toDo n x') (toDo n x) := by
  obtain ⟨hrep, hprint⟩ := run_reportInv hrun
  have hsessions := run_sessions hrun
  cases step_cases hstep with
  | @session a s hb hs =>
    have hcases := Server.step_cases hs
    have hlt := session_below hcases ha hn
    unfold toDo
    rw [remaining_session hsessions hs fun k hk => hrep.lt hrun hk]
    refine .right _ ⟨⟨a.session, hlt⟩, session_left hsessions hcases ha, fun u hu => ?_⟩
    exact others_left hsessions hs fun hau => hu (Fin.ext hau.symm)
  | signal => exact ha.elim
  | @main r h =>
    refine .left _ _ (main_remaining h (fun k event hk he => ?_) fun k last hk => ?_)
    · exact ⟨hprint k event hk he (hfit.printable he), hfit.printable he⟩
    · rcases hrep with hidle | hlock | ⟨start, rest, x₀, rfl, -, -, -, hrep⟩
      · rw [hidle] at hk
        cases hk
      · rw [hlock] at hk
        cases hk
      · exact (hrep.position k last hk).1

/-- **The server comes to rest.** From every state that is reached with events of
countable dimensions, no schedule of the sessions and the main thread goes on for ever
without a new request or a new SIGUSR1; and where it stops, every request has been answered,
the report, if one was asked for, has been made, and no lock is held. -/
theorem comes_to_rest {tr : List Act} {x : State} (hfit : ∀ a ∈ tr, a.Fits)
    (hrun : machine.run tr = some x) :
    machine.Ends Act.Serves x ∧
    ∀ tr' x', (∀ a ∈ tr', a.Serves) → machine.runFrom x tr' = some x' →
      (∀ a : Act, a.Serves → machine.step x' a = none) →
      (∀ t, x'.sessions.pc t = .idle) ∧ x'.report = .idle ∧
        x'.sessions.rwl.writer = none ∧ x'.sessions.rwl.readers = ∅ ∧
        ∀ e, x'.sessions.mutex e = none := by
  have hserves : ∀ a : Act, a.Serves → a.Fits := by
    intro a ha
    cases a with
    | session b =>
      cases b with
      | call => exact ha.elim
      | _ => trivial
    | _ => trivial
  constructor
  · obtain ⟨n, hn⟩ := exists_below hrun
    refine Machine.ends (M := machine) (W := _ × (Fin n → Nat ×ₗ Nat))
      (r := Prod.Lex (· < ·) (Descends (· < ·)))
      (WellFounded.prod_lex wellFounded_lt (descends_wellFounded wellFounded_lt))
      (P := Act.Serves)
      (I := fun tr x => machine.run tr = some x ∧ (∀ a ∈ tr, a.Fits) ∧ Below n x)
      (fun _ x => toDo n x) ?_ ⟨hrun, hfit, hn⟩
    rintro tr x a x' ha ⟨hrun, hfit, hn⟩ hstep
    have hfit' : ∀ b ∈ tr ++ [a], b.Fits := by
      intro b hb
      rcases List.mem_append.mp hb with h | h
      · exact hfit b h
      · rw [List.mem_singleton.mp h]
        exact hserves a ha
    refine ⟨⟨machine.run_snoc.mpr ⟨x, hrun, hstep⟩, hfit', ?_⟩,
      step_left hrun (run_fitsInv hfit hrun) hn ha hstep⟩
    cases step_cases hstep with
    | session _ hs =>
      have hcases := Server.step_cases hs
      exact below_session hcases (session_below hcases ha hn) hn
    | signal => exact hn
    | main => exact hn
  · intro tr' x' hserve hrest hend
    have hrun' : machine.run (tr ++ tr') = some x' := (machine.run_append hrun).trans hrest
    have hfit' : ∀ a ∈ tr ++ tr', a.Fits := fun a ha =>
      (List.mem_append.mp ha).elim (hfit a) fun h => hserves a (hserve a h)
    have hidle : AtRest x' := by
      by_contra hbusy
      obtain ⟨a, ha, hsome⟩ := exists_step hrun' (run_fitsInv hfit' hrun') hbusy
      rw [show step x' a = none from hend a ha] at hsome
      cases hsome
    exact ⟨hidle.1, hidle.2, locks_free (run_sessions hrun') fun t => .inl (hidle.1 t)⟩

/-- Session 1 has asked for a seat and the report is asked for. -/
def seatAndReport : List Act := duringReservation.take 12

/-- A RESERVE and a report. -/
theorem comes_to_rest_seatAndReport : ∃ x, machine.run seatAndReport = some x ∧
    machine.Ends Act.Serves x := by
  obtain ⟨x, hx⟩ := Option.isSome_iff_exists.mp
    (show (machine.run seatAndReport).isSome = true by decide)
  refine ⟨x, hx, (comes_to_rest (fun a ha => ?_) hx).1⟩
  have hall : ∀ a ∈ duringReservation, a.Fits := by
    simp [duringReservation, Act.Fits, Fits]
  exact hall a (List.mem_of_mem_take ha)

end Ems.Server.Report
