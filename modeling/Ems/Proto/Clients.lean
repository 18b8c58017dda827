import Mathlib.Data.Fintype.Basic
import Ems.Proto.JobFile

/-!
# Several clients

Any number of clients, each with its session and its two pipes, and one store that the
sessions share. Seen from one client, the others are what `Act.other` stands for: its run
together with their operations is a run of `serving` (`run_seen`), and so everything of
`JobFile.lean` holds of each of them at the same time. What is new is that they share one
order: the operations of all sessions are those of one list of calls, executed one after
the other, in which the commands of each job file stand in their order
(`clients_work_off`).

Mirroring notes:
- A client and its session are there from the beginning; how they find each other is
  `Service/System.lean`.
- An operation is one step, as it is in `Link.lean`; for its own steps see `Stepwise.lean`.
-/

namespace Ems.Proto.Link

open Base Conc Wire Server Client Parse

/-- Both ends of a session, without the store. -/
structure Side where
  client : Program UInt32
  server : Proto.Server
  up : List UInt8
  down : List UInt8
  out : List Char

/-- The session at a store. -/
def Side.with (x : Side) (list : EventList) : State :=
  ⟨x.client, x.server, x.up, x.down, x.out, list⟩

def State.side (s : State) : Side := ⟨s.client, s.server, s.up, s.down, s.out⟩

/-- All sessions and the store. -/
structure Clients (T : Type) where
  side : T → Side
  list : EventList

namespace Clients

variable {T : Type} [DecidableEq T]

/-- The session of `t` at the store. -/
def session (s : Clients T) (t : T) : State := (s.side t).with s.list

/-- A step of one of the clients or its session. -/
def step (stale : T → Nat → UInt8) (s : Clients T) : T × Act → Option (Clients T)
  | (_, .other _) => none
  | (t, a) =>
    (Link.step (stale t) (s.session t) a).map fun x =>
      ⟨Function.update s.side t x.side, x.list⟩

/-- Clients with these programs, from a store on. -/
def machine (stale : T → Nat → UInt8) (p : T → Program UInt32) (list : EventList) :
    Machine (Clients T) (T × Act) :=
  ⟨⟨fun t => ⟨p t, handleRequest (stale t), [], [], []⟩, list⟩, step stale⟩

/-- The operations of all sessions, in the order of their effects: whose it is, and the
call with the store it has found. -/
def order (stale : T → Nat → UInt8) (p : T → Program UInt32) (list : EventList)
    (tr : List (T × Act)) : List (T × Call × EventList) :=
  (machine stale p list).log (fun s a => (performed (s.session a.1) a.2).map (a.1, ·)) tr

/-- What the client `t` or its session has done of a kind. -/
def logOf {O : Type} (out : State → Act → List O) (stale : T → Nat → UInt8)
    (p : T → Program UInt32) (list : EventList) (t : T) (tr : List (T × Act)) : List O :=
  (machine stale p list).log (fun s a => if a.1 = t then out (s.session t) a.2 else []) tr

/-- The actions of a client and its session, and the operations of the others. -/
def seen (stale : T → Nat → UInt8) (p : T → Program UInt32) (list : EventList) (t : T)
    (tr : List (T × Act)) : List Act :=
  (machine stale p list).log (fun s a =>
    if a.1 = t then [a.2]
    else (performed (s.session a.1) a.2).map fun x => .other x.1.op) tr

/-! ## One step -/

variable {stale : T → Nat → UInt8} {p : T → Program UInt32} {list : EventList}
  {tr : List (T × Act)} {s s' : Clients T} {t u : T} {a : Act}

theorem step_own (h : step stale s (t, a) = some s') :
    a.Own ∧ ∃ x, Link.step (stale t) (s.session t) a = some x ∧
      s' = ⟨Function.update s.side t x.side, x.list⟩ := by
  have hstep : a.Own → (Link.step (stale t) (s.session t) a).map (fun x =>
      (⟨Function.update s.side t x.side, x.list⟩ : Clients T)) = some s' →
      a.Own ∧ ∃ x, Link.step (stale t) (s.session t) a = some x ∧
        s' = ⟨Function.update s.side t x.side, x.list⟩ := by
    intro hown h
    obtain ⟨x, hx, rfl⟩ := Option.map_eq_some_iff.mp h
    exact ⟨hown, x, hx, rfl⟩
  cases a with
  | other op => cases h
  | client k => exact hstep trivial h
  | act => exact hstep trivial h
  | server k => exact hstep trivial h
  | serve => exact hstep trivial h

theorem own_step {x : State} (hown : a.Own) (h : Link.step (stale t) (s.session t) a = some x) :
    step stale s (t, a) = some ⟨Function.update s.side t x.side, x.list⟩ := by
  cases a with
  | other op => exact absurd hown id
  | _ => simp only [step, h, Option.map_some]

/-! ## Seen from one client -/

/-- Operations of the others, one after the other. -/
theorem runFrom_others {stale : Nat → UInt8} {p : Program UInt32} {list : EventList}
    (cs : List Call) : ∀ x : State, (serving stale p list).runFrom x (cs.map fun c => .other c.op) =
      some { x with list := execCalls x.list cs } := by
  induction cs with
  | nil => exact fun _ => rfl
  | cons c cs ih => exact fun x => ih { x with list := (c.exec x.list).2 }

theorem log_others {O : Type} {out : State → Act → List O} (hout : ∀ x op, out x (.other op) = [])
    {stale : Nat → UInt8} {p : Program UInt32} {list : EventList} (cs : List Call) (x : State) :
    (serving stale p list).logFrom out x (cs.map fun c => .other c.op) = [] := by
  refine Machine.logFrom_eq_nil _ (fun a ha x => ?_) x
  obtain ⟨c, -, rfl⟩ := List.mem_map.mp ha
  exact hout x c.op

theorem session_update (s : Clients T) (t : T) (x : State) :
    (⟨Function.update s.side t x.side, x.list⟩ : Clients T).session t = x := by
  show (Function.update s.side t x.side t).with x.list = x
  rw [Function.update_self]
  rfl

theorem session_update_ne (s : Clients T) (x : State) (h : u ≠ t) :
    (⟨Function.update s.side u x.side, x.list⟩ : Clients T).session t =
      { s.session t with list := x.list } := by
  show (Function.update s.side u x.side t).with x.list = _
  rw [Function.update_of_ne (Ne.symm h)]
  rfl

/-- **What a client and its session do** is a run of theirs among the operations of the
others. -/
theorem run_seen (hrun : (machine stale p list).run tr = some s) (t : T) :
    (serving (stale t) (p t) list).run (seen stale p list t tr) = some (s.session t) ∧
      ∀ {O : Type} {out : State → Act → List O}, (∀ x op, out x (.other op) = []) →
        (serving (stale t) (p t) list).log out (seen stale p list t tr) =
          logOf out stale p list t tr := by
  refine (machine stale p list).run_invariant
    (I := fun tr s => (serving (stale t) (p t) list).run (seen stale p list t tr) =
        some (s.session t) ∧
      ∀ {O : Type} {out : State → Act → List O}, (∀ x op, out x (.other op) = []) →
        (serving (stale t) (p t) list).log out (seen stale p list t tr) =
          logOf out stale p list t tr)
    ⟨rfl, fun _ => rfl⟩ (fun tr s a s' hs hi h => ?_) tr s hrun
  obtain ⟨u, a⟩ := a
  obtain ⟨hrun', hlogs⟩ := hi
  obtain ⟨hown, x, hx, rfl⟩ := step_own h
  have hseen : seen stale p list t (tr ++ [(u, a)]) = seen stale p list t tr ++ _ :=
    Machine.log_snoc _ _ hs h
  have hlogOf : ∀ {O : Type} {out : State → Act → List O},
      logOf out stale p list t (tr ++ [(u, a)]) = logOf out stale p list t tr ++
        if u = t then out (s.session t) a else [] := Machine.log_snoc _ _ hs h
  by_cases hu : u = t
  · subst hu
    rw [hseen, if_pos rfl]
    refine ⟨?_, fun hout => ?_⟩
    · rw [session_update]
      exact Machine.run_snoc _ |>.mpr ⟨_, hrun', hx⟩
    · rw [Machine.log_snoc _ _ hrun' hx, hlogs hout, hlogOf, if_pos rfl]
  · obtain ⟨cs, hperformed, hlist⟩ := step_inTurn hown (step_cases hx)
    have hothers : (performed (s.session u) a).map (fun y => Act.other y.1.op) =
        cs.map fun c => .other c.op := by
      have hcalls := congrArg (List.map fun c : Call => Act.other c.op) (inTurn_calls cs (s.session u).list)
      rw [List.map_map] at hcalls
      rw [hperformed]
      exact hcalls
    rw [hseen, if_neg hu]
    dsimp only
    rw [hothers]
    refine ⟨?_, fun hout => ?_⟩
    · rw [Machine.run_append _ hrun', runFrom_others, session_update_ne _ _ hu, hlist]
      rfl
    · rw [Machine.log_append _ _ _ hrun', log_others hout, hlogs hout, hlogOf, if_neg hu]

/-! ## One order -/

/-- Of a list of things with their owners, those of `t`. -/
def share {O : Type} (t : T) (l : List (T × O)) : List O :=
  l.filterMap fun x => if x.1 = t then some x.2 else none

theorem share_own {O : Type} (t : T) (l : List O) : share t (l.map (t, ·)) = l := by
  unfold share
  rw [List.filterMap_map]
  exact (List.filterMap_congr fun _ _ => if_pos rfl).trans (List.filterMap_some ..)

theorem share_ne {O : Type} (hu : u ≠ t) (l : List O) : share t (l.map (u, ·)) = [] := by
  unfold share
  rw [List.filterMap_map]
  exact List.filterMap_eq_nil_iff.mpr fun _ _ => if_neg hu

theorem run_share (hrun : (machine stale p list).run tr = some s) (t : T) :
    logOf performed stale p list t tr = share t (order stale p list tr) := by
  refine (machine stale p list).run_invariant
    (I := fun tr _ => logOf performed stale p list t tr = share t (order stale p list tr)) rfl
    (fun tr s a s' hs hi h => ?_) tr s hrun
  obtain ⟨u, a⟩ := a
  unfold logOf order at hi ⊢
  rw [Machine.log_snoc _ _ hs h, Machine.log_snoc _ _ hs h, hi, share, share, List.filterMap_append]
  refine congrArg (_ ++ ·) ?_
  by_cases hu : u = t
  · subst hu
    exact (if_pos rfl).trans (share_own u _).symm
  · exact (if_neg hu).trans (share_ne hu _).symm

/-- The operations of all sessions are one list of calls in turn. -/
theorem run_order (hrun : (machine stale p list).run tr = some s) :
    (order stale p list tr).map Prod.snd =
        inTurn list ((order stale p list tr).map fun x => x.2.1) ∧
      s.list = execCalls list ((order stale p list tr).map fun x => x.2.1) := by
  have hturn : ∃ cs, (order stale p list tr).map Prod.snd = inTurn list cs ∧
      s.list = execCalls list cs := by
    refine (machine stale p list).run_invariant
      (I := fun tr s => ∃ cs, (order stale p list tr).map Prod.snd = inTurn list cs ∧
        s.list = execCalls list cs) ⟨[], rfl, rfl⟩ (fun tr s a s' hs hi h => ?_) tr s hrun
    obtain ⟨u, a⟩ := a
    obtain ⟨cs, horder, hlist⟩ := hi
    obtain ⟨hown, x, hx, rfl⟩ := step_own h
    obtain ⟨ds, hperformed, hlist'⟩ := step_inTurn hown (step_cases hx)
    refine ⟨cs ++ ds, ?_, ?_⟩
    · unfold order at horder ⊢
      rw [Machine.log_snoc _ _ hs h, List.map_append, horder, inTurn_append, ← hlist, List.map_map]
      exact congrArg (_ ++ ·) ((List.map_id _).trans hperformed)
    · show x.list = _
      rw [hlist', show (s.session u).list = s.list from rfl, hlist, execCalls, execCalls, execCalls,
        List.foldl_append]
  obtain ⟨cs, horder, hlist⟩ := hturn
  have hcs := congrArg (List.map Prod.fst) horder
  rw [inTurn_calls, List.map_map] at hcs
  subst hcs
  exact ⟨horder, hlist⟩

/-! ## A client goes on alone -/

theorem runFrom_alone (tr' : List Act) : ∀ {s : Clients T} {x : State}, (∀ a ∈ tr', a.Own) →
    (serving (stale t) (p t) list).runFrom (s.session t) tr' = some x →
    ∃ s', (machine stale p list).runFrom s (tr'.map (t, ·)) = some s' ∧ s'.session t = x ∧
      ∀ u, u ≠ t → s'.side u = s.side u := by
  induction tr' with
  | nil =>
    intro s x _ h
    cases h
    exact ⟨s, rfl, rfl, fun _ _ => rfl⟩
  | cons a tr' ih =>
    intro s x hown h
    obtain ⟨x₁, hx₁, hrest⟩ := Option.bind_eq_some_iff.mp h
    have hstep := own_step (hown a (List.mem_cons_self ..)) hx₁
    rw [← session_update s t x₁] at hrest
    obtain ⟨s', hrun, hsession, hothers⟩ := ih (fun b hb => hown b (List.mem_cons_of_mem _ hb)) hrest
    refine ⟨s', Option.bind_eq_some_iff.mpr ⟨_, hstep, hrun⟩, hsession, fun u hu => ?_⟩
    exact (hothers u hu).trans (Function.update_of_ne hu ..)

/-! ## Job files -/

/-- Every client has a job file, what it makes of it is `D`, and no event of the files or
of the store is too large. -/
structure Working (uninit files : T → List UInt8) (junk : T → Nat → UInt8) (stack : T → Stack)
    (D : T → List Decoded) (p : T → Program UInt32) (list : EventList) : Prop where
  decoded : ∀ t, decodeAll (Client.decode (uninit t)) (files t) = some (D t)
  program : ∀ t, Client.main (junk t) (uninit t) (stack t) (files t) = some (p t)
  fit : ∀ t, CreatesFit (D t)
  reached : list.Reached
  printable : AllPrintable list

variable {uninit files : T → List UInt8} {junk : T → Nat → UInt8} {stack : T → Stack}
  {D : T → List Decoded}

theorem Working.worksOff (hw : Working uninit files junk stack D p list)
    (hrun : (machine stale p list).run tr = some s) (t : T)
    (hothers : ∀ op, Act.other op ∈ seen stale p list t tr → MakesPrintable op) :
    WorksOff (callsFrom (stack t) 0 (D t)) (logOf performed stale p list t tr)
      (logOf returned stale p list t tr) (logOf writes stale p list t tr) (s.session t) := by
  obtain ⟨hseen, hlogs⟩ := run_seen hrun t
  have hworks := run_worksOff (hw.decoded t) (hw.program t) (hw.fit t) hw.reached.storeInv
    hw.printable hothers hseen
  rw [hlogs fun _ _ => rfl, hlogs fun _ _ => rfl, hlogs fun _ _ => rfl] at hworks
  exact hworks

/-- What the others do are commands of their files. -/
theorem run_others (hw : Working uninit files junk stack D p list)
    (hrun : (machine stale p list).run tr = some s) :
    ∀ t op, Act.other op ∈ seen stale p list t tr → MakesPrintable op := by
  refine (machine stale p list).run_invariant
    (I := fun tr _ => ∀ t op, Act.other op ∈ seen stale p list t tr → MakesPrintable op)
    (fun _ _ hop => absurd hop List.not_mem_nil) (fun tr s a s' hs hi h t op hop => ?_) tr s hrun
  obtain ⟨u, a⟩ := a
  obtain ⟨hown, -⟩ := step_own h
  have hsnoc := (machine stale p list).run_snoc.mpr ⟨s, hs, h⟩
  have hseen : ∀ v, seen stale p list v (tr ++ [(u, a)]) = seen stale p list v tr ++
      if u = v then [a] else (performed (s.session u) a).map fun x => .other x.1.op :=
    fun v => Machine.log_snoc _ _ hs h
  have hself : ∀ op, Act.other op ∈ seen stale p list u (tr ++ [(u, a)]) → MakesPrintable op := by
    intro op hop
    rw [hseen, if_pos rfl] at hop
    rcases List.mem_append.mp hop with hop | hop
    · exact hi u op hop
    · rw [← List.mem_singleton.mp hop] at hown
      exact absurd hown id
  by_cases hu : u = t
  · subst hu
    exact hself op hop
  rw [hseen, if_neg hu] at hop
  rcases List.mem_append.mp hop with hop | hop
  · exact hi t op hop
  -- an operation of `u`, which is working its file off
  · obtain ⟨x, hx, heq⟩ := List.mem_map.mp hop
    cases heq
    have hlog : logOf performed stale p list u (tr ++ [(u, a)]) =
        logOf performed stale p list u tr ++ if u = u then performed (s.session u) a else [] :=
      Machine.log_snoc _ _ hs h
    have hworks := (hw.worksOff hsnoc u hself).operations
    rw [hlog, if_pos rfl] at hworks
    exact calls_printable (stack u) (hw.decoded u) (hw.fit u) _
      (hworks.subset (List.mem_map_of_mem (List.mem_append_right _ hx)))

/-- Any of the clients can be brought to their ends. -/
theorem run_finishAll (hw : Working uninit files junk stack D p list) (ts : List T) :
    ∀ {tr : List (T × Act)} {s : Clients T}, (machine stale p list).run tr = some s →
      ∃ tr' s', (machine stale p list).run (tr ++ tr') = some s' ∧
        (∀ t ∈ ts, Over (s'.session t)) ∧ ∀ t, Over (s.session t) → Over (s'.session t) := by
  induction ts with
  | nil =>
    intro tr s hrun
    exact ⟨[], s, by rw [List.append_nil]; exact hrun, fun _ h => absurd h List.not_mem_nil,
      fun _ => id⟩
  | cons t ts ih =>
    intro tr s hrun
    obtain ⟨hseen, -⟩ := run_seen hrun t
    obtain ⟨own, x, hown, hrunx, hover⟩ := run_finish (hw.decoded t) (hw.program t) (hw.fit t)
      hw.reached.storeInv hw.printable (run_others hw hrun t) hseen
    rw [Machine.run_append _ hseen] at hrunx
    obtain ⟨s₁, hrun₁, hsession, hothers⟩ := runFrom_alone own hown hrunx
    have hkept : ∀ u, Over (s.session u) → Over (s₁.session u) := by
      intro u hu
      by_cases htu : u = t
      · rw [htu, hsession]
        exact hover
      · unfold Over session at hu ⊢
        rw [hothers u htu]
        exact hu
    obtain ⟨tr', s', hrun', hends, hkept'⟩ := ih ((Machine.run_append _ hrun).trans hrun₁)
    refine ⟨own.map (t, ·) ++ tr', s', by rw [← List.append_assoc]; exact hrun', fun u hu => ?_,
      fun u hu => hkept' u (hkept u hu)⟩
    rcases List.mem_cons.mp hu with rfl | hu
    · exact hkept' u (by rw [hsession]; exact hover)
    · exact hends u hu

/-- A session that is not over can do something. -/
theorem working_moves (hw : Working uninit files junk stack D p list)
    (hrun : (machine stale p list).run tr = some s) (t : T) :
    Over (s.session t) ∨ ∃ a s', a.Own ∧ step stale s (t, a) = some s' := by
  obtain ⟨hseen, -⟩ := run_seen hrun t
  obtain ⟨own, x, hown, hrunx, hover⟩ := run_finish (hw.decoded t) (hw.program t) (hw.fit t)
    hw.reached.storeInv hw.printable (run_others hw hrun t) hseen
  rw [Machine.run_append _ hseen] at hrunx
  cases own with
  | nil =>
    cases hrunx
    exact .inl hover
  | cons a own =>
    obtain ⟨y, hy, -⟩ := Option.bind_eq_some_iff.mp hrunx
    have ha := hown a (List.mem_cons_self ..)
    exact .inr ⟨a, _, ha, own_step ha hy⟩

/-! ## What is left -/

/-- What is left of a session: calls and phases, and in the phase bytes and texts. -/
def Ahead (stale junk : T → Nat → UInt8) (stack : T → Stack) (D : T → List Decoded)
    (s : Clients T) (t : T) (w : Nat × Nat) : Prop :=
  ∃ ps rs, Phase (stale t) (junk t) (callsFrom (stack t) 0 (D t)) ps rs w.1 w.2 (s.session t)

theorem run_ahead (hw : Working uninit files junk stack D p list)
    (hrun : (machine stale p list).run tr = some s) (t : T) :
    (∃ w, Ahead stale junk stack D s t w) ∧ StoreInv s.list ∧ AllPrintable s.list := by
  obtain ⟨hseen, -⟩ := run_seen hrun t
  have hp := (main_eq (hw.decoded t)).symm.trans (hw.program t)
  rw [← Option.some.inj hp] at hseen
  change (Link.machine (stale t) (junk t) (callsFrom (stack t) 0 (D t)) list).run _ = _ at hseen
  obtain ⟨hshow, hall⟩ := run_printable hw.reached.storeInv hw.printable
    (calls_printable (stack t) (hw.decoded t) (hw.fit t)) hseen (run_others hw hrun t)
  obtain ⟨hstore, n, m, hphase⟩ := run_phase hw.reached.storeInv hshow hseen
  exact ⟨⟨(n, m), _, _, hphase⟩, hstore, hall⟩

/-- A step of a session takes something off what is left of it, and nothing off the others. -/
theorem sessions_descend {t : T} {a : Act} (hw : Working uninit files junk stack D p list)
    (hrun : (machine stale p list).run tr = some s) (h : step stale s (t, a) = some s')
    {w : Nat × Nat} (hahead : Ahead stale junk stack D s t w) :
    (∃ w', Prod.Lex (· < ·) (· < ·) w' w ∧ Ahead stale junk stack D s' t w') ∧
      ∀ u, u ≠ t → ∀ v, Ahead stale junk stack D s u v → Ahead stale junk stack D s' u v := by
  obtain ⟨hown, x, hx, rfl⟩ := step_own h
  obtain ⟨-, hstore, hall⟩ := run_ahead hw hrun t
  refine ⟨?_, fun u hu v hother => ?_⟩
  · obtain ⟨n, m⟩ := w
    obtain ⟨ps, rs, hphase⟩ := hahead
    have hall' : AllPrintable (s.session t).list := hall
    obtain ⟨n', m', hphase', hless⟩ := step_phase hphase hstore (hall'.shows a) (step_cases hx)
    refine ⟨(n', m'), ?_, ps ++ performed (s.session t) a, rs ++ returned (s.session t) a, ?_⟩
    · rcases hless hown with hn | ⟨rfl, hm⟩
      · exact .left _ _ hn
      · exact .right _ hm
    · rw [session_update]
      exact hphase'
  · obtain ⟨ps, rs, hphase⟩ := hother
    refine ⟨ps, rs, ?_⟩
    rw [session_update_ne _ _ (Ne.symm hu)]
    exact hphase.with_list x.list

/-! ## All of them -/

/-- **Several clients work their job files off** on one store. Whatever the interleaving,
the operations of all sessions are one list of calls executed in turn, each client's own
ones are a beginning of its file's commands, in file order, and its `.out` file holds what
these print at their places in that one order. From wherever they are, all of them can be
brought to their ends; and then all files have been done. -/
theorem clients_work_off [Fintype T] (hw : Working uninit files junk stack D p list)
    (hrun : (machine stale p list).run tr = some s) :
    ((order stale p list tr).map Prod.snd =
        inTurn list ((order stale p list tr).map fun x => x.2.1) ∧
      s.list = execCalls list ((order stale p list tr).map fun x => x.2.1)) ∧
    (∀ t, WorksOff (callsFrom (stack t) 0 (D t)) (share t (order stale p list tr))
      (logOf returned stale p list t tr) (logOf writes stale p list t tr) (s.session t)) ∧
    ∃ tr' s', (machine stale p list).run (tr ++ tr') = some s' ∧ ∀ t, Over (s'.session t) := by
  refine ⟨run_order hrun, fun t => ?_, ?_⟩
  · rw [← run_share hrun]
    exact hw.worksOff hrun t (run_others hw hrun t)
  · obtain ⟨tr', s', hrun', hends, -⟩ := run_finishAll hw Finset.univ.toList hrun
    exact ⟨tr', s', hrun', fun t => hends t (by simp)⟩

/-- One client creates an event and shows it, another one asks for the list. -/
theorem clients_work_off_two : ∃ (p : Bool → Program UInt32) (tr : List (Bool × Act))
    (s : Clients Bool), (machine (fun _ _ => 7) p createList).run tr = some s ∧
      (∀ t, Over (s.session t)) ∧
      (share true (order (fun _ _ => 7) p createList tr)).map Prod.fst =
        [.create 1 1 1, .showEvent 1] ∧
      (share false (order (fun _ _ => 7) p createList tr)).map Prod.fst = [.listEvents] := by
  have hlist : decodeAll (Client.decode []) (bytes "LIST\n") = some [.listEvents] := by decide
  let commands (t : Bool) : List Decoded := cond t [.create 1 1 1, .showEvent 1] [.listEvents]
  have hw : Working (fun _ => []) (fun t => cond t createShowFile (bytes "LIST\n"))
      (fun _ _ => 7) (fun _ => unwritten) commands
      (fun t => Client.session (fun _ => 7) (callsFrom unwritten 0 (commands t))) createList := by
    refine ⟨fun t => ?_, fun t => ?_, fun t => ?_, ⟨[], rfl⟩, fun _ h => absurd h List.not_mem_nil⟩
    · cases t
      · exact hlist
      · exact decode_createShow
    · cases t
      · exact main_eq hlist
      · exact main_eq decode_createShow
    · cases t
      · intro id rows cols hmem
        cases List.mem_singleton.mp hmem
      · exact createsFit_createShow
  let M := machine (fun _ _ => 7) (fun t => Client.session (fun _ => 7)
    (callsFrom unwritten 0 (commands t))) createList
  have hstart : M.run [] = some M.init := rfl
  obtain ⟨-, -, tr, s, hrun, hover⟩ := clients_work_off hw hstart
  obtain ⟨-, hworks, -⟩ := clients_work_off hw hrun
  exact ⟨_, _, s, hrun, hover, ((hworks true).finished (hover true)).1,
    ((hworks false).finished (hover false)).1⟩

end Clients

end Ems.Proto.Link
