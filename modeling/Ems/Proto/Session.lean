import Ems.Proto.Agreement

/-!
# Whole sessions

From one step to every run: what has been performed and returned is always right, and
from wherever a session is it can be brought to its end, `session_agrees`. The condition
is on the `SHOW`s: their events must be printable. `show_never_returns` is a session
that does not meet it.
-/

namespace Ems.Proto.Link

open Conc Wire Server Client

variable {stale junk : Nat → UInt8} {calls : List Call} {list : EventList}

/-- The operations of a run, each with the store it found. -/
def operations (stale junk : Nat → UInt8) (calls : List Call) (list : EventList) (tr : List Act) :
    List (Call × EventList) := (machine stale junk calls list).log performed tr

/-- What the calls of a run have returned and printed. -/
def results (stale junk : Nat → UInt8) (calls : List Call) (list : EventList) (tr : List Act) :
    List (UInt32 × List Char) := (machine stale junk calls list).log returned tr

/-- The operations are the calls and the results are theirs; between two calls nothing is
under way, and behind the last one nothing is left. -/
structure Agrees (calls : List Call) (ps : List (Call × EventList))
    (rs : List (UInt32 × List Char)) (s : State) : Prop where
  operations : ps.map Prod.fst <+: calls
  results : rs <+: ps.map outcome
  between : Between s.client → s.up = [] ∧ s.down = [] ∧ rs = ps.map outcome
  finished : Over s → s.up = [] ∧ s.down = [] ∧ ps.map Prod.fst = calls ∧ rs = ps.map outcome

theorem Phase.agrees {ps : List (Call × EventList)} {rs : List (UInt32 × List Char)} {n m : Nat}
    {s : State} (h : Phase stale junk calls ps rs n m s) : Agrees calls ps rs s := by
  cases h with
  | @idle _ rest out list hcalls =>
    refine ⟨⟨rest, hcalls.symm⟩, List.prefix_rfl, fun _ => ⟨rfl, rfl, rfl⟩, fun hover => ?_⟩
    have hdone := hover.1
    cases rest <;> cases hdone
  | @request _ c rest client server up u list hcalls hclient hserver hflush hfeed =>
    obtain ⟨n, f, hawait⟩ := @awaitReply_recv junk _ c (afterCall junk rest)
    rw [hawait] at hflush
    refine ⟨⟨c :: rest, hcalls.symm⟩, List.prefix_rfl, fun hbetween => ?_, fun hover => ?_⟩
    · cases client with
      | ask e next => cases hflush
      | _ => exact absurd hbetween id
    · have hdone : client = pure 0 := hover.1
      rw [hdone] at hflush
      cases hflush
  | @response ps c l rest d es _ hcalls hreply hout =>
    obtain ⟨client, server, up, down, out, list⟩ := s
    obtain ⟨hclient, hserver, hup, hfeed⟩ := hreply
    refine ⟨⟨rest, ?_⟩, ?_, fun hbetween => ?_, fun hover => ?_⟩
    · rw [hcalls, List.map_append, List.append_assoc]
      rfl
    · rw [List.map_append]
      exact List.prefix_append _ _
    · cases client with
      | ask e next => cases e <;> first | exact absurd hbetween id | cases hfeed
      | _ => exact absurd hbetween id
    · have hdone : client = pure 0 := hover.1
      rw [hdone] at hfeed
      cases hfeed
  | @quitting _ client server up u out list hcalls hclient hserver hflush hfeed =>
    refine ⟨⟨[], by rw [List.append_nil]; exact hcalls.symm⟩, List.prefix_rfl, fun hbetween => ?_,
      fun hover => ?_⟩
    · cases client with
      | ask e next => cases hflush
      | _ => exact absurd hbetween id
    · have hserverDone : server = pure (some .success) := hover.2
      rw [hserverDone] at hfeed
      have hnil : up ++ u = [] := congrArg (fun r => r.2.2) hfeed
      exact ⟨(List.append_eq_nil_iff.mp hnil).1, rfl, hcalls.symm, rfl⟩

/-! ## Every run -/

theorem step_storeInv {s s' : State} {a : Act} (h : Step stale s a s') (hlist : StoreInv s.list) :
    StoreInv s'.list := by
  cases h with
  | serve hc => exact exec_storeInv _ hlist
  | other => exact exec_storeInv _ hlist
  | _ => exact hlist

theorem run_phase {tr : List Act} {s : State} (hlist : StoreInv list)
    (hshow : (machine stale junk calls list).Meets Shows tr)
    (hrun : (machine stale junk calls list).run tr = some s) :
    StoreInv s.list ∧ ∃ n m, Phase stale junk calls (operations stale junk calls list tr)
      (results stale junk calls list tr) n m s := by
  refine (machine stale junk calls list).run_invariant_of_meets (C := Shows)
    (I := fun tr s => StoreInv s.list ∧ ∃ n m, Phase stale junk calls
      (operations stale junk calls list tr) (results stale junk calls list tr) n m s)
    ⟨hlist, _, _, .idle rfl⟩ ?_ tr s hshow hrun
  intro tr s a s' hr ha hi hstep
  obtain ⟨hs, n, m, hphase⟩ := hi
  obtain ⟨n', m', hphase', -⟩ := step_phase hphase hs ha (step_cases hstep)
  refine ⟨step_storeInv (step_cases hstep) hs, n', m', ?_⟩
  unfold operations results
  rw [Machine.log_snoc _ _ hr hstep, Machine.log_snoc _ _ hr hstep]
  exact hphase'

/-- Another store changes nothing in the phase. -/
theorem Phase.with_list {stale junk : Nat → UInt8} {calls : List Call}
    {ps : List (Call × EventList)} {rs : List (UInt32 × List Char)} {n m : Nat} {s : State}
    (h : Phase stale junk calls ps rs n m s) (list : EventList) :
    Phase stale junk calls ps rs n m { s with list := list } := by
  cases h with
  | idle hcalls => exact .idle hcalls
  | request hcalls hclient hserver hflush hfeed =>
    exact .request hcalls hclient hserver hflush hfeed
  | response hcalls hreply hout =>
    have hreply' := (⟨hreply.client, hreply.server, hreply.up, hreply.feed⟩ :
      Replying stale _ [] _ _ { s with list := list })
    exact .response hcalls hreply' hout
  | quitting hcalls hclient hserver hflush hfeed =>
    exact .quitting hcalls hclient hserver hflush hfeed

/-! ## To the end -/

/-- A session that is not over can do something. -/
theorem phase_progress {ps : List (Call × EventList)} {rs : List (UInt32 × List Char)} {n m : Nat}
    {s : State} (h : Phase stale junk calls ps rs n m s) :
    Over s ∨ ∃ a s', a.Own ∧ step stale s a = some s' := by
  have hclientIo : ∀ r, s.client.io 1 s.down = some r →
      ∃ a s', a.Own ∧ step stale s a = some s' := by
    intro r hr
    exact ⟨.client 1, _, trivial, by simp only [step, hr]; rfl⟩
  have hserverIo : ∀ r, s.server.io 1 s.up = some r →
      ∃ a s', a.Own ∧ step stale s a = some s' := by
    intro r hr
    exact ⟨.server 1, _, trivial, by simp only [step, hr]; rfl⟩
  cases h with
  | @idle _ rest out list hcalls =>
    cases rest with
    | nil => exact Or.inr ⟨.act, _, trivial, rfl⟩
    | cons c rest => exact Or.inr ⟨.act, _, trivial, rfl⟩
  -- the request: what is left of it is written, then read, then answered
  | @request _ c rest client server up u list hcalls hclient hserver hflush hfeed =>
    by_cases hu : u = []
    · subst hu
      rw [List.append_nil] at hfeed
      rcases Talk.exists_read hserver (by rw [hfeed]; trivial) with hrest | ⟨r, hr⟩
      · cases server with
        | done a => cases hfeed
        | ask c next => exact Or.inr ⟨.serve, _, trivial, rfl⟩
        | _ => exact absurd hrest id
      · exact Or.inr (hserverIo r hr)
    · obtain ⟨r, hr⟩ := Talk.exists_write hclient (by rw [hflush]; exact hu) []
      exact Or.inr (hclientIo r hr)
  -- the reply: the server writes what is left, or the client goes on with what there is
  | @response ps c l rest d es _ hcalls hreply hout =>
    obtain ⟨client, server, up, down, out, list⟩ := s
    obtain ⟨hclient, ⟨hp, ⟨rfl, -⟩ | ⟨hd, hflush⟩⟩, hup, hfeed⟩ := hreply
    · dsimp only at hfeed
      rw [List.append_nil] at hfeed
      rcases Talk.exists_read hclient (by rw [hfeed]; trivial) with hrest | ⟨r, hr⟩
      · cases client with
        | done a => cases hfeed
        | ask e next =>
          cases e with
          | spin => cases hfeed
          | _ => exact Or.inr ⟨.act, _, trivial, rfl⟩
        | _ => exact absurd hrest id
      · exact Or.inr (hclientIo r hr)
    · obtain ⟨r, hr⟩ := Talk.exists_write hp (by rw [hflush]; exact hd) up
      exact Or.inr (hserverIo r hr)
  | @quitting _ client server up u out list hcalls hclient hserver hflush hfeed =>
    by_cases hu : u = []
    · subst hu
      rw [List.append_nil] at hfeed
      rcases Talk.exists_read hserver (by rw [hfeed]; trivial) with hrest | ⟨r, hr⟩
      · cases server with
        | done a =>
          have hclientDone := Talk.flush_nil hclient (by rw [hflush])
          rw [hflush] at hclientDone
          exact Or.inl ⟨hclientDone.symm, congrArg (fun r => r.2.1) hfeed⟩
        | ask c next => cases hfeed
        | _ => exact absurd hrest id
      · exact Or.inr (hserverIo r hr)
    · obtain ⟨r, hr⟩ := Talk.exists_write hclient (by rw [hflush]; exact hu) []
      exact Or.inr (hclientIo r hr)

/-- From every state that was reached the session goes on to its end, or to a `SHOW`
that cannot be printed. -/
theorem phase_finish (hlist : StoreInv list) (n : Nat) :
    ∀ (m : Nat) (tr : List Act) (s : State) (ps : List (Call × EventList))
      (rs : List (UInt32 × List Char)), (machine stale junk calls list).Meets Shows tr →
      (machine stale junk calls list).run tr = some s → Phase stale junk calls ps rs n m s →
      ∃ tr' s', (∀ a ∈ tr', a.Own) ∧ (machine stale junk calls list).run (tr ++ tr') = some s' ∧
        (machine stale junk calls list).Meets Shows (tr ++ tr') ∧ (Over s' ∨ ¬ Shows s' .serve) := by
  induction n using Nat.strong_induction_on with
  | _ n ihn =>
    intro m
    induction m using Nat.strong_induction_on with
    | _ m ihm =>
      intro tr s ps rs hshow hrun hphase
      rcases phase_progress hphase with hover | ⟨a, s₁, hown, hstep⟩
      · refine ⟨[], s, fun _ h => absurd h List.not_mem_nil, ?_, ?_, Or.inl hover⟩
        · rw [List.append_nil]; exact hrun
        · rw [List.append_nil]; exact hshow
      · by_cases ha : Shows s a
        · -- one step further, with less to come
          have hrun₁ := (machine stale junk calls list).run_snoc.mpr ⟨s, hrun, hstep⟩
          have hshow₁ := hshow.snoc hrun ha
          obtain ⟨n', m', hphase', hless⟩ :=
            step_phase hphase (run_phase hlist hshow hrun).1 ha (step_cases hstep)
          obtain ⟨tr', s', hown', hrest⟩ : ∃ tr' s', (∀ b ∈ tr', b.Own) ∧
              (machine stale junk calls list).run ((tr ++ [a]) ++ tr') = some s' ∧
              (machine stale junk calls list).Meets Shows ((tr ++ [a]) ++ tr') ∧
              (Over s' ∨ ¬ Shows s' .serve) := by
            rcases hless hown with hn | ⟨rfl, hm⟩
            · exact ihn n' hn m' _ s₁ _ _ hshow₁ hrun₁ hphase'
            · exact ihm m' hm _ s₁ _ _ hshow₁ hrun₁ hphase'
          refine ⟨a :: tr', s', ?_, ?_⟩
          · intro b hb
            rcases List.mem_cons.mp hb with rfl | hb
            · exact hown
            · exact hown' b hb
          · rw [← List.append_cons] at hrest
            exact hrest
        · refine ⟨[], s, fun _ h => absurd h List.not_mem_nil, ?_, ?_, Or.inr ?_⟩
          · rw [List.append_nil]; exact hrun
          · rw [List.append_nil]; exact hshow
          · cases a with
            | serve => exact ha
            | _ => exact absurd trivial ha

/-- **The two ends of a session agree** in every run whose `SHOW`s can be printed, and
the session can be brought to its end from wherever it is, as far as that is so. -/
theorem session_agrees {tr : List Act} {s : State} (hlist : list.Reached)
    (hshow : (machine stale junk calls list).Meets Shows tr)
    (hrun : (machine stale junk calls list).run tr = some s) :
    Agrees calls (operations stale junk calls list tr) (results stale junk calls list tr) s ∧
      ∃ tr' s', (∀ a ∈ tr', a.Own) ∧ (machine stale junk calls list).run (tr ++ tr') = some s' ∧
        (machine stale junk calls list).Meets Shows (tr ++ tr') ∧
        (Over s' ∨ ¬ Shows s' .serve) := by
  obtain ⟨-, n, m, hphase⟩ := run_phase hlist.storeInv hshow hrun
  exact ⟨hphase.agrees, phase_finish hlist.storeInv n m tr s _ _ hshow hrun hphase⟩

/-- A client creates a 1 × 1 event, shows it and quits; the id of the first request goes
through in two pieces. -/
def createShow : List Act :=
  [.act, .client 1, .client 3, .server 1, .server 2, .client 1, .server 2, .client 16, .server 16,
    .serve, .server 4, .client 4, .act,
    .act, .client 1, .client 4, .server 1, .server 4,
    .serve, .server 16, .server 4, .client 16, .server 4, .client 4, .act, .client 4, .act,
    .act, .client 1, .server 1]

theorem session_agrees_createShow : ∃ s,
    (machine (fun _ => 7) (fun _ => 7) [.create 1 1 1, .showEvent 1] createList).run createShow =
      some s ∧
    Agrees [.create 1 1 1, .showEvent 1]
      (operations (fun _ => 7) (fun _ => 7) [.create 1 1 1, .showEvent 1] createList createShow)
      [(0, []), (0, "0\n".toList)] s := by
  obtain ⟨s, hrun⟩ := Option.isSome_iff_exists.mp
    (show ((machine (fun _ => 7) (fun _ => 7) [.create 1 1 1, .showEvent 1] createList).run
      createShow).isSome = true by decide +kernel)
  have hshow : (machine (fun _ => 7) (fun _ => 7) [.create 1 1 1, .showEvent 1] createList).Meets
      Shows createShow := by
    have hall : ∀ k ∈ List.range createShow.length,
        (((machine (fun _ => 7) (fun _ => 7) [.create 1 1 1, .showEvent 1] createList).run
          (createShow.take k)).all fun s => (createShow[k]?).all fun a => decide (Shows s a)) =
            true := by decide +kernel
    refine Machine.meets_of_take _ fun k hk s hs => ?_
    have hk' := hall k (List.mem_range.mpr hk)
    rw [hs, List.getElem?_eq_getElem hk] at hk'
    exact of_decide_eq_true hk'
  have hresults : results (fun _ => 7) (fun _ => 7) [.create 1 1 1, .showEvent 1] createList
      createShow = [(0, []), (0, "0\n".toList)] := by decide +kernel
  have hreached : createList.Reached := ⟨[], rfl⟩
  have hagrees := (session_agrees hreached hshow hrun).1
  rw [hresults] at hagrees
  exact ⟨s, hrun, hagrees⟩

/-! ## A loop that does not end -/

/-- The client will not leave the loop of `ems_show`. -/
def Spins (stale : Nat → UInt8) (s : State) : Prop :=
  ∃ f w d es, Replying stale (.ask .spin f) w d es s

theorem step_spins {s s' : State} {a : Act} (hi : Spins stale s) (h : Step stale s a s') :
    Spins stale s' := by
  obtain ⟨f, w, d, es, hreply⟩ := hi
  rcases step_replying hreply h with ⟨d', es', hreply', -⟩ | ⟨rfl, hclient, -, -⟩
  · exact ⟨f, w, d', es', hreply'⟩
  · cases h with
    | enter hc => rw [hclient] at hc; cases hc
    | print hc => rw [hclient] at hc; cases hc
    | leave hc => rw [hclient] at hc; cases hc
    | quit hc => rw [hclient] at hc; cases hc

/-- Whatever happens the session is not over. -/
theorem run_spins {tr : List Act} {s s' : State} (hi : Spins stale s)
    (h : (machine stale junk calls list).runFrom s tr = some s') : ¬ Over s' := by
  have hspins : Spins stale s' := by
    induction tr generalizing s with
    | nil => cases h; exact hi
    | cons a tr ih =>
      obtain ⟨s₁, hstep, hrest⟩ := Option.bind_eq_some_iff.mp h
      exact ih (step_spins hi (step_cases hstep)) hrest
  intro hover
  obtain ⟨f, w, d, es, hreply⟩ := hspins
  have hfeed := hreply.feed
  rw [hover.1] at hfeed
  cases hfeed

/-- A `SHOW` of an event with the largest number of rows. -/
theorem serve_spins {ps : List (Call × EventList)} {rs : List (UInt32 × List Char)} {n m : Nat}
    {s s' : State} {eventId : UInt32} {next : Reply → Proto.Server} {event : Server.Event}
    (hi : Phase stale junk calls ps rs n m s) (hlist : StoreInv s.list)
    (hserver : s.server = .ask (.showEvent eventId) next)
    (hfound : ((getEvent s.list eventId).bind fun e => s.list.nodes[e]?) = some event)
    (hmax : event.rows.toNat + 1 = 2 ^ 64) (h : Step stale s .serve s') : Spins stale s' := by
  cases hi with
  | idle hcalls => cases hserver
  | @request _ c rest client server up u list hcalls hclient hs hflush hfeed =>
    obtain ⟨rfl, rfl, rfl, rfl⟩ := request_whole hclient hflush hfeed hserver
    obtain ⟨hexec, -, hlen⟩ := exec_show hlist hfound
    have hread := @feed_matrix _ junk eventId event.rows event.cols event.bytes hlen
      (afterCall junk rest) (le4 0 ++ [])
    rw [showText_max hmax] at hread
    have hspin : ∃ f, (awaitReply junk (.showEvent eventId) (afterCall junk rest)).feed printing
        (replyWrites (.matrix event.rows event.cols event.bytes 0)).flatten =
          ([], .ask .spin f, le4 0 ++ []) := ⟨_, hread⟩
    obtain ⟨f, hspin⟩ := hspin
    rw [← hexec] at hspin
    have hend := @replying_serve stale _ _ _ _ _ _ _ hspin
    cases h with
    | serve hc =>
      cases hc
      exact ⟨f, _, _, _, hend⟩
  | response hcalls hreply hout =>
    obtain ⟨-, ⟨-, ⟨-, hsame⟩ | ⟨hd, hflush⟩⟩, -, -⟩ := hreply
    · rw [hsame] at hserver
      cases hserver
    · rw [hserver] at hflush
      exact absurd (congrArg Prod.fst hflush).symm hd
  | @quitting _ client server up u out list hcalls hclient hs hflush hfeed =>
    change server = .ask (.showEvent eventId) next at hserver
    rw [hserver] at hfeed
    cases hfeed

/-- The size of a matrix that is to be created can be expressed in a `size_t`. -/
def Fits : Op → Prop
  | .create _ numRows numCols => numRows.toNat * numCols.toNat * 4 < 2 ^ 64
  | _ => True

/-- The store has one event, with 2^64 - 1 rows and no columns, and the client shows it.
What the server sends is right, but the session will never be over. -/
theorem show_never_returns :
    ¬ ∀ (stale junk : Nat → UInt8) (calls : List Call) (ops : List Op) (tr : List Act) (s : State),
      (∀ op ∈ ops, Fits op) → (∀ c ∈ calls, Fits c.op) → (∀ op, Act.other op ∈ tr → Fits op) →
      (machine stale junk calls (execOps createList ops)).run tr = some s →
      Agrees calls (operations stale junk calls (execOps createList ops) tr)
          (results stale junk calls (execOps createList ops) tr) s ∧
        ∃ tr' s', (∀ a ∈ tr', a.Own) ∧
          (machine stale junk calls (execOps createList ops)).run (tr ++ tr') = some s' ∧
          Over s' := by
  intro h
  let ops : List Op := [.create 1 18446744073709551615 0]
  let M := machine (fun _ => 0) (fun _ => 0) [.showEvent 1] (execOps createList ops)
  let tr : List Act := [.act, .client 1, .server 1, .client 4, .server 4]
  have hlist : StoreInv (execOps createList ops) :=
    EventList.Reached.storeInv ⟨ops, rfl⟩
  have hshow : M.Meets Shows tr := by
    intro before a after s htr _
    have ha : a ∈ tr := by rw [htr]; simp
    simp only [tr, List.mem_cons, List.not_mem_nil, or_false] at ha
    rcases ha with rfl | rfl | rfl | rfl | rfl <;> trivial
  -- the request has been read
  have hread : (M.run tr).map (fun s => (s.list, (performed s .serve).map Prod.fst)) =
      some (execOps createList ops, [.showEvent 1]) := by decide +kernel
  obtain ⟨s, hrun, hs⟩ := Option.map_eq_some_iff.mp hread
  obtain ⟨-, n, m, hphase⟩ := run_phase hlist hshow hrun
  have hsame : s.list = execOps createList ops := congrArg Prod.fst hs
  obtain ⟨next, hserver⟩ := performed_serve (congrArg Prod.snd hs)
  -- and it is served
  have hstep : step (fun _ => 0) s .serve = some { s with
      server := resume (fun _ => 0) (next (Call.exec (.showEvent 1) s.list).1).settle
      list := (Call.exec (.showEvent 1) s.list).2 } := by simp only [step, hserver]
  have hfound : ((getEvent s.list 1).bind fun e => s.list.nodes[e]?) =
      some (newEvent 1 18446744073709551615 0) := by
    rw [hsame]
    decide +kernel
  have hspins := serve_spins hphase (by rw [hsame]; exact hlist) hserver hfound (by decide)
    (step_cases hstep)
  have hstepM : M.step s .serve = some _ := hstep
  have hrun' := M.run_snoc.mpr ⟨s, hrun, hstepM⟩
  obtain ⟨-, tr', s', -, hend, hover⟩ := h (fun _ => 0) (fun _ => 0) [.showEvent 1] ops
    (tr ++ [.serve]) _ (by simp [ops, Fits]) (by simp [Fits, Call.op]) (by simp [tr]) hrun'
  have hrest : M.runFrom _ tr' = some s' := (M.run_append hrun').symm.trans hend
  exact run_spins hspins hrest hover

end Ems.Proto.Link
