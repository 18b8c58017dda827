import Ems.Client.Main
import Ems.Parse.Accepted
import Ems.Proto.Session

/-!
# A client works a job file off

The calls of a session, when they are those of a job file, and the `.out` file their texts
end in. Printing happens in the calls only: in every program of the client they are
bracketed by `enter` and `leave`, and so the file is what the calls have returned with,
and behind it what the call under way has printed (`run_filed`).

The numbers of a job file are `unsigned int`s, so the loops of `ems_show` come to an end
on what a client has created, unless the size of the matrix does not fit in a `size_t`.
When all events are like that, the session of every client comes to its end
(`works_off`).
-/

namespace Ems.Proto.Link

open Base Conc Wire Server Client Parse

/-! ## Calls in brackets -/

/-- The program prints in its calls only. It begins inside a call if `inside`, and ends
inside one if `last`. -/
inductive Bracketed {α : Type} (last : Bool) : Bool → Program α → Prop where
  | done {a} : Bracketed last last (.done a)
  | send {inside bytes next} (h : Bracketed last inside next) :
      Bracketed last inside (.send bytes next)
  | recv {inside want got next} (h : ∀ bs, Bracketed last inside (next bs)) :
      Bracketed last inside (.recv want got next)
  | enter {c next} (h : Bracketed last true (next ())) :
      Bracketed last false (.ask (.enter c) next)
  | print {text next} (h : Bracketed last true (next ())) :
      Bracketed last true (.ask (.print text) next)
  | leave {ret next} (h : Bracketed last false (next ())) :
      Bracketed last true (.ask (.leave ret) next)
  | spin {next} (h : Bracketed last true (next ())) : Bracketed last true (.ask .spin next)
  | quit {next} (h : Bracketed last false (next ())) : Bracketed last false (.ask .quit next)

section Bracketed

variable {α β : Type} {last inside mid : Bool} {junk : Nat → UInt8}

/-- One part behind the other, where the first one ends as the second begins. -/
theorem Bracketed.bind {p : Program α} {f : α → Program β} (hp : Bracketed mid inside p)
    (hf : ∀ a, Bracketed last mid (f a)) : Bracketed last inside (p >>= f) := by
  induction hp with
  | done => exact hf _
  | send _ ih => exact .send ih
  | recv _ ih => exact .recv ih
  | enter _ ih => exact .enter ih
  | print _ ih => exact .print ih
  | leave _ ih => exact .leave ih
  | spin _ ih => exact .spin ih
  | quit _ ih => exact .quit ih

/-- Looking at what comes next changes nothing. -/
theorem Bracketed.settle {p : Program α} (hp : Bracketed last inside p) :
    Bracketed last inside p.settle := by
  induction hp with
  | @send _ bytes _ h ih =>
    cases bytes with
    | nil => exact ih
    | cons b bs => exact .send h
  | @recv _ want got _ h ih =>
    cases want with
    | zero => exact ih got
    | succ n => exact .recv h
  | done => exact .done
  | enter h => exact .enter h
  | print h => exact .print h
  | leave h => exact .leave h
  | spin h => exact .spin h
  | quit h => exact .quit h

/-- A step of the client keeps it. -/
theorem Bracketed.io {p p' : Program α} {k : Nat} {inbox inbox' bytes : List UInt8}
    (hp : Bracketed last inside p) (h : p.io k inbox = some (p', inbox', bytes)) :
    Bracketed last inside p' := by
  cases hp with
  | send hnext =>
    simp only [Talk.io] at h
    split at h
    next => cases h; exact (Bracketed.send hnext).settle
    next => cases h
  | recv hnext =>
    simp only [Talk.io] at h
    split at h
    next => cases h; exact (Bracketed.recv hnext).settle
    next => cases h
  | _ => cases h

/-- What a program writes is no call. -/
theorem Bracketed.flush {p : Program α} (hp : Bracketed last inside p) :
    Bracketed last inside p.flush.2 := by
  induction hp with
  | send _ ih => exact ih
  | @recv _ want got _ h ih =>
    cases want with
    | zero => exact ih got
    | succ n => exact .recv h
  | done => exact .done
  | enter h => exact .enter h
  | print h => exact .print h
  | leave h => exact .leave h
  | spin h => exact .spin h
  | quit h => exact .quit h

/-- The answer of a call is read inside the call. -/
theorem bracketed_readReturnValue : Bracketed true true readReturnValue := by
  refine .recv fun bs => ?_
  show Bracketed true true (if bs = [] then (pure 1 : Program UInt32) else _)
  split
  next => exact .done
  next => exact .done

/-- The matrix is printed inside the call. -/
theorem bracketed_showSeats (text : Option (List Char)) : Bracketed true true (showSeats text) := by
  cases text with
  | none => exact .spin .done
  | some text => exact .print bracketed_readReturnValue

/-- The seats are read inside the call. -/
theorem bracketed_readSeats (numRows numCols : UInt64) :
    Bracketed true true (readSeats junk numRows numCols) :=
  .recv fun seats => bracketed_showSeats
    (showText numRows numCols (overlay (4 * (numRows * numCols)).toNat seats junk))

/-- A call of the API prints inside the call only. -/
theorem bracketed_call (c : Call) : Bracketed true true (call junk c) := by
  cases c with
  | create => exact .send (.send (.send bracketed_readReturnValue))
  | reserve => exact .send (.send (.send (.send (.send bracketed_readReturnValue))))
  | showEvent =>
    refine .send (.send (.recv fun header => ?_))
    show Bracketed true true (if header = [] then (pure 1 : Program UInt32) else _)
    split
    next => exact .done
    next => exact bracketed_readSeats _ _
  | listEvents =>
    exact .send (.recv fun header => .recv fun ids => .print bracketed_readReturnValue)

/-- A session prints in its calls. -/
theorem bracketed_session (calls : List Call) : Bracketed false false (session junk calls) := by
  induction calls with
  | nil => exact .quit (.send .done)
  | cons c rest ih => exact .enter ((bracketed_call c).bind fun ret => .leave ih)

end Bracketed

/-! ## The `.out` file -/

/-- What a step writes to `out_fd`. -/
def writes (s : State) : Act → List Char
  | .act =>
    match s.client with
    | .ask (.print text) _ => text
    | _ => []
  | _ => []

/-- A client's program and a session that serves it, from a store on. -/
def serving (stale : Nat → UInt8) (p : Program UInt32) (list : EventList) : Machine State Act :=
  ⟨⟨p, handleRequest stale, [], [], [], list⟩, step stale⟩

/-- What the calls have returned with, and what the one under way has printed. -/
def Filed (file : List Char) (rs : List (UInt32 × List Char)) (s : State) : Prop :=
  ∃ inside, Bracketed false inside s.client ∧
    file = rs.flatMap (·.2) ++ if inside then s.out else []

/-- After a step, the file is what the calls that are over have printed, and the rest. -/
theorem step_filed {stale : Nat → UInt8} {file : List Char} {rs : List (UInt32 × List Char)}
    {s s' : State} {a : Act} (hi : Filed file rs s) (h : Step stale s a s') :
    Filed (file ++ writes s a) (rs ++ returned s a) s' := by
  obtain ⟨inside, hclient, hfile⟩ := hi
  cases h with
  | client hio =>
    refine ⟨inside, hclient.io hio, ?_⟩
    simp only [writes, returned, List.append_nil]
    exact hfile
  | enter hc =>
    rw [hc] at hclient
    cases hclient with
    | enter hnext =>
      refine ⟨true, hnext.settle, ?_⟩
      simp only [writes, returned, hc, List.append_nil]
      simpa using hfile
  | print hc =>
    rw [hc] at hclient
    cases hclient with
    | print hnext =>
      refine ⟨true, hnext.settle, ?_⟩
      simp only [writes, returned, hc, List.append_nil]
      simp [hfile]
  | leave hc =>
    rw [hc] at hclient
    cases hclient with
    | leave hnext =>
      refine ⟨false, hnext.settle, ?_⟩
      simp only [writes, returned, hc, List.append_nil]
      simp [hfile]
  | quit hc =>
    rw [hc] at hclient
    cases hclient with
    | quit hnext =>
      refine ⟨false, hnext.settle, ?_⟩
      simp only [writes, returned, hc, List.append_nil]
      exact hfile
  | server | serve | other =>
    refine ⟨inside, hclient, ?_⟩
    simp only [writes, returned, List.append_nil]
    exact hfile

variable {stale junk : Nat → UInt8} {calls : List Call} {list : EventList} {tr : List Act}
  {s : State}

/-- In every run. -/
theorem run_filed (hrun : (machine stale junk calls list).run tr = some s) :
    Filed ((machine stale junk calls list).log writes tr) (results stale junk calls list tr) s := by
  refine (machine stale junk calls list).run_invariant
    (I := fun tr s => Filed ((machine stale junk calls list).log writes tr)
      (results stale junk calls list tr) s)
    ⟨false, bracketed_session calls, rfl⟩ (fun tr s a s' hs hi h => ?_) tr s hrun
  unfold results at hi ⊢
  rw [Machine.log_snoc _ _ hs h, Machine.log_snoc _ _ hs h]
  exact step_filed hi (step_cases h)

/-! ## Events that can be printed -/

/-- What the operation creates can be printed. -/
def MakesPrintable : Op → Prop
  | .create _ numRows numCols =>
    numRows.toNat * numCols.toNat * 4 < 2 ^ 64 ∧ numRows.toNat + 1 < 2 ^ 64
  | _ => True

/-- All events can be printed. -/
def AllPrintable (list : EventList) : Prop := ∀ event ∈ list.nodes, Printable event

/-- The stores leave the dimensions. -/
theorem storeFrom_dims (q : Server.Request) (r : UInt32) (n : Nat) :
    ∀ (event : Server.Event) (i : Nat), (storeFrom event q r i n).rows = event.rows ∧
      (storeFrom event q r i n).cols = event.cols := by
  induction n with
  | zero => exact fun _ _ => ⟨rfl, rfl⟩
  | succ n ih => exact fun event i => ih (storeSeat event q r i) (i + 1)

/-- An operation of such dimensions keeps all events printable. -/
theorem exec_printable {op : Op} (hop : MakesPrintable op) (h : AllPrintable list) :
    AllPrintable (op.exec list).2 := by
  cases op with
  | create id rows cols =>
    show AllPrintable (Server.emsCreate Alloc.allOk list id rows cols).1
    unfold Server.emsCreate
    split
    next => exact h
    next =>
      rw [createEvent_allOk]
      split
      next =>
        intro event hevent
        rcases List.mem_append.mp hevent with hold | hnew
        · exact h event hold
        · rw [List.mem_singleton.mp hnew]
          exact ⟨hop.1, hop.2⟩
      next => exact h
  | reserve q =>
    show AllPrintable (Server.emsReserve list q).1
    unfold Server.emsReserve
    split
    next => exact h
    next e _ =>
      split
      next => exact h
      next event he =>
        intro event' hevent'
        rcases List.mem_or_eq_of_mem_set hevent' with hold | rfl
        · exact h event' hold
        · have hevent := h event (List.mem_of_getElem? he)
          unfold reserveSeats
          split
          next =>
            obtain ⟨hrows, hcols⟩ := storeFrom_dims q (event.reservations + 1) q.numSeats.toNat
              (bumpReservations event) 0
            exact ⟨by rw [hrows, hcols]; exact hevent.fits, by rw [hrows]; exact hevent.ends⟩
          next => exact hevent
  | showEvent id => exact h
  | listEvents => exact h

/-- A client can be shown every event of such a list. -/
theorem AllPrintable.showable (h : AllPrintable list) (c : Call) : Showable list c := by
  cases c with
  | showEvent id =>
    simp only [Showable]
    split
    next => trivial
    next event hfound =>
      obtain ⟨e, -, he⟩ := Option.bind_eq_some_iff.mp hfound
      exact h event (List.mem_of_getElem? he)
  | _ => trivial

/-- The same of a step. -/
theorem AllPrintable.shows (h : AllPrintable s.list) (a : Act) : Shows s a := by
  cases a with
  | serve =>
    simp only [Shows]
    split
    next => exact h.showable _
    next => trivial
  | _ => trivial

/-! ## The numbers of a file -/

/-- Every decoded command has been read at some place of the file. -/
theorem mem_decodeUpTo {decode : Reading Decoded} {d : Decoded} (fuel : Nat) :
    ∀ {t : List UInt8} {D : List Decoded}, decodeUpTo decode fuel t = some D → d ∈ D →
      ∃ r r', decode.run r = some (d, r') := by
  induction fuel with
  | zero => intro t D h; cases h
  | succ fuel ih =>
    intro t D h hmem
    unfold decodeUpTo at h
    split at h
    next => cases h
    next => cases h; exact absurd hmem List.not_mem_nil
    next d' rest _ hrun =>
      obtain ⟨ds, hds, rfl⟩ := Option.map_eq_some_iff.mp h
      rcases List.mem_cons.mp hmem with rfl | hmem
      · exact ⟨t, rest, hrun⟩
      · exact ih hds hmem

/-- The dimensions of a `CREATE` have been `unsigned int`s. -/
theorem decode_create {uninit t t' : List UInt8} {id : UInt32} {rows cols : UInt64}
    (h : (Client.decode uninit).run t = some (.create id rows cols, t')) :
    rows.toNat < 2 ^ 32 := by
  have hargs : (Decoded.create id rows cols).HasArguments := trivial
  unfold Client.decode at h
  rw [Reading.run_bind, Option.bind_eq_some_iff] at h
  obtain ⟨⟨command, r⟩, -, h⟩ := h
  cases command with
  | create =>
    obtain ⟨x, hx, heq⟩ := arguments_some (f := fun x => .create x.1 x.2.1 x.2.2) rfl
      (fun _ => rfl) hargs h
    obtain ⟨a, b, c, e, -, -, hv⟩ := create_some hx
    obtain ⟨v, -, rfl⟩ := Option.map_eq_some_iff.mp hv
    cases heq
    exact b.value.toNat_lt
  | reserve =>
    obtain ⟨x, -, heq⟩ := arguments_some (f := fun x => .reserve x.1 x.2) rfl (fun _ => rfl) hargs h
    cases heq
  | showEvent =>
    obtain ⟨x, -, heq⟩ := arguments_some (f := .showEvent) rfl (fun _ => rfl) hargs h
    cases heq
  | wait =>
    obtain ⟨x, -, heq⟩ := arguments_some (f := fun x => .wait x.1 x.2) rfl (fun _ => rfl) hargs h
    cases heq
  | _ => cases h

/-- The matrices of the `CREATE`s can be expressed in a `size_t`. -/
def CreatesFit (D : List Decoded) : Prop :=
  ∀ id rows cols, Decoded.create id rows cols ∈ D → rows.toNat * cols.toNat * 4 < 2 ^ 64

/-- A call belongs to one of the commands. -/
theorem mem_callsFrom {stack : Stack} {c : Call} {D : List Decoded} :
    ∀ {i : Nat}, c ∈ callsFrom stack i D → ∃ d ∈ D, ∃ j, callOf (stack j) d = some c := by
  induction D with
  | nil => intro i h; exact absurd h List.not_mem_nil
  | cons d D ih =>
    intro i h
    rcases List.mem_append.mp h with hhere | hlater
    · exact ⟨d, List.mem_cons_self .., i, Option.mem_toList.mp hhere⟩
    · obtain ⟨d', hd', hc⟩ := ih hlater
      exact ⟨d', List.mem_cons_of_mem _ hd', hc⟩

/-- The calls of a file whose CREATEs fit make printable events. -/
theorem calls_printable {uninit file : List UInt8} (stack : Stack) {D : List Decoded}
    (hD : decodeAll (Client.decode uninit) file = some D) (hfit : CreatesFit D) :
    ∀ c ∈ callsFrom stack 0 D, MakesPrintable c.op := by
  intro c hc
  obtain ⟨d, hd, j, hcall⟩ := mem_callsFrom hc
  cases d with
  | create id rows cols =>
    cases hcall
    obtain ⟨r, r', hrun⟩ := mem_decodeUpTo _ hD hd
    have hrows := decode_create hrun
    exact ⟨hfit id rows cols hd, by omega⟩
  | reserve => cases hcall; trivial
  | showEvent => cases hcall; trivial
  | listEvents => cases hcall; trivial
  | _ => cases hcall

/-! ## Every run -/

/-- When no event is too large, every `SHOW` can be printed. -/
theorem run_printable (hlist : StoreInv list) (hall : AllPrintable list)
    (hcalls : ∀ c ∈ calls, MakesPrintable c.op) (hrun : (machine stale junk calls list).run tr = some s)
    (hothers : ∀ op, Act.other op ∈ tr → MakesPrintable op) :
    (machine stale junk calls list).Meets Shows tr ∧ AllPrintable s.list := by
  refine (machine stale junk calls list).run_invariant
    (I := fun tr s => (∀ op, Act.other op ∈ tr → MakesPrintable op) →
      (machine stale junk calls list).Meets Shows tr ∧ AllPrintable s.list)
    (fun _ => ⟨?_, hall⟩) (fun tr s a s' hs hi h hothers => ?_) tr s hrun hothers
  · intro before a after _ htr
    exact absurd htr.symm (by simp)
  obtain ⟨hmeets, hprintable⟩ := hi fun op hop => hothers op (List.mem_append_left _ hop)
  have hmeets' := hmeets.snoc hs (hprintable.shows a)
  refine ⟨hmeets', ?_⟩
  have hsnoc := (machine stale junk calls list).run_snoc.mpr ⟨s, hs, h⟩
  cases step_cases h with
  | serve hc =>
    -- what is performed is one of the calls
    obtain ⟨-, n, m, hphase⟩ := run_phase hlist hmeets' hsnoc
    have hbegins := hphase.agrees.operations
    have hlog : operations stale junk calls list (tr ++ [.serve]) =
        operations stale junk calls list tr ++ performed s .serve := Machine.log_snoc _ _ hs h
    rw [hlog] at hbegins
    refine exec_printable (hcalls _ (hbegins.subset ?_)) hprintable
    simp [performed, hc]
  | other => exact exec_printable (hothers _ (by simp)) hprintable
  | _ => exact hprintable

/-- What a client has done for a job file: the operations are those of a beginning of its
commands, each with the store it found; it has their results, and the `.out` file holds
their texts. -/
structure WorksOff (calls : List Call) (ps : List (Call × EventList))
    (rs : List (UInt32 × List Char)) (file : List Char) (s : State) : Prop where
  operations : ps.map Prod.fst <+: calls
  results : rs <+: ps.map outcome
  texts : file <+: ps.flatMap fun x => output x.2 x.1
  finished : Over s → ps.map Prod.fst = calls ∧ rs = ps.map outcome ∧
    file = ps.flatMap fun x => output x.2 x.1

/-- What the calls print, one behind the other. -/
theorem flatMap_outcome (ps : List (Call × EventList)) :
    (ps.map outcome).flatMap (·.2) = ps.flatMap fun x => output x.2 x.1 := List.flatMap_map ..

/-- The texts of the calls that have returned, and the beginning of the next one's. -/
theorem Phase.file {ps : List (Call × EventList)} {rs : List (UInt32 × List Char)} {n m : Nat}
    {file : List Char} (h : Phase stale junk calls ps rs n m s) (hfile : Filed file rs s) :
    file <+: ps.flatMap fun x => output x.2 x.1 := by
  obtain ⟨inside, hclient, rfl⟩ := hfile
  cases inside with
  | false =>
    obtain ⟨rest, hrest⟩ := h.agrees.results
    refine ⟨rest.flatMap (·.2), ?_⟩
    rw [← flatMap_outcome, ← hrest, List.flatMap_append]
    simp
  | true =>
    cases h with
    | @idle _ rest => cases rest <;> cases hclient
    | request => exact ⟨[], by rw [flatMap_outcome]; simp⟩
    | @response _ _ _ _ _ es _ _ _ hout =>
      refine ⟨Client.printed es, ?_⟩
      rw [← flatMap_outcome, List.map_append, List.flatMap_append, if_pos rfl, List.append_assoc,
        hout]
      simp
    | quitting _ _ _ hflush _ =>
      have hdone := hclient.flush
      rw [hflush] at hdone
      cases hdone

section JobFile

variable {uninit file : List UInt8} {stack : Stack} {D : List Decoded} {p : Program UInt32}

/-- In every run the client is on its way through the calls of its file. -/
theorem run_worksOff (hD : decodeAll (Client.decode uninit) file = some D)
    (hmain : Client.main junk uninit stack file = some p) (hfit : CreatesFit D)
    (hlist : StoreInv list) (hall : AllPrintable list)
    (hothers : ∀ op, Act.other op ∈ tr → MakesPrintable op)
    (hrun : (serving stale p list).run tr = some s) :
    WorksOff (callsFrom stack 0 D) ((serving stale p list).log performed tr)
      ((serving stale p list).log returned tr) ((serving stale p list).log writes tr) s := by
  cases (main_eq hD).symm.trans hmain
  change (machine stale junk (callsFrom stack 0 D) list).run tr = some s at hrun
  obtain ⟨hshow, -⟩ := run_printable hlist hall (calls_printable stack hD hfit) hrun hothers
  obtain ⟨-, n, m, hphase⟩ := run_phase hlist hshow hrun
  have hagrees := hphase.agrees
  refine ⟨hagrees.operations, hagrees.results, hphase.file (run_filed hrun), fun hover => ?_⟩
  obtain ⟨-, -, hcalls, hresults⟩ := hagrees.finished hover
  refine ⟨hcalls, hresults, ?_⟩
  -- `main` has returned, so no call is under way
  obtain ⟨inside, hclient, hfile⟩ := run_filed hrun
  rw [hover.1] at hclient
  cases hclient
  rw [hresults, flatMap_outcome] at hfile
  exact hfile.trans (List.append_nil _)

/-- From every state the client can come to its end. -/
theorem run_finish (hD : decodeAll (Client.decode uninit) file = some D)
    (hmain : Client.main junk uninit stack file = some p) (hfit : CreatesFit D)
    (hlist : StoreInv list) (hall : AllPrintable list)
    (hothers : ∀ op, Act.other op ∈ tr → MakesPrintable op)
    (hrun : (serving stale p list).run tr = some s) :
    ∃ tr' s', (∀ a ∈ tr', a.Own) ∧ (serving stale p list).run (tr ++ tr') = some s' ∧ Over s' := by
  cases (main_eq hD).symm.trans hmain
  change (machine stale junk (callsFrom stack 0 D) list).run tr = some s at hrun
  have hcalls := calls_printable stack hD hfit
  obtain ⟨hshow, -⟩ := run_printable hlist hall hcalls hrun hothers
  obtain ⟨-, n, m, hphase⟩ := run_phase hlist hshow hrun
  obtain ⟨tr', s', hown, hrun', -, hend⟩ := phase_finish hlist n m tr s _ _ hshow hrun hphase
  refine ⟨tr', s', hown, hrun', hend.resolve_right fun hno => hno ?_⟩
  have hothers' : ∀ op, Act.other op ∈ tr ++ tr' → MakesPrintable op := by
    intro op hop
    rcases List.mem_append.mp hop with hop | hop
    · exact hothers op hop
    · exact absurd (hown _ hop) id
  obtain ⟨-, hprintable⟩ := run_printable hlist hall hcalls hrun' hothers'
  exact hprintable.shows .serve

end JobFile

/-! ## A client alone -/

/-- The store behind the calls. -/
def execCalls (list : EventList) (cs : List Call) : EventList :=
  cs.foldl (fun list c => (c.exec list).2) list

/-- The calls in turn, each with the store it finds. -/
def inTurn (list : EventList) : List Call → List (Call × EventList)
  | [] => []
  | c :: cs => (c, list) :: inTurn (c.exec list).2 cs

/-- Calls one behind the other, each with the list it finds. -/
theorem inTurn_append (cs ds : List Call) :
    ∀ list, inTurn list (cs ++ ds) = inTurn list cs ++ inTurn (execCalls list cs) ds := by
  induction cs with
  | nil => exact fun _ => rfl
  | cons c cs ih =>
    intro list
    rw [List.cons_append, inTurn, ih]
    rfl

/-- They are the calls. -/
theorem inTurn_calls (cs : List Call) : ∀ list, (inTurn list cs).map Prod.fst = cs := by
  induction cs with
  | nil => exact fun _ => rfl
  | cons c cs ih =>
    intro list
    rw [inTurn, List.map_cons, ih]

/-- What a step does to the store is what its operation does. -/
theorem step_inTurn {s s' : State} {a : Act} (hown : a.Own) (h : Step stale s a s') :
    ∃ cs, performed s a = inTurn s.list cs ∧ s'.list = execCalls s.list cs := by
  cases h with
  | @serve c _ hc => exact ⟨[c], by simp [performed, hc, inTurn], rfl⟩
  | other => exact absurd hown id
  | _ => exact ⟨[], rfl, rfl⟩

/-- When nobody else is there, every operation finds what the last one has left. -/
theorem run_inTurn {p : Program UInt32} (hrun : (serving stale p list).run tr = some s)
    (hown : ∀ a ∈ tr, a.Own) : ∃ cs, (serving stale p list).log performed tr = inTurn list cs ∧
      s.list = execCalls list cs := by
  refine (serving stale p list).run_invariant
    (I := fun tr s => (∀ a ∈ tr, a.Own) → ∃ cs,
      (serving stale p list).log performed tr = inTurn list cs ∧ s.list = execCalls list cs)
    (fun _ => ⟨[], rfl, rfl⟩) (fun tr s a s' hs hi h hown => ?_) tr s hrun hown
  obtain ⟨cs, hlog, hlist⟩ := hi fun b hb => hown b (List.mem_append_left _ hb)
  obtain ⟨ds, hperformed, hlist'⟩ := step_inTurn (hown a (by simp)) (step_cases h)
  refine ⟨cs ++ ds, ?_, ?_⟩
  · rw [Machine.log_snoc _ _ hs h, hlog, hperformed, inTurn_append, hlist]
  · rw [hlist', hlist, execCalls, execCalls, execCalls, List.foldl_append]

/-- Arrays that nobody has written. -/
def unwritten : Stack := fun _ =>
  (⟨List.replicate 256 9, List.length_replicate⟩, ⟨List.replicate 256 8, List.length_replicate⟩)

/-- A file of two commands. -/
def createShowFile : List UInt8 := bytes "CREATE 1 1 1\nSHOW 1\n"

/-- The two commands of the file. -/
theorem decode_createShow :
    decodeAll (Client.decode []) createShowFile = some [.create 1 1 1, .showEvent 1] := by decide

/-- Their CREATE is a small one. -/
theorem createsFit_createShow : CreatesFit [.create 1 1 1, .showEvent 1] := by
  intro id rows cols hmem
  simp only [List.mem_cons, List.not_mem_nil, or_false] at hmem
  rcases hmem with hmem | hmem
  · cases hmem
    decide
  · cases hmem

end Ems.Proto.Link
