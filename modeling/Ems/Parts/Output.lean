import Ems.Jobs.Solo
import Ems.Parse.RoundTrip
import Ems.Parts
import Ems.Proto.JobFile
import Ems.Proto.Received

/-!
# The two parts write the same file

The same job file, given to the job runner with one thread and to a client that has the
server for itself. The two read it with different parsers, and what the first part does
in memory goes through two pipes in the second; but the `.out` files are the same, byte
by byte, the same commands succeed, and the stores hold the same events (`same_output`).

The files are those of the grammar that both parts have, so there is no `BARRIER`. A
`WAIT` may have a thread id, which the client skips.
-/

namespace Ems.Parts

open Base Conc Wire Parse Proto
open Server (Request Inside)

/-! ## One matrix -/

/-- The two texts of an event. -/
theorem matrixText_eq {event : Jobs.Event}
    (h : Client.Printable event.toServer) :
    Jobs.Programs.matrixText event = Client.render event.toServer := by
  have hfits := h.fits
  have hends := h.ends
  change event.rows.toNat * event.cols.toNat * 4 < 2 ^ 64 at hfits
  change event.rows.toNat + 1 < 2 ^ 64 at hends
  have hrow : ∀ i < event.rows.toNat, Jobs.Programs.rowText event (1 + i) =
      Client.line ((List.range event.cols.toNat).map fun j =>
        event.data.getD (i * event.cols.toNat + j) 0) := by
    intro i hi
    have hcols : event.cols.toNat ≤ event.rows.toNat * event.cols.toNat :=
      Nat.le_mul_of_pos_left _ (by omega)
    have hseat : ∀ j < event.cols.toNat, Jobs.Programs.seatAt event (1 + i) (1 + j) =
        event.data.getD (i * event.cols.toNat + j) 0 := by
      intro j hj
      have hx : (UInt64.ofNat (1 + i)).toNat = 1 + i := by
        rw [UInt64.toNat_ofNat', Nat.mod_eq_of_lt (by omega)]
      have hy : (UInt64.ofNat (1 + j)).toNat = 1 + j := by
        rw [UInt64.toNat_ofNat', Nat.mod_eq_of_lt (by omega)]
      have hinside : Inside event.toServer (UInt64.ofNat (1 + i), UInt64.ofNat (1 + j)) := by
        refine ⟨?_, ?_, ?_, ?_⟩
        · show 1 ≤ (UInt64.ofNat (1 + i)).toNat
          omega
        · show (UInt64.ofNat (1 + i)).toNat ≤ event.rows.toNat
          omega
        · show 1 ≤ (UInt64.ofNat (1 + j)).toNat
          omega
        · show (UInt64.ofNat (1 + j)).toNat ≤ event.cols.toNat
          omega
      have hcap : Server.capacity event.toServer < 2 ^ 64 := by
        show event.rows.toNat * event.cols.toNat < 2 ^ 64
        omega
      have hindex := Server.seatIndex_toNat hcap hinside
      rw [hx, hy, Nat.add_sub_cancel_left, Nat.add_sub_cancel_left] at hindex
      exact congrArg (fun k => event.data.getD k 0) hindex
    unfold Jobs.Programs.rowText Client.line
    rw [List.range'_eq_map_range, List.flatMap_map, List.map_map, List.range_eq_range',
      ← Client.flatMap_separated event.cols.toNat 0 (Nat.zero_add _)]
    refine congrArg (· ++ ['\n']) (List.flatMap_congr fun j hj => ?_)
    have hj : j < event.cols.toNat := by simpa using hj
    unfold Jobs.Programs.seatText
    rw [hseat j hj, Nat.add_comm 1 j]
    rfl
  unfold Jobs.Programs.matrixText Client.render Client.matrix
  rw [List.range'_eq_map_range, List.flatMap_map, List.flatMap_map]
  exact List.flatMap_congr fun i hi => hrow i (List.mem_range.mp hi)

/-! ## One command -/

/-- An operation of the first part and a call of the second that are the same command; a
`CREATE` is not too large, and no seat of a `RESERVE` is there twice. -/
inductive Same : Jobs.Programs.Op → Call → Prop where
  | create {id rows cols} (hfits : rows.toNat * cols.toNat * 4 < 2 ^ 64)
      (hrows : rows.toNat + 1 < 2 ^ 64) : Same (.create id rows cols) (.create id rows cols)
  | reserve {id coords} (memory : SeatArray × SeatArray) (hne : coords ≠ [])
      (hlen : coords.length < Parse.maxReservationSize) (hnodup : coords.Nodup) :
      Same (.reserve (Jobs.Job.request id coords))
        (.reserve id (UInt64.ofNat coords.length) (Client.fill memory.1 (coords.map (·.1)))
          (Client.fill memory.2 (coords.map (·.2))))
  | showEvent {id} : Same (.showEvent id) (.showEvent id)
  | listEvents : Same .listEvents .listEvents

/-- What is behind the elements that were written is not looked at. -/
theorem fill_getD {memory : SeatArray} {seats : List UInt64} {i : Nat} (hi : i < seats.length)
    (hlen : seats.length ≤ Proto.maxReservationSize) :
    (Client.fill memory seats).1.getD i 0 = seats.getD i 0 := by
  unfold Client.fill
  rw [List.getD_eq_getElem?_getD, List.getD_eq_getElem?_getD, List.getElem?_take_of_lt (by omega),
    List.getElem?_append_left hi]

section Step

variable {jobs : Jobs.EventList} {server : Server.EventList}
  {op : Jobs.Programs.Op} {c : Call}

/-- The client's arrays, of which only the first elements count. -/
theorem call_reserve {id : UInt32} {coords : List (UInt64 × UInt64)}
    (memory : SeatArray × SeatArray) (hlen : coords.length < Parse.maxReservationSize) :
    Call.exec (.reserve id (UInt64.ofNat coords.length) (Client.fill memory.1 (coords.map (·.1)))
        (Client.fill memory.2 (coords.map (·.2)))) server =
      (.status (Server.emsReserve server (Jobs.Job.request id coords)).2,
        (Server.emsReserve server (Jobs.Job.request id coords)).1) := by
  have hsmall : coords.length < 256 := hlen
  have hnum : (UInt64.ofNat coords.length).toNat = coords.length := by
    rw [UInt64.toNat_ofNat', Nat.mod_eq_of_lt (by omega)]
  have hsame : Server.emsReserve server ⟨id, UInt64.ofNat coords.length,
      fun i => (Client.fill memory.1 (coords.map (·.1))).1.getD i 0,
      fun i => (Client.fill memory.2 (coords.map (·.2))).1.getD i 0⟩ =
      Server.emsReserve server (Jobs.Job.request id coords) :=
    Proto.emsReserve_congr server rfl rfl fun i hi => by
      have hi : i < coords.length := hnum ▸ hi
      have hle : coords.length ≤ Proto.maxReservationSize := Nat.le_of_lt hlen
      have hmap : ∀ {f : UInt64 × UInt64 → UInt64} {m : SeatArray},
          (Client.fill m (coords.map f)).1.getD i 0 = f (coords.getD i (0, 0)) := by
        intro f m
        rw [fill_getD (by rw [List.length_map]; exact hi) (by rw [List.length_map]; exact hle)]
        simp [List.getD_eq_getElem?_getD, hi]
      exact ⟨hmap, hmap⟩
  show (Server.Reply.status (Server.emsReserve server _).2, (Server.emsReserve server _).1) = _
  rw [hsame]

/-- The first part's own condition on a request. -/
theorem request_fits (id : UInt32) {coords : List (UInt64 × UInt64)} (hne : coords ≠ [])
    (hlen : coords.length < Parse.maxReservationSize) (hnodup : coords.Nodup) :
    (Op.reserve (Jobs.Job.request id coords)).Fits := by
  have hsmall : coords.length < 256 := hlen
  have hnum : (UInt64.ofNat coords.length).toNat = coords.length := by
    rw [UInt64.toNat_ofNat', Nat.mod_eq_of_lt (by omega)]
  have hpos := List.length_pos_iff.mpr hne
  refine ⟨by show 1 ≤ (UInt64.ofNat coords.length).toNat; omega,
    by show (UInt64.ofNat coords.length).toNat ≤ 256; omega, fun i hi j hj heq => ?_⟩
  have hi : i < coords.length := hnum ▸ hi
  have hj : j < coords.length := hnum ▸ hj
  have hseat : coords.getD i (0, 0) = coords.getD j (0, 0) := heq
  simp only [List.getD_eq_getElem?_getD, List.getElem?_eq_getElem hi, List.getElem?_eq_getElem hj,
    Option.getD_some] at hseat
  exact (List.Nodup.getElem_inj_iff hnodup).mp hseat

theorem show_same (id : UInt32) (file : List Char) (hsim : Similar jobs server) (hall : Link.AllPrintable server) :
    ((Jobs.Programs.Op.showEvent id).exec ⟨jobs, file⟩).1 =
        ⟨jobs, file ++ Client.output server (.showEvent id)⟩ ∧
    (((Jobs.Programs.Op.showEvent id).exec ⟨jobs, file⟩).2 = 0 ↔
      replyRet (Call.exec (.showEvent id) server).1 = 0) := by
  have hjobs : (Jobs.Programs.Op.showEvent id).exec ⟨jobs, file⟩ =
      if (Jobs.getEvent jobs id).isSome then
        (⟨jobs, file ++ (Jobs.Programs.Op.showEvent id).text jobs⟩, 0)
      else (⟨jobs, file⟩, 1) := rfl
  have hserver : Call.exec (.showEvent id) server = (Server.emsShow server id, server) := rfl
  unfold Server.emsShow at hserver
  unfold Client.output
  have hsame := hsim.getEvent_eq id
  rw [hjobs, hserver]
  cases hfound : Jobs.getEvent jobs id with
  | none => simp [replyRet, hsame, hfound]
  | some e =>
    have hlt : e < jobs.length := (List.findIdx?_eq_some_iff_getElem.mp hfound).1
    have hget : server.nodes[e]? = some jobs[e].toServer := by
      rw [← hsim.same, List.getElem?_map, List.getElem?_eq_getElem hlt]
      rfl
    have htext := Jobs.Programs.text_show hfound (List.getElem?_eq_getElem hlt)
    rw [htext, matrixText_eq (hall _ (List.mem_of_getElem? hget))]
    simp [replyRet, hsame, hfound, hget]

theorem list_same (hsim : Similar jobs server) :
    Jobs.Programs.listText jobs = Client.output server .listEvents := by
  have hnil : server.nodes = [] ↔ jobs = [] := by
    rw [← hsim.same, List.map_eq_nil_iff]
  unfold Jobs.Programs.listText Client.output
  simp only [hnil]
  rw [← hsim.same, List.flatMap_map]
  rfl

/-- **One command** has the same result in both parts, prints the same and leaves similar
stores. -/
theorem step_same (file : List Char) (h : Same op c) (hsim : Similar jobs server)
    (hall : Link.AllPrintable server) :
    Similar (op.exec ⟨jobs, file⟩).1.list (c.exec server).2 ∧
    Link.AllPrintable (c.exec server).2 ∧
    (op.exec ⟨jobs, file⟩).1.file = file ++ Client.output server c ∧
    ((op.exec ⟨jobs, file⟩).2 = 0 ↔ replyRet (c.exec server).1 = 0) := by
  cases h with
  | @create id rows cols hfits hrows =>
    have hop : (Op.create id rows cols).Fits := hfits
    have hmakes : Link.MakesPrintable (.create id rows cols) := ⟨hfits, hrows⟩
    obtain ⟨hnext, hret⟩ := step_similar hsim hop
    exact ⟨hnext, Link.exec_printable hmakes hall, (List.append_nil _).symm, hret⟩
  | @reserve id coords memory hne hlen hnodup =>
    have hmakes : Link.MakesPrintable (.reserve (Jobs.Job.request id coords)) := trivial
    obtain ⟨hnext, hret⟩ := step_similar hsim (request_fits id hne hlen hnodup)
    rw [call_reserve memory hlen]
    exact ⟨hnext, Link.exec_printable hmakes hall, (List.append_nil _).symm, hret⟩
  | @showEvent id =>
    obtain ⟨hstore, hret⟩ := show_same id file hsim hall
    rw [hstore]
    exact ⟨hsim, hall, rfl, hret⟩
  | listEvents =>
    refine ⟨hsim, hall, congrArg (file ++ ·) (list_same hsim), ?_⟩
    show (0 : Nat) = 0 ↔ (0 : UInt32) = 0
    simp

end Step

/-! ## All commands -/

/-- The same commands in turn. -/
theorem all_same {ops : List Jobs.Programs.Op} {calls : List Call} (h : List.Forall₂ Same ops calls) :
    ∀ (file : List Char) {jobs : Jobs.EventList} {server : Server.EventList},
      Similar jobs server → Link.AllPrintable server →
      Similar (Jobs.Programs.execAll ⟨jobs, file⟩ ops).1.list (Link.execCalls server calls) ∧
      (Jobs.Programs.execAll ⟨jobs, file⟩ ops).1.file =
        file ++ (Link.inTurn server calls).flatMap (fun x => Client.output x.2 x.1) ∧
      (Jobs.Programs.execAll ⟨jobs, file⟩ ops).2.map (fun r => r.2 == 0) =
        ((Link.inTurn server calls).map Link.outcome).map fun r => r.1 == 0 := by
  induction h with
  | nil => exact fun _ _ _ hsim _ => ⟨hsim, (List.append_nil _).symm, rfl⟩
  | @cons op c ops calls hsame _ ih =>
    intro file jobs server hsim hall
    obtain ⟨hnext, hprintable, hfile, hret⟩ := step_same file hsame hsim hall
    obtain ⟨hend, htexts, hrets⟩ := ih (op.exec ⟨jobs, file⟩).1.file hnext hprintable
    refine ⟨hend, ?_, List.cons_eq_cons.mpr ⟨?_, hrets⟩⟩
    · refine htexts.trans ?_
      rw [hfile, List.append_assoc]
      rfl
    · exact Bool.eq_iff_iff.mpr (by simpa [Link.outcome] using hret)

/-! ## The job file -/

/-- What a line creates is not too large, and no seat of it is there twice. -/
def Suits : Line UInt32 → Prop
  | .create _ numRows numCols => numRows.toNat * numCols.toNat * 4 < 2 ^ 64
  | .reserve _ seats => seats.Nodup
  | _ => True

theorem line_same {l : Line UInt32} (hvalid : l.Valid false) (hsuits : Suits l)
    (memory : SeatArray × SeatArray) :
    Option.Rel Same (Jobs.Job.opOf (l.decoded true id).refuseZero)
      (Client.callOf memory (l.decoded false id)) := by
  cases l with
  | create eventId numRows numCols =>
    have hrows : numRows.toUInt64.toNat = numRows.toNat := rfl
    have hlt := numRows.toNat_lt
    exact .some (.create hsuits (by rw [id, hrows]; omega))
  | reserve eventId seats =>
    refine .some (.reserve memory ?_ ?_ ?_)
    · simpa [Line.coords] using hvalid.1
    · simpa [Line.coords] using hvalid.2
    · refine List.Nodup.map (fun s s' h => ?_) hsuits
      simp only [id, Prod.mk.injEq, UInt32.toUInt64_inj] at h
      exact Prod.ext h.1 h.2
  | showEvent eventId => exact .some .showEvent
  | listEvents => exact .some .listEvents
  | barrier => cases hvalid
  | wait delay threadId =>
    unfold Line.decoded Decoded.refuseZero
    dsimp only
    split
    next => exact .none
    next => exact .none
  | help => exact .none
  | comment text => exact .none
  | blank => exact .none

theorem lines_same (stack : Client.Stack) {lines : List (Line UInt32)}
    (hvalid : ∀ l ∈ lines, l.Valid false) (hsuits : ∀ l ∈ lines, Suits l) :
    ∀ i, List.Forall₂ Same
      ((lines.map fun l => (l.decoded true id).refuseZero).filterMap Jobs.Job.opOf)
      (Client.callsFrom stack i (lines.map (Line.decoded false id))) := by
  induction lines with
  | nil => exact fun i => .nil
  | cons l lines ih =>
    intro i
    have hl := line_same (hvalid l (List.mem_cons_self ..)) (hsuits l (List.mem_cons_self ..)) (stack i)
    have hrest := ih (fun x hx => hvalid x (List.mem_cons_of_mem _ hx))
      (fun x hx => hsuits x (List.mem_cons_of_mem _ hx)) (i + 1)
    rw [List.map_cons, List.map_cons, List.filterMap_cons, Client.callsFrom]
    revert hl
    generalize Jobs.Job.opOf (l.decoded true id).refuseZero = op
    generalize Client.callOf (stack i) (l.decoded false id) = c
    intro hl
    cases hl with
    | none => exact hrest
    | some hsame => exact .cons hsame hrest

theorem decode_printed {barrier : Bool} (target : Bool) (uninit : List UInt8)
    {lines : List (Line UInt32)} (hvalid : ∀ l ∈ lines, l.Valid barrier) :
    decodeAll (Parse.next barrier target uninit) (printed lines) =
      some (lines.map (Line.decoded target id)) := by
  have hmap : ∀ l ∈ lines.map (Line.map Number.print), l.Valid barrier := fun l hl => by
    obtain ⟨x, hx, rfl⟩ := List.mem_map.mp hl
    exact (hvalid x hx).map _
  have hlines := decodeAll_lines target uninit hmap []
  have htext : Line.text Number.digits ∘ Line.map Number.print = Line.text decimalText :=
    funext fun l => l.text_map Number.print Number.digits
  have hvalue : Line.decoded target Number.value ∘ Line.map Number.print = Line.decoded target id := by
    funext l
    have hid : Number.value ∘ Number.print = id := funext Number.print_value
    rw [Function.comp, l.decoded_map, hid]
  rw [List.append_nil, List.map_map, htext, decodeAll_nil (next_decoder barrier target uninit),
    List.map_map, hvalue] at hlines
  simpa [printed] using hlines

/-- A decoder that does something more with each command. -/
theorem decodeUpTo_map {decode decode' : Reading Decoded} {g : Decoded → Decoded}
    (hg : ∀ d, g d = .eoc ↔ d = .eoc)
    (h : ∀ t, decode'.run t = (decode.run t).map fun r => (g r.1, r.2)) (fuel : Nat) :
    ∀ t, decodeUpTo decode' fuel t = (decodeUpTo decode fuel t).map (List.map g) := by
  induction fuel with
  | zero => exact fun _ => rfl
  | succ fuel ih =>
    intro t
    unfold decodeUpTo
    rw [h]
    cases decode.run t with
    | none => rfl
    | some r =>
      obtain ⟨d, rest⟩ := r
      by_cases hd : d = .eoc
      · subst hd
        have heoc := (hg .eoc).mpr rfl
        simp only [Option.map_some, heoc]
        rfl
      · have hgd : g d ≠ .eoc := fun heq => hd ((hg d).mp heq)
        simp only [Option.map_some, ih, Option.map_map]
        rfl

theorem jobs_decode_printed (uninit : List UInt8) {lines : List (Line UInt32)}
    (hvalid : ∀ l ∈ lines, l.Valid true) :
    decodeAll (Jobs.decode uninit) (printed lines) =
      some (lines.map fun l => (l.decoded true id).refuseZero) := by
  have heoc : ∀ d : Decoded, d.refuseZero = .eoc ↔ d = .eoc := by
    intro d
    cases d with
    | wait delay threadId =>
      unfold Decoded.refuseZero
      dsimp only
      split <;> simp
    | _ => rfl
  have hmap := decodeUpTo_map heoc (jobs_decode_run uninit) ((printed lines).length + 1) (printed lines)
  refine hmap.trans ?_
  rw [show decodeUpTo (Parse.next true true uninit) ((printed lines).length + 1) (printed lines) =
    some (lines.map (Line.decoded true id)) from decode_printed true uninit hvalid]
  exact congrArg some List.map_map

/-- Every line has its newline. -/
theorem terminated_printed (lines : List (Line UInt32)) : Terminated (printed lines) := by
  rcases List.eq_nil_or_concat lines with rfl | ⟨init, l, rfl⟩
  · exact .inl rfl
  · refine .inr ?_
    unfold printed joined
    simp


/-- The first part knows everything that the second does. -/
theorem valid_jobs {l : Line UInt32} (h : l.Valid false) : l.Valid true := by
  cases l with
  | barrier => rfl
  | _ => exact h

theorem createsFit_lines {lines : List (Line UInt32)} (hsuits : ∀ l ∈ lines, Suits l) :
    Link.CreatesFit (lines.map (Line.decoded false id)) := by
  intro eventId rows cols hmem
  obtain ⟨l, hl, hd⟩ := List.mem_map.mp hmem
  cases l with
  | create => cases hd; exact hsuits _ hl
  | _ => cases hd

/-! ## Both parts -/

section Runs

variable {lines : List (Line UInt32)} {uninit : List UInt8} {junk stale : Nat → UInt8}
  {stack : Client.Stack} {p : Client.Program UInt32} {jtr : List Jobs.Job.Act} {j : Jobs.Job.State}
  {tr : List Link.Act} {s : Link.State}

/-- **The two parts write the same file.** The job runner with one thread has finished a
job file, a client that was alone with its server has finished it as well: the `.out`
files are the same, so are the events in the two stores, and the same commands have
succeeded. -/
theorem same_output (hvalid : ∀ l ∈ lines, l.Valid false) (hsuits : ∀ l ∈ lines, Suits l)
    (hshort : ShortNumerals (printed lines))
    (hjob : (Jobs.Job.machine 1 (printed lines)).run jtr = some j)
    (hok : ∀ a ∈ jtr, Jobs.Job.Succeeds a) (hfinished : j.job.main = .finished)
    (hmain : Client.main junk uninit stack (printed lines) = some p)
    (hrun : (Link.serving stale p Server.createList).run tr = some s)
    (hown : ∀ a ∈ tr, a.Own) (hover : Link.Over s) :
    (Link.serving stale p Server.createList).log Link.writes tr = j.ems.store.file ∧
    s.list.nodes = j.ems.store.list.map Jobs.Event.toServer ∧
    ((Link.serving stale p Server.createList).log Link.returned tr).map (fun r => r.1 == 0) =
      (Jobs.Programs.returns (Jobs.Job.callsOf 1 (printed lines) jtr)).map (fun r => r.2.2 == 0) := by
  -- what both make of the file
  have hD := jobs_decode_printed [] fun l hl => valid_jobs (hvalid l hl)
  have hD' : decodeAll (Client.decode uninit) (printed lines) =
      some (lines.map (Line.decoded false id)) := by
    rw [client_decode_eq]
    exact decode_printed false uninit hvalid
  have hexec := Jobs.Job.solo_exec hD (terminated_printed lines) hshort hjob hok hfinished
  have hall : Link.AllPrintable Server.createList := fun _ h => absurd h List.not_mem_nil
  have hworks := Link.run_worksOff hD' hmain (createsFit_lines hsuits) Server.storeInv_createList hall
    (fun op hop => absurd (hown _ hop) id) hrun
  obtain ⟨hcalls, hresults, htexts⟩ := hworks.finished hover
  obtain ⟨cs, hops, hlist⟩ := Link.run_inTurn hrun hown
  rw [hops, Link.inTurn_calls] at hcalls
  subst hcalls
  -- the commands in turn, in both parts
  obtain ⟨hsim, hfile, hrets⟩ := all_same (lines_same stack hvalid hsuits 0) []
    similar_createList hall
  rw [hexec] at hsim hfile hrets
  rw [← hlist] at hsim
  refine ⟨?_, hsim.same.symm, ?_⟩
  · rw [htexts, hops]
    exact hfile.symm
  · rw [hresults, hops, ← hrets, List.map_map]
    rfl

/-- An event, its only seat twice, a `WAIT` for another thread, and what is there then. -/
def bookedTwice : List (Line UInt32) :=
  [.create 1 1 1, .reserve 1 [(1, 1)], .reserve 1 [(1, 1)], .wait 5 (some 2), .showEvent 1]

theorem suits_bookedTwice : (∀ l ∈ bookedTwice, l.Valid false) ∧ (∀ l ∈ bookedTwice, Suits l) := by
  unfold bookedTwice
  simp [Line.Valid, Suits, Parse.maxReservationSize]

theorem fitting_bookedTwice :
    Jobs.Job.Fitting (bookedTwice.map fun l => (l.decoded true id).refuseZero) := by
  intro d hd c hc
  obtain ⟨l, hl, rfl⟩ := List.mem_map.mp hd
  simp only [bookedTwice, List.mem_cons, List.not_mem_nil, or_false] at hl
  rcases hl with rfl | rfl | rfl | rfl | rfl
  · cases hc
    exact ⟨by decide, .inl (by decide)⟩
  · cases hc
    trivial
  · cases hc
    trivial
  · cases hc
  · cases hc
    trivial

theorem same_output_bookedTwice : ∃ jtr j p tr s,
    (Jobs.Job.machine 1 (printed bookedTwice)).run jtr = some j ∧ j.job.main = .finished ∧
    Client.main (fun _ => 7) [] Link.unwritten (printed bookedTwice) = some p ∧
    (Link.serving (fun _ => 7) p Server.createList).run tr = some s ∧ Link.Over s ∧
    (Link.serving (fun _ => 7) p Server.createList).log Link.writes tr = "1\n".toList := by
  obtain ⟨hvalid, hsuits⟩ := suits_bookedTwice
  have hD := jobs_decode_printed [] fun l hl => valid_jobs (hvalid l hl)
  have hend := terminated_printed bookedTwice
  have hshort : ShortNumerals (printed bookedTwice) := shortNumerals_of_countP (by decide)
  obtain ⟨jtr, j, hjob, hok, hf⟩ := Jobs.Job.exists_finish (n := 1) Nat.one_pos hend hshort hD
    fitting_bookedTwice
  have hok := fun a ha => (hok a ha).succeeds
  have hD' : decodeAll (Client.decode []) (printed bookedTwice) =
      some (bookedTwice.map (Line.decoded false id)) := by
    rw [client_decode_eq]
    exact decode_printed false [] hvalid
  have hmain := @Client.main_eq (fun _ => 7) [] Link.unwritten _ _ hD'
  have hnone : ∀ op, Link.Act.other op ∈ ([] : List Link.Act) → Link.MakesPrintable op := by simp
  obtain ⟨tr, s, hown, hrun, hover⟩ := @Link.run_finish (fun _ => 7) _ _ [] _ _ _ _ _ _ hD' hmain
    (createsFit_lines hsuits) Server.storeInv_createList (fun _ h => absurd h List.not_mem_nil)
    hnone rfl
  obtain ⟨htexts, -, -⟩ := same_output hvalid hsuits hshort hjob hok hf hmain hrun hown hover
  have hexec := Jobs.Job.solo_exec hD hend hshort hjob hok hf
  refine ⟨jtr, j, _, tr, s, hjob, hf, hmain, hrun, hover, htexts.trans ?_⟩
  rw [← show _ = j.ems.store from congrArg Prod.fst hexec]
  rfl

end Runs

end Ems.Parts
