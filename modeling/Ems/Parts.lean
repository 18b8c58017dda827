import Ems.Jobs.Operations

/-!
# The two parts agree

The stores of the two parts, driven by the same CREATEs and RESERVEs one after the other.
The first part marks the seats of a reservation while it checks them and takes the marks
back; the second checks all bounds, looks for every cell of the matrix whether it is
wanted and taken, and only then marks. As long as no request names a seat twice the two
cannot be told apart (`parts_agree`).
-/

namespace Ems.Parts

open Server (Request Inside)

/-- An operation on the store. -/
inductive Op where
  | create (eventId : UInt32) (numRows numCols : UInt64)
  | reserve (q : Request)

/-- The matrix can be allocated by both parts, the seats are between 1 and
`MAX_RESERVATION_SIZE` and no two of them the same. -/
def Op.Fits : Op → Prop
  | .create _ numRows numCols => numRows.toNat * numCols.toNat * 4 < 2 ^ 64
  | .reserve q => 1 ≤ q.numSeats.toNat ∧ q.numSeats.toNat ≤ 256 ∧
      ∀ i < q.numSeats.toNat, ∀ j < q.numSeats.toNat, q.seat i = q.seat j → i = j

/-- The operation in the first part, every allocation granted. -/
def Op.jobs (list : Jobs.EventList) : Op → Jobs.EventList × Nat
  | .create eventId numRows numCols =>
    Jobs.emsCreate ⟨true, true, true⟩ list eventId numRows numCols
  | .reserve q => Jobs.emsReserve list q

/-- The operation in the second part, every allocation granted. -/
def Op.server (list : Server.EventList) : Op → Server.EventList × UInt32
  | .create eventId numRows numCols =>
    Server.emsCreate Server.Alloc.allOk list eventId numRows numCols
  | .reserve q => Server.emsReserve list q

/-- The operations in turn: the store they leave and what each of them returns. -/
def execAll {L R : Type} (exec : L → Op → L × R) : L → List Op → L × List R
  | list, [] => (list, [])
  | list, op :: ops =>
    ((execAll exec (exec list op).1 ops).1,
      (exec list op).2 :: (execAll exec (exec list op).1 ops).2)

/-- The two stores hold the same events, and every matrix has its size. -/
structure Similar (jobs : Jobs.EventList) (server : Server.EventList) : Prop where
  same : jobs.map Jobs.Event.toServer = server.nodes
  size : ∀ event ∈ jobs, event.data.length = Server.capacity event.toServer
  fits : ∀ event ∈ jobs, Server.capacity event.toServer < 2 ^ 64

theorem similar_createList : Similar Jobs.createList Server.createList :=
  ⟨rfl, fun _ h => absurd h List.not_mem_nil, fun _ h => absurd h List.not_mem_nil⟩

theorem Similar.getEvent_eq {jobs : Jobs.EventList} {server : Server.EventList}
    (h : Similar jobs server) (id : UInt32) :
    Server.getEvent server id = Jobs.getEvent jobs id := by
  unfold Server.getEvent Jobs.getEvent
  rw [← h.same, List.findIdx?_map]
  rfl

/-! ## One reservation -/

/-- When the loop of the first part refuses no seat it is the last loop of the second. -/
theorem markFrom_eq_storeFrom (q : Request) (r : UInt32) (n : Nat) :
    ∀ (event : Jobs.Event) (i : Nat), (Jobs.markFrom event q r i n).2 = i + n →
      (Jobs.markFrom event q r i n).1.toServer = Server.storeFrom event.toServer q r i n := by
  induction n with
  | zero => intro event i _; rfl
  | succ n ih =>
    intro event i hend
    unfold Jobs.markFrom at hend ⊢
    split at hend
    next =>
      have : i = i + (n + 1) := hend
      omega
    next href =>
      rw [if_neg href, ih _ _ (hend.trans (by omega))]
      rfl

/-- **One reservation** has the same result and leaves the same event in both parts. -/
theorem reserveSeats_agree {event : Jobs.Event} {q : Request}
    (hsize : event.data.length = Server.capacity event.toServer)
    (hcap : Server.capacity event.toServer < 2 ^ 64)
    (hseats : ∀ i < q.numSeats.toNat, ∀ j < q.numSeats.toNat, q.seat i = q.seat j → i = j) :
    (Jobs.reserveSeats event q).1.toServer = (Server.reserveSeats event.toServer q).1 ∧
    ((Jobs.reserveSeats event q).2 = 0 ↔ (Server.reserveSeats event.toServer q).2 = 0) := by
  unfold Server.reserveSeats
  rcases Jobs.reserveSeats_spec (Jobs.extends_of_distinct hsize hcap hseats) with
    ⟨event', hm, hend, hres⟩ | ⟨event', i, hi, hm, href, hres⟩
  · have hadm : q.admitted event.toServer = true :=
      (Request.admitted_iff hcap).mpr fun i hi => ⟨hm.inside i hi, hm.free i hi⟩
    have hstore := markFrom_eq_storeFrom q (event.reservations + 1) q.numSeats.toNat
      (Jobs.bumpReservations event) 0 (by rw [hend, Nat.zero_add])
    rw [hres, if_pos hadm]
    rw [hend] at hstore
    exact ⟨hstore, iff_of_true rfl rfl⟩
  · have hadm : ¬ q.admitted event.toServer = true := by
      intro hadm
      have hall := (Request.admitted_iff hcap).mp hadm
      -- the refused seat is inside and free in the event, so it must be one marked before
      have hpass : Jobs.refused event' q i = false := by
        refine Jobs.refused_eq_false.mpr ⟨(hm.inside_iff _).mpr (hall i hi).1, ?_⟩
        rw [hm.index_eq, hm.others]
        · exact (hall i hi).2
        · intro j _ hj heq
          have hseat : q.seat j = q.seat i := Server.seatIndex_inj hcap (hm.inside j hj)
            (hall i hi).1 (show q.index event.toServer j = q.index event.toServer i from heq)
          have := hseats j (by omega) i hi hseat
          omega
      rw [hpass] at href
      cases href
    rw [hres, if_neg hadm]
    exact ⟨rfl, by simp⟩

/-- A reservation keeps the size of the matrix. -/
theorem reserveSeats_size {event : Jobs.Event} {q : Request}
    (hx : Jobs.Extends event q (event.reservations + 1)) :
    (Jobs.reserveSeats event q).1.data.length = event.data.length ∧
    Server.capacity (Jobs.reserveSeats event q).1.toServer = Server.capacity event.toServer := by
  rcases Jobs.reserveSeats_spec hx with ⟨event', hm, -, hres⟩ | ⟨-, -, -, -, -, hres⟩
  · rw [hres]
    refine ⟨hm.length, ?_⟩
    show event'.rows.toNat * event'.cols.toNat = event.rows.toNat * event.cols.toNat
    rw [hm.rows, hm.cols]
  · rw [hres]
    exact ⟨rfl, rfl⟩

/-! ## One operation -/

section Steps

variable {jobs : Jobs.EventList} {server : Server.EventList}

theorem reserve_similar {q : Request} (h : Similar jobs server) (hq : (Op.reserve q).Fits) :
    Similar (Jobs.emsReserve jobs q).1 (Server.emsReserve server q).1 ∧
    ((Jobs.emsReserve jobs q).2 = 0 ↔ (Server.emsReserve server q).2 = 0) := by
  unfold Jobs.emsReserve Server.emsReserve
  rw [h.getEvent_eq]
  cases Jobs.getEvent jobs q.eventId with
  | none => exact ⟨h, by simp⟩
  | some e =>
    have hget : server.nodes[e]? = (jobs[e]?).map Jobs.Event.toServer := by
      rw [← h.same, List.getElem?_map]
    dsimp only
    rw [hget]
    cases he : jobs[e]? with
    | none => exact ⟨h, by simp⟩
    | some event =>
      have hmem := List.mem_of_getElem? he
      have hsize := h.size event hmem
      have hcap := h.fits event hmem
      obtain ⟨hevent, hret⟩ := reserveSeats_agree hsize hcap hq.2.2
      obtain ⟨hlen, hcapacity⟩ := reserveSeats_size
        (Jobs.extends_of_distinct (r := event.reservations + 1) hsize hcap hq.2.2)
      refine ⟨⟨?_, ?_, ?_⟩, hret⟩
      · show (jobs.set e _).map Jobs.Event.toServer = server.nodes.set e _
        rw [List.map_set, h.same, hevent]
      · intro event' hevent'
        rcases List.mem_or_eq_of_mem_set hevent' with hold | rfl
        · exact h.size event' hold
        · rw [hlen, hcapacity, hsize]
      · intro event' hevent'
        rcases List.mem_or_eq_of_mem_set hevent' with hold | rfl
        · exact h.fits event' hold
        · rw [hcapacity]
          exact hcap

theorem create_similar {id : UInt32} {rows cols : UInt64} (h : Similar jobs server)
    (hfits : (Op.create id rows cols).Fits) :
    Similar (Jobs.emsCreate ⟨true, true, true⟩ jobs id rows cols).1
      (Server.emsCreate Server.Alloc.allOk server id rows cols).1 ∧
    ((Jobs.emsCreate ⟨true, true, true⟩ jobs id rows cols).2 = 0 ↔
      (Server.emsCreate Server.Alloc.allOk server id rows cols).2 = 0) := by
  have hfits : rows.toNat * cols.toNat * 4 < 2 ^ 64 := hfits
  have hprod : (rows * cols).toNat = rows.toNat * cols.toNat := by
    rw [UInt64.toNat_mul]
    exact Nat.mod_eq_of_lt (by omega)
  unfold Jobs.emsCreate Server.emsCreate
  rw [h.getEvent_eq]
  by_cases hfound : (Jobs.getEvent jobs id).isSome = true
  · rw [if_pos hfound, if_pos hfound]
    exact ⟨h, by simp⟩
  · rw [if_neg hfound, if_neg hfound, Server.createEvent_allOk, if_pos (by rw [hprod]; exact hfits)]
    have hnew : (⟨id, 0, cols, rows, Jobs.zeroedCells rows cols⟩ : Jobs.Event).toServer =
        Server.newEvent id rows cols := by
      unfold Jobs.Event.toServer Server.newEvent
      rw [Jobs.zeroedCells_eq hfits, hprod]
    refine ⟨⟨?_, ?_, ?_⟩, iff_of_true rfl rfl⟩
    · show (jobs ++ [_]).map Jobs.Event.toServer = server.nodes ++ [Server.newEvent id rows cols]
      rw [List.map_append, h.same, List.map_singleton, hnew]
    · intro event hevent
      rcases List.mem_append.mp hevent with hold | hlast
      · exact h.size event hold
      · rw [List.mem_singleton.mp hlast]
        show (Jobs.zeroedCells rows cols).length = _
        rw [Jobs.zeroedCells_eq hfits, List.length_replicate]
        rfl
    · intro event hevent
      rcases List.mem_append.mp hevent with hold | hlast
      · exact h.fits event hold
      · rw [List.mem_singleton.mp hlast]
        show rows.toNat * cols.toNat < 2 ^ 64
        omega

theorem step_similar {op : Op} (h : Similar jobs server) (hop : op.Fits) :
    Similar (op.jobs jobs).1 (op.server server).1 ∧
    ((op.jobs jobs).2 = 0 ↔ (op.server server).2 = 0) := by
  cases op with
  | create id rows cols => exact create_similar h hop
  | reserve q => exact reserve_similar h hop

/-- Any operations, from similar stores. -/
theorem execAll_similar {ops : List Op} (h : Similar jobs server) (hops : ∀ op ∈ ops, op.Fits) :
    Similar (execAll (fun l op => op.jobs l) jobs ops).1
      (execAll (fun l op => op.server l) server ops).1 ∧
    (execAll (fun l op => op.jobs l) jobs ops).2.map (· == 0) =
      (execAll (fun l op => op.server l) server ops).2.map (· == 0) := by
  induction ops generalizing jobs server with
  | nil => exact ⟨h, rfl⟩
  | cons op ops ih =>
    obtain ⟨hsim, hret⟩ := step_similar h (hops op (List.mem_cons_self ..))
    obtain ⟨hrest, hrets⟩ := ih hsim fun op' hop' => hops op' (List.mem_cons_of_mem _ hop')
    refine ⟨hrest, List.cons_eq_cons.mpr ⟨?_, hrets⟩⟩
    exact Bool.eq_iff_iff.mpr (by simpa using hret)

end Steps

/-- **The two parts agree** on every sequence of operations: the same ones succeed, and
the stores they leave hold the same events in the same order, with the same ids,
dimensions, counters and matrices. As it holds of every sequence, it holds after each
operation of one. -/
theorem parts_agree {ops : List Op} (hops : ∀ op ∈ ops, op.Fits) :
    (execAll (fun l op => op.jobs l) Jobs.createList ops).2.map (· == 0) =
      (execAll (fun l op => op.server l) Server.createList ops).2.map (· == 0) ∧
    (execAll (fun l op => op.jobs l) Jobs.createList ops).1.map Jobs.Event.toServer =
      (execAll (fun l op => op.server l) Server.createList ops).1.nodes := by
  obtain ⟨hsim, hrets⟩ := execAll_similar similar_createList hops
  exact ⟨hrets, hsim.same⟩

/-- An event, a reservation, one that meets it after a free seat, and one out of range. -/
def mixed : List Op :=
  [.create 7 2 2, .reserve ⟨7, 2, fun i => if i = 0 then 1 else 2, fun _ => 1⟩,
    .reserve ⟨7, 2, fun _ => 1, fun i => if i = 0 then 2 else 1⟩,
    .reserve ⟨7, 1, fun _ => 3, fun _ => 1⟩, .create 7 1 1]

theorem parts_agree_mixed :
    (execAll (fun l op => op.jobs l) Jobs.createList mixed).2.map (· == 0) =
      [true, true, false, false, false] ∧
    (execAll (fun l op => op.jobs l) Jobs.createList mixed).1.map Jobs.Event.toServer =
      [⟨7, 1, 2, 2, [1, 0, 1, 0]⟩] := by
  have hfits : ∀ op ∈ mixed, op.Fits := by
    unfold mixed
    simp only [List.forall_mem_cons]
    refine ⟨by simp [Op.Fits], ?_, ?_, ?_, by simp [Op.Fits], nofun⟩
    all_goals exact ⟨by decide, by decide, by decide⟩
  have hagree := parts_agree hfits
  have hret : (execAll (fun l op => op.server l) Server.createList mixed).2.map (· == 0) =
      [true, true, false, false, false] := by decide
  have hstore : (execAll (fun l op => op.server l) Server.createList mixed).1.nodes =
      [⟨7, 1, 2, 2, [1, 0, 1, 0]⟩] := by decide
  rw [hret, hstore] at hagree
  exact hagree

end Ems.Parts
