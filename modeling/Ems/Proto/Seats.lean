import Ems.Proto.Clients
import Ems.Proto.Received
import Ems.Server.Linear
import Ems.Server.Reserve

/-!
# Who has which seat

`Server/Booking.lean` compares the matrix of an event with what its sessions do to it.
Here the other end: the job files of the clients. The seats of an event are those of the
`RESERVE`s that the sessions have performed with success, numbered in the one order that
all clients share (`seats_sold`); so no seat is ever sold twice, to two clients or to one.
The client learns of a `RESERVE` when it reads the reply, which may still be on its way.
-/

namespace Ems.Proto.Link

open Base Conc Wire Server Client Parse

/-- The seats a call gets of the event, if it is a `RESERVE` of it that the session performs
with 0. -/
def granted (id : UInt32) (x : Call × EventList) : List (List Seat) :=
  match x.1.op with
  | .reserve q => if q.eventId = id ∧ (outcome x).1 = 0 then [q.seats] else []
  | _ => []

/-- Nothing is sold of an event that does not exist, and an event keeps the ledger of what
has been sold of it. -/
def Sold (id : UInt32) (hist : List (List Seat)) (list : EventList) : Prop :=
  match found list id with
  | none => hist = []
  | some event => capacity event < 2 ^ 32 → KeepsBooks hist event ([], [], none)

/-! ## What is found -/

section Found

variable {list : EventList} {id : UInt32}

/-- The first event of that id. -/
theorem found_eq (list : EventList) (id : UInt32) :
    found list id = list.nodes.find? (·.id == id) :=
  List.find?_eq_bind_findIdx?_getElem?.symm

/-- A new event is found behind all others. -/
theorem found_append (event : Server.Event) :
    found (appendToList list event) id =
      (found list id).or (if event.id = id then some event else none) := by
  rw [found_eq, found_eq]
  show (list.nodes ++ [event]).find? _ = _
  rw [List.find?_append, List.find?_singleton]
  simp only [beq_iff_eq]

/-- An event that has changed keeps its place. -/
theorem found_set {e : Nat} {event event' : Server.Event} (he : list.nodes[e]? = some event)
    (hid : event'.id = event.id) : found { list with nodes := list.nodes.set e event' } id =
      if getEvent list id = some e then some event' else found list id := by
  have hsame : getEvent { list with nodes := list.nodes.set e event' } id = getEvent list id := by
    have hmap : (list.nodes.map (·.id))[e]? = some event.id := by
      rw [List.getElem?_map, he]
      rfl
    rw [getEvent_eq, getEvent_eq]
    show ((list.nodes.set e event').map (·.id)).findIdx? _ = _
    rw [List.map_set, hid, set_same hmap]
  unfold found
  rw [hsame]
  cases hget : getEvent list id with
  | none => rfl
  | some e' =>
    obtain ⟨hlt, -⟩ := List.getElem?_eq_some_iff.mp he
    by_cases h : e' = e
    · subst h
      rw [if_pos rfl]
      exact List.getElem?_set_self hlt
    · rw [if_neg fun heq => h (Option.some.inj heq)]
      exact List.getElem?_set_ne (Ne.symm h)

/-- The last loop of `ems_reserve` marks all seats of the claim. -/
theorem keeps_storeFrom {n : Nat} {l : Ledger (Finset.range n)} {q : Server.Request} {r : UInt32}
    (hpos : 0 < l.claims.length) (hr : r.toNat = l.claims.length) (m : Nat) :
    ∀ {event : Server.Event} {i : Nat}, i + m = q.numSeats.toNat →
      Keeps event l (q.cellsFrom event i) → Keeps (storeFrom event q r i m) l [] := by
  induction m with
  | zero =>
    intro event i hi hk
    rw [Request.cellsFrom_ge (by omega)] at hk
    exact hk
  | succ m ih =>
    intro event i hi hk
    rw [Request.cellsFrom_lt (by omega)] at hk
    exact ih (by omega) (keeps_store hk hpos hr)

/-- A reservation that succeeds adds its seats to the books. -/
theorem keepsBooks_reserve {event : Server.Event} {q : Server.Request} {hist : List (List Seat)}
    (hcap : capacity event < 2 ^ 32) (hbooks : KeepsBooks hist event ([], [], none))
    (hn : 1 ≤ q.numSeats.toNat) (hadm : q.admitted event = true) :
    KeepsBooks (hist ++ [q.seats]) (reserveSeats event q).1 ([], [], none) := by
  obtain ⟨l, hl, hkeep, hins, -⟩ := hbooks
  rw [List.append_nil] at hl hins
  obtain ⟨l', hl', hnum, hkeep'⟩ := keeps_grant hcap hkeep hadm hn
  have hpos : 0 < l'.claims.length := by
    rw [hl', List.length_append]
    exact Nat.succ_pos _
  have hend := keeps_storeFrom hpos hnum q.numSeats.toNat (Nat.zero_add _) hkeep'
  unfold reserveSeats
  rw [if_pos hadm]
  dsimp only
  obtain ⟨hrows, hcols⟩ := storeFrom_dims q (event.reservations + 1) q.numSeats.toNat
    (bumpReservations event) 0
  generalize storeFrom (bumpReservations event) q (event.reservations + 1) 0 q.numSeats.toNat =
    event' at hend hrows hcols ⊢
  -- the new event has the dimensions of the old one, and so its cells
  obtain ⟨id', reservations', cols', rows', data'⟩ := event'
  change rows' = event.rows at hrows
  change cols' = event.cols at hcols
  subst hrows hcols
  refine ⟨l', ?_, hend, ?_, fun r hr => by cases hr⟩
  · rw [List.append_nil, hl', hl, List.map_append]
    rfl
  · intro seats hseats p hp
    rw [List.append_nil] at hseats
    rcases List.mem_append.mp hseats with hold | hnew
    · exact hins seats hold p hp
    · rw [List.mem_singleton.mp hnew] at hp
      obtain ⟨i, hi, rfl⟩ := List.mem_map.mp hp
      exact ((Request.admitted_iff (by omega)).mp hadm i (List.mem_range.mp hi)).1

/-! ## One call -/

/-- A `RESERVE` names a seat. -/
def Call.Sane : Call → Prop
  | .reserve _ numSeats _ _ => 1 ≤ numSeats.toNat
  | _ => True

/-- `ems_create` sells nothing. -/
theorem sold_create {hist : List (List Seat)} {id' : UInt32} {rows cols : UInt64}
    (h : Sold id hist list) : Sold id hist (Server.emsCreate Alloc.allOk list id' rows cols).1 := by
  unfold Server.emsCreate
  split
  next => exact h
  next =>
    rw [createEvent_allOk]
    split
    next =>
      unfold Sold at h ⊢
      rw [found_append]
      cases hfound : found list id with
      | some event =>
        rw [hfound] at h
        exact h
      | none =>
        rw [hfound] at h
        rw [Option.none_or]
        by_cases hid : (newEvent id' rows cols).id = id
        · rw [if_pos hid, h]
          exact fun hcap => keepsBooks_new hcap
        · rw [if_neg hid]
          exact h
    next => exact h

/-- What `get_event` points to. -/
theorem found_of_getEvent {e : Nat} {event : Server.Event} (hget : getEvent list id = some e)
    (he : list.nodes[e]? = some event) : found list id = some event ∧ event.id = id := by
  have hfound : found list id = some event := by
    unfold found
    rw [hget]
    exact he
  refine ⟨hfound, ?_⟩
  rw [found_eq] at hfound
  simpa using List.find?_some hfound

/-- `ems_reserve` sells what it is asked for, or nothing. -/
theorem sold_reserve {hist : List (List Seat)} {q : Server.Request} (hn : 1 ≤ q.numSeats.toNat)
    (h : Sold id hist list) :
    Sold id (hist ++ if q.eventId = id ∧ (Server.emsReserve list q).2 = 0 then [q.seats] else [])
      (Server.emsReserve list q).1 := by
  cases hget : getEvent list q.eventId with
  | none =>
    rw [Server.emsReserve_missing hget, if_neg (by simp), List.append_nil]
    exact h
  | some e =>
    have hlt := getEvent_lt hget
    have he := List.getElem?_eq_getElem hlt
    generalize list.nodes[e] = event at he
    obtain ⟨hfound, hevent⟩ := found_of_getEvent hget he
    obtain ⟨hid, -⟩ := reserveSeats_keeps event q
    rw [emsReserve_found hget he]
    unfold Sold at h ⊢
    rw [found_set he hid]
    by_cases hq : q.eventId = id
    · -- it is this event
      subst hq
      rw [hfound] at h
      rw [if_pos hget]
      intro hcap
      rcases reserveSeats_cases event q with ⟨hone, hsame⟩ | ⟨hzero, hadm⟩
      · rw [hsame] at hcap ⊢
        rw [if_neg (by rw [hone]; simp), List.append_nil]
        exact h hcap
      · rw [if_pos ⟨rfl, hzero⟩]
        have hold : capacity event < 2 ^ 32 := by
          unfold capacity at hcap ⊢
          unfold reserveSeats at hcap
          rw [if_pos hadm] at hcap
          obtain ⟨hrows, hcols⟩ := storeFrom_dims q (event.reservations + 1) q.numSeats.toNat
            (bumpReservations event) 0
          rw [hrows, hcols] at hcap
          exact hcap
        exact keepsBooks_reserve hold (h hold) hn hadm
    · have hne : getEvent list id ≠ some e := fun hsame =>
        hq (hevent.symm.trans (found_of_getEvent hsame he).2)
      rw [if_neg hne, if_neg (fun hand => hq hand.1), List.append_nil]
      exact h

/-- **One call** adds what it is granted. -/
theorem sold_exec {hist : List (List Seat)} {c : Call} (hc : Call.Sane c) (h : Sold id hist list) :
    Sold id (hist ++ granted id (c, list)) (c.exec list).2 := by
  cases c with
  | create id' rows cols =>
    rw [show granted id (.create id' rows cols, list) = [] from rfl, List.append_nil]
    exact sold_create h
  | reserve id' numSeats xs ys =>
    exact sold_reserve (q := ⟨id', numSeats, fun i => xs.1.getD i 0, fun i => ys.1.getD i 0⟩) hc h
  | showEvent id' =>
    rw [show granted id (.showEvent id', list) = [] from rfl, List.append_nil]
    exact h
  | listEvents =>
    rw [show granted id (.listEvents, list) = [] from rfl, List.append_nil]
    exact h

/-- Calls in turn sell what they are granted. -/
theorem sold_inTurn (cs : List Call) (hcs : ∀ c ∈ cs, Call.Sane c) :
    ∀ {list : EventList} {hist : List (List Seat)}, Sold id hist list →
      Sold id (hist ++ (inTurn list cs).flatMap (granted id)) (execCalls list cs) := by
  induction cs with
  | nil =>
    intro list hist h
    rw [inTurn, List.flatMap_nil, List.append_nil]
    exact h
  | cons c cs ih =>
    intro list hist h
    rw [inTurn, List.flatMap_cons, ← List.append_assoc]
    exact ih (fun d hd => hcs d (List.mem_cons_of_mem _ hd))
      (sold_exec (hcs c (List.mem_cons_self ..)) h)

/-- Calls in turn keep the invariant of the store. -/
theorem execCalls_storeInv (cs : List Call) : ∀ {list : EventList}, StoreInv list →
    StoreInv (execCalls list cs) := by
  induction cs with
  | nil => exact id
  | cons c cs ih => exact fun h => ih (exec_storeInv c.op h)

/-- Every event is the one that its id finds. -/
theorem found_of_mem {event : Server.Event} (h : StoreInv list) (hevent : event ∈ list.nodes) :
    found list event.id = some event := by
  rw [found_eq]
  cases hfind : list.nodes.find? (·.id == event.id) with
  | none => exact absurd (List.find?_eq_none.mp hfind event hevent) (by simp)
  | some event' =>
    have hid : event'.id = event.id := by simpa using List.find?_some hfind
    exact congrArg some (List.inj_on_of_nodup_map h.nodup (List.mem_of_find?_eq_some hfind) hevent hid)

end Found

/-! ## All clients -/

/-- The parser has seen a seat at least, and not too many. -/
theorem decode_reserve {uninit t t' : List UInt8} {id : UInt32} {coords : List (UInt64 × UInt64)}
    (h : (Client.decode uninit).run t = some (.reserve id coords, t')) :
    coords ≠ [] ∧ coords.length < 256 := by
  have hargs : (Decoded.reserve id coords).HasArguments := trivial
  unfold Client.decode at h
  rw [Reading.run_bind, Option.bind_eq_some_iff] at h
  obtain ⟨⟨command, r⟩, -, h⟩ := h
  cases command with
  | reserve =>
    obtain ⟨x, hx, heq⟩ := arguments_some (f := fun x => .reserve x.1 x.2) rfl (fun _ => rfl) hargs h
    obtain ⟨a, seats, e, hne, hlen, -, -, -, rfl⟩ := reserve_some hx
    cases heq
    refine ⟨by simpa [Line.coords] using hne, ?_⟩
    rw [Line.coords, List.length_map]
    exact hlen
  | create =>
    obtain ⟨x, -, heq⟩ := arguments_some (f := fun x => .create x.1 x.2.1 x.2.2) rfl
      (fun _ => rfl) hargs h
    cases heq
  | showEvent =>
    obtain ⟨x, -, heq⟩ := arguments_some (f := .showEvent) rfl (fun _ => rfl) hargs h
    cases heq
  | wait =>
    obtain ⟨x, -, heq⟩ := arguments_some (f := fun x => .wait x.1 x.2) rfl (fun _ => rfl) hargs h
    cases heq
  | _ => cases h

/-- The RESERVEs of a file name a seat. -/
theorem calls_sane {uninit file : List UInt8} {stack : Stack} {D : List Decoded}
    (hD : decodeAll (Client.decode uninit) file = some D) :
    ∀ c ∈ callsFrom stack 0 D, Call.Sane c := by
  intro c hc
  obtain ⟨d, hd, j, hcall⟩ := mem_callsFrom hc
  cases d with
  | reserve id coords =>
    cases hcall
    obtain ⟨r, r', hrun⟩ := mem_decodeUpTo _ hD hd
    obtain ⟨hne, hlen⟩ := decode_reserve hrun
    have hpos := List.length_pos_iff.mpr hne
    show 1 ≤ (UInt64.ofNat coords.length).toNat
    rw [UInt64.toNat_ofNat', Nat.mod_eq_of_lt (by omega)]
    exact hpos
  | create => cases hcall; trivial
  | showEvent => cases hcall; trivial
  | listEvents => cases hcall; trivial
  | _ => cases hcall

namespace Clients

variable {T : Type} [DecidableEq T] {stale : T → Nat → UInt8} {p : T → Program UInt32}
  {tr : List (T × Act)} {s : Clients T} {uninit files : T → List UInt8} {junk : T → Nat → UInt8}
  {stack : T → Stack} {D : T → List Decoded} {list : EventList}

/-- So do those of all clients. -/
theorem order_sane (hw : Working uninit files junk stack D p list)
    (hrun : (machine stale p list).run tr = some s) :
    ∀ c ∈ (order stale p list tr).map (fun x => x.2.1), Call.Sane c := by
  intro c hc
  obtain ⟨⟨t, c', list'⟩, hx, rfl⟩ := List.mem_map.mp hc
  have hworks := (hw.worksOff hrun t (run_others hw hrun t)).operations
  rw [run_share hrun] at hworks
  refine calls_sane (hw.decoded t) c' (hworks.subset ?_)
  exact List.mem_map.mpr ⟨(c', list'), List.mem_filterMap.mpr ⟨_, hx, if_pos rfl⟩, rfl⟩

/-- **Who has which seat.** Clients work their job files off on a fresh server. Whatever
the interleaving, every event with fewer than 2^32 seats has counted the `RESERVE`s of it
that the sessions have performed with success, and the seats that carry `k` are those that
the `k`-th of them asked for. -/
theorem seats_sold (hw : Working uninit files junk stack D p createList)
    (hrun : (machine stale p createList).run tr = some s) {event : Server.Event}
    (hevent : event ∈ s.list.nodes) (hcap : capacity event < 2 ^ 32) :
    event.reservations.toNat =
        (((order stale p createList tr).map Prod.snd).flatMap (granted event.id)).length ∧
      ∀ k, 1 ≤ k → {seat : Seat | Inside event seat ∧ event.seat seat = k} =
        {seat | seat ∈
          (((order stale p createList tr).map Prod.snd).flatMap (granted event.id)).getD (k - 1) []} := by
  obtain ⟨horder, hlist⟩ := run_order hrun
  have hsold := @sold_inTurn event.id _ (order_sane hw hrun) createList [] rfl
  rw [List.nil_append, ← horder, ← hlist] at hsold
  have hinv : StoreInv s.list := by
    rw [hlist]
    exact execCalls_storeInv _ storeInv_createList
  unfold Sold at hsold
  rw [found_of_mem hinv hevent] at hsold
  obtain ⟨l, hl, hkeep, hins, -⟩ := hsold hcap
  rw [List.append_nil] at hl hins
  refine ⟨?_, fun k hk => keeps_seats (Nat.lt_trans hcap (by decide)) hl hkeep hins hk⟩
  rw [hkeep.count, hl, List.length_map]

/-- A single client has the whole order. -/
theorem share_unit {O : Type} (l : List (Unit × O)) : share () l = l.map Prod.snd := by
  unfold share
  rw [← List.filterMap_eq_map]
  exact List.filterMap_congr fun _ _ => if_pos rfl

/-- One client asks for the same seat twice. -/
def reserveTwice : List Decoded := [.create 1 1 1, .reserve 1 [(1, 1)], .reserve 1 [(1, 1)]]

/-- One client asks twice for the same seat. -/
theorem seats_sold_reserveTwice : ∃ (p : Unit → Program UInt32) (tr : List (Unit × Act))
    (s : Clients Unit) (event : Server.Event),
    (machine (fun _ _ => 7) p createList).run tr = some s ∧ event ∈ s.list.nodes ∧
      {seat : Seat | Inside event seat ∧ event.seat seat = 1} = {seat | seat ∈ [((1, 1) : Seat)]} := by
  have hD : decodeAll (Client.decode [])
      (bytes "CREATE 1 1 1\nRESERVE 1 [(1,1)]\nRESERVE 1 [(1,1)]\n") = some reserveTwice := by decide
  have hw : Working (fun _ => [])
      (fun _ : Unit => bytes "CREATE 1 1 1\nRESERVE 1 [(1,1)]\nRESERVE 1 [(1,1)]\n")
      (fun _ _ => 7) (fun _ => unwritten) (fun _ => reserveTwice)
      (fun _ => Client.session (fun _ => 7) (callsFrom unwritten 0 reserveTwice)) createList := by
    refine ⟨fun _ => hD, fun _ => main_eq hD, fun _ => ?_, ⟨[], rfl⟩,
      fun _ h => absurd h List.not_mem_nil⟩
    intro id rows cols hmem
    simp only [reserveTwice, List.mem_cons, List.not_mem_nil, or_false, reduceCtorEq] at hmem
    cases hmem
    decide
  let M := machine (fun _ _ => 7) (fun _ : Unit => Client.session (fun _ => 7)
    (callsFrom unwritten 0 reserveTwice)) createList
  have hstart : M.run [] = some M.init := rfl
  obtain ⟨tr, s, hrun, hends, -⟩ := run_finishAll hw [()] hstart
  obtain ⟨horder, hlist⟩ := run_order hrun
  have hworks := hw.worksOff hrun () (run_others hw hrun ())
  obtain ⟨hcalls, -⟩ := hworks.finished (hends () (List.mem_singleton_self ()))
  rw [run_share hrun, share_unit, List.map_map] at hcalls
  have horder := horder.trans (congrArg (inTurn createList) hcalls)
  have hlist := hlist.trans (congrArg (execCalls createList) hcalls)
  have hnodes : s.list.nodes = [⟨1, 1, 1, 1, [1]⟩] := by
    rw [hlist]
    decide
  have hevent : (⟨1, 1, 1, 1, [1]⟩ : Server.Event) ∈ s.list.nodes := by
    rw [hnodes]
    exact List.mem_singleton_self _
  obtain ⟨-, hseats⟩ := seats_sold hw hrun hevent (by decide)
  refine ⟨_, _, s, _, hrun, hevent, (hseats 1 (by decide)).trans ?_⟩
  rw [horder]
  have hgranted : (inTurn createList (callsFrom unwritten 0 reserveTwice)).flatMap (granted 1) =
      [[((1, 1) : Seat)]] := by decide
  dsimp only
  rw [hgranted]
  rfl

end Clients

end Ems.Proto.Link
