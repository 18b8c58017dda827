import Ems.Client.Output
import Ems.Server.Reached

/-!
# Reading a reply

What an operation of the client sends, and what it makes of the reply to it. The two
ends of a session are written field by field and apart from each other; that they agree
is `flush_call` and `feed_reply` here and `feed_encode` in `Proto/Handler.lean`.
-/

namespace Ems.Client

open Wire Server Proto

variable {α : Type} {junk : Nat → UInt8}

/-- What a call prints when the store is `list`. -/
def output (list : EventList) : Call → List Char
  | .create .. => []
  | .reserve .. => []
  | .showEvent eventId =>
    match (getEvent list eventId).bind fun e => list.nodes[e]? with
    | none => []
    | some event => render event
  | .listEvents =>
    if list.nodes = [] then "No events\n".toList
    else list.nodes.flatMap fun event => idLine event.id

/-- A `SHOW` of the event, if that is what the call is, can be printed. -/
def Showable (list : EventList) : Call → Prop
  | .showEvent eventId =>
    match (getEvent list eventId).bind fun e => list.nodes[e]? with
    | none => True
    | some event => Printable event
  | _ => True

instance (list : EventList) (c : Call) : Decidable (Showable list c) := by
  unfold Showable
  split
  next => split <;> infer_instance
  next => infer_instance

/-- The client goes on by itself when it has printed. -/
def printing : Action → Option Unit
  | .print _ => some ()
  | _ => none

/-- What was printed. -/
def printed (es : List Action) : List Char :=
  es.flatMap fun
    | .print text => text
    | _ => []

/-- The rest of a call when the request has been sent. -/
def awaitReply (junk : Nat → UInt8) (c : Call) (next : UInt32 → Program α) : Program α :=
  (Talk.flush (call junk c >>= next)).2

/-- The request is sent whole. -/
theorem flush_call (c : Call) (next : UInt32 → Program α) :
    Talk.flush (call junk c >>= next) = (c.encode, awaitReply junk c next) := by
  refine Prod.ext ?_ rfl
  cases c <;> rfl

theorem feed_readReturnValue (ret : UInt32) (next : UInt32 → Program α) (w : List UInt8) :
    (readReturnValue >>= next).feed printing (le4 ret ++ w) = (next ret).feed printing w := by
  have hne : le4 ret ≠ [] := List.length_pos_iff.mp (by simp)
  have hret : uint (overlay 4 (le4 ret) fun i => (le4 1).getD i 0) = ret := by
    have hfull := @overlay_full (le4 ret) fun i => (le4 1).getD i 0
    rw [le4_length] at hfull
    rw [hfull, uint_le4]
  have hread : readReturnValue >>= next = Talk.readBytes 4 >>= fun bs =>
      (if bs = [] then (pure 1 : Program UInt32)
        else pure (uint (overlay 4 bs fun i => (le4 1).getD i 0))) >>= next := rfl
  rw [hread, Talk.feed_readBytes printing (le4_length ret), if_neg hne, hret]
  rfl

/-- `ems_show` up to its loops. -/
theorem feed_matrix {eventId : UInt32} {numRows numCols : UInt64} {seats : List UInt8}
    (hlen : seats.length = (4 * (numRows * numCols)).toNat) (next : UInt32 → Program α)
    (w : List UInt8) :
    (awaitReply junk (.showEvent eventId) next).feed printing
        ((le8 numRows ++ le8 numCols) ++ (seats ++ w)) =
      (showSeats (showText numRows numCols seats) >>= next).feed printing w := by
  have hheader : (le8 numRows ++ le8 numCols).length = 16 := by simp
  have hne : le8 numRows ++ le8 numCols ≠ [] := List.length_pos_iff.mp (by omega)
  have hfull := @overlay_full (le8 numRows ++ le8 numCols) junk
  rw [hheader] at hfull
  have hseats := @overlay_full seats junk
  rw [hlen] at hseats
  have hread : awaitReply junk (.showEvent eventId) next = Talk.readBytes 16 >>= fun header =>
      (if header = [] then (pure 1 : Program UInt32)
        else readSeats junk (size ((overlay 16 header junk).take 8))
          (size ((overlay 16 header junk).drop 8))) >>= next := rfl
  have hreadSeats : readSeats junk numRows numCols >>= next =
      Talk.readBytes (4 * (numRows * numCols)).toNat >>= fun seats =>
        showSeats (showText numRows numCols
          (overlay (4 * (numRows * numCols)).toNat seats junk)) >>= next := rfl
  rw [hread, Talk.feed_readBytes printing hheader, if_neg hne, hfull]
  rw [List.take_left' (le8_length numRows), List.drop_left' (le8_length numRows), size_le8, size_le8]
  rw [hreadSeats, Talk.feed_readBytes printing hlen, hseats]

/-- The client prints and reads the value to return. -/
theorem feed_print (text : List Char) (ret : UInt32) (next : UInt32 → Program α) (w : List UInt8) :
    ((Talk.act (.print text) >>= fun _ => readReturnValue >>= next : Program α)).feed printing
        (le4 ret ++ w) =
      (.print text :: ((next ret).feed printing w).1, ((next ret).feed printing w).2) := by
  rw [Talk.act_bind]
  simp only [Talk.feed, printing]
  rw [feed_readReturnValue]

/-- `ems_list_events`. -/
theorem feed_listing {num : UInt64} {ids : List UInt8} (hlen : ids.length = (4 * num).toNat)
    (ret : UInt32) (next : UInt32 → Program α) (w : List UInt8) :
    (awaitReply junk .listEvents next).feed printing (le8 num ++ (ids ++ (le4 ret ++ w))) =
      (.print (listText num ids) :: ((next ret).feed printing w).1,
        ((next ret).feed printing w).2) := by
  have hnum := @overlay_full (le8 num) fun _ => 0
  rw [le8_length] at hnum
  have hids := @overlay_full ids junk
  rw [hlen] at hids
  have hread : awaitReply junk .listEvents next = Talk.readBytes 8 >>= fun header =>
      Talk.readBytes (4 * size (overlay 8 header fun _ => 0)).toNat >>= fun ids =>
      Talk.act (.print (listText (size (overlay 8 header fun _ => 0))
        (overlay (4 * size (overlay 8 header fun _ => 0)).toNat ids junk))) >>= fun _ =>
      readReturnValue >>= next := rfl
  rw [hread, Talk.feed_readBytes printing (le8_length num), hnum, size_le8]
  rw [Talk.feed_readBytes printing hlen, hids]
  exact feed_print _ ret next w

/-- What the server sends of an event that exists. -/
theorem exec_show {list : EventList} (hlist : StoreInv list) {eventId : UInt32}
    {event : Server.Event}
    (hfound : ((getEvent list eventId).bind fun e => list.nodes[e]?) = some event) :
    (Call.exec (.showEvent eventId) list).1 = .matrix event.rows event.cols event.bytes 0 ∧
      event.Sized ∧ event.bytes.length = (4 * (event.rows * event.cols)).toNat := by
  obtain ⟨e, -, he⟩ := Option.bind_eq_some_iff.mp hfound
  have hsized := hlist.sized event (List.mem_of_getElem? he)
  refine ⟨?_, hsized, ?_⟩
  · show Server.emsShow list eventId = _
    unfold Server.emsShow
    rw [hfound]
    dsimp only
    rw [hsized.take_bytes]
  · rw [UInt64.mul_comm, Event.bytes_length, ← hsized.byteSize]
    rfl

theorem exec_show_none {list : EventList} {eventId : UInt32}
    (hfound : ((getEvent list eventId).bind fun e => list.nodes[e]?) = none) :
    (Call.exec (.showEvent eventId) list).1 = .matrix 0 0 [] 1 := by
  show Server.emsShow list eventId = _
  unfold Server.emsShow
  rw [hfound]

/-- What the server sends of the list. -/
theorem exec_list {list : EventList} (hlist : StoreInv list) :
    (Call.exec .listEvents list).1 = .listing list.eventNum (list.nodes.map (·.id)) 0 := by
  have hnum := hlist.eventNum_toNat
  have hids : (Server.emsListEvents list).2 = list.nodes.map (·.id) := by
    unfold Server.emsListEvents
    split
    next h0 =>
      rw [h0] at hnum
      rw [List.length_eq_zero_iff.mp hnum.symm]
      rfl
    next => rfl
  rw [← hids]
  rfl

/-- **The reply to a call is read whole**: the client prints what there is to print and
returns what the server's operation returned. -/
theorem feed_reply {list : EventList} (hlist : StoreInv list) {c : Call} (hc : Showable list c)
    (next : UInt32 → Program α) :
    ∃ es, (awaitReply junk c next).feed printing (replyWrites (c.exec list).1).flatten =
        (es ++ ((next (replyRet (c.exec list).1)).feed printing []).1,
          ((next (replyRet (c.exec list).1)).feed printing []).2) ∧
      printed es = output list c := by
  cases c with
  | create eventId numRows numCols => exact ⟨[], feed_readReturnValue _ next [], rfl⟩
  | reserve eventId numSeats xs ys => exact ⟨[], feed_readReturnValue _ next [], rfl⟩
  | showEvent eventId =>
    simp only [Showable] at hc
    simp only [output]
    cases hfound : (getEvent list eventId).bind fun e => list.nodes[e]? with
    | none =>
      -- the event is not there: an empty matrix and the status 1
      have hread := @feed_matrix α junk eventId 0 0 [] rfl next (le4 1 ++ [])
      rw [showText_zero] at hread
      rw [exec_show_none hfound]
      exact ⟨[.print []], hread.trans (feed_print [] 1 next []), rfl⟩
    | some event =>
      obtain ⟨hexec, hsized, hlen⟩ := exec_show hlist hfound
      have hread := @feed_matrix α junk eventId event.rows event.cols event.bytes hlen next
        (le4 0 ++ [])
      rw [hfound] at hc
      rw [showText_bytes hsized hc] at hread
      rw [hexec]
      exact ⟨[.print (render event)], hread.trans (feed_print _ 0 next []), List.append_nil _⟩
  | listEvents =>
    have hnum := hlist.eventNum_toNat
    have hbytes : (replyWrites (Call.exec .listEvents list).1).flatten =
        le8 list.eventNum ++ ((list.nodes.map (·.id)).flatMap le4 ++ (le4 0 ++ [])) := by
      rw [exec_list hlist]
      simp [replyWrites, List.flatMap]
    have hlen : ((list.nodes.map (·.id)).flatMap le4).length = (4 * list.eventNum).toNat := by
      -- the ids are distinct, so there are few enough of them
      have hle := length_le_of_ids hlist.nodup
      rw [UInt64.toNat_mul, hnum, flatMap_le4, toWords_length, List.length_map, List.length_map]
      exact (Nat.mod_eq_of_lt (by show 4 * _ < _; omega)).symm
    refine ⟨[.print (listText list.eventNum ((list.nodes.map (·.id)).flatMap le4))], ?_, ?_⟩
    · rw [hbytes]
      exact feed_listing hlen 0 next []
    · have hcount : list.eventNum.toNat = (list.nodes.map (·.id)).length := by
        rw [List.length_map, hnum]
      have htext := listText_ids hcount
      show listText _ _ ++ [] = _
      rw [List.append_nil, htext, List.flatMap_map]
      simp only [output, List.map_eq_nil_iff]

end Ems.Client
