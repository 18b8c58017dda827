import Ems.Server.Intact
import Ems.Server.Programs
import Ems.Server.Report

/-!
# One action in three models

`ems_sigusr1_action` is modelled for three questions: as a program, for the locks it gives
back (`Programs.lean`), as a function of the list in memory, for whether it ends
(`Nodes.lean`), and step by step beside the sessions (`Report.lean`). Here is that they print
the same. The first two agree on all events, also on those whose loops do not end or leave
the block (`exec_action`). Where they end, the text of an event is the one that
`report_committed` speaks of (`eventText_eq`).
-/

namespace Ems.Server.Programs

open Conc Conc.Program

/-- The answers of a server with these events and nobody else in it, and what is printed. -/
def aloneWith (events : List Event) : (e : Action) → List Char → Option (Answer e × List Char)
  | .initialized, out => some (true, out)
  | .rdlock, out => some (true, out)
  | .mutexLock _, out => some (true, out)
  | .head, out => some (!events.isEmpty, out)
  | .behind, out => some (events.length - 1, out)
  | .load e, out => (events[e]?).map fun event => (event, out)
  | .readSeat e i, out =>
    ((events[e]?).bind fun event => event.data[i]?).map fun seat => (seat, out)
  | .printf text, out => some ((), out ++ text)
  | _, _ => none

section Exec

variable {events : List Event} {e : Nat} {event : Event}

/-- A loop that prints. -/
theorem exec_forLoop {n : UInt64} {body : UInt64 → Code Unit} {text : UInt64 → Option (List Char)}
    (hbody : ∀ i out, (body i).exec (aloneWith events) out =
      (text i).map fun t => ((), out ++ t)) (fuel : Nat) :
    ∀ i out, (forLoop n body fuel i).exec (aloneWith events) out =
      (Client.forText n text fuel i).map fun t => ((), out ++ t) := by
  induction fuel with
  | zero => exact fun i out => rfl
  | succ fuel ih =>
    intro i out
    unfold forLoop Client.forText
    split
    next hle =>
      rw [exec_bind, hbody]
      cases text i with
      | none => rfl
      | some t =>
        rw [Option.map_some, Option.bind_some, ih]
        cases Client.forText n text fuel (i + 1) with
        | none => rfl
        | some rest => exact congrArg (fun x => some ((), x)) (List.append_assoc ..)
    next => exact congrArg (fun x => some ((), x)) (List.append_nil _).symm

theorem exec_printRows (he : events[e]? = some event) (out : List Char) :
    (printRows e event).exec (aloneWith events) out =
      (Client.loopText event.rows (Nodes.rowText event)).map fun t => ((), out ++ t) := by
  refine exec_forLoop (fun i out => ?_) _ 1 out
  have hrow : (printRow e event i).exec (aloneWith events) out =
      (Client.loopText event.cols fun j =>
        event.data[(seatIndex event i j).toNat]?.map fun seat =>
          Client.decimal seat ++ if j < event.cols then [' '] else []).map
        fun t => ((), out ++ t) := by
    refine exec_forLoop (fun j out => ?_) _ 1 out
    have hread : aloneWith events (.readSeat e (seatIndex event i j).toNat) out =
        (event.data[(seatIndex event i j).toNat]?).map fun seat => (seat, out) := by
      show ((events[e]?).bind _).map _ = _
      rw [he]
      rfl
    show ((aloneWith events (.readSeat e (seatIndex event i j).toNat) out).bind _) = _
    rw [hread]
    cases event.data[(seatIndex event i j).toNat]? with
    | none => rfl
    | some seat =>
      simp only [Option.map_some, Option.bind_some]
      split
      next => exact congrArg (fun x => some ((), x)) (List.append_assoc ..)
      next => exact congrArg (fun x => some ((), x)) (congrArg _ (List.append_nil _).symm)
  rw [exec_bind, hrow]
  unfold Nodes.rowText
  cases Client.loopText event.cols _ with
  | none => rfl
  | some t => exact congrArg (fun x => some ((), x)) (List.append_assoc ..)

/-- The rounds of the loop over the events: one event, and what comes behind it. -/
theorem exec_printNode (he : events[e]? = some event) (next : Code Bool) (out : List Char) :
    (do
      let locked : Bool ← ask (.mutexLock e)
      if !locked then return false
      acquire (.mutex e) .write
      let event : Event ← ask (.load e)
      let _ : Unit ← ask (.printf ("Event: ".toList ++ Nat.toDigits 10 event.id.toNat ++ ['\n']))
      printRows e event
      release (.mutex e)
      next : Code Bool).exec (aloneWith events) out =
      (Nodes.eventText event).bind fun text => next.exec (aloneWith events) (out ++ text) := by
  have hload : aloneWith events (.load e) out = some (event, out) := by
    show (events[e]?).map _ = _
    rw [he]
    rfl
  show ((aloneWith events (.load e) out).bind _) = _
  rw [hload]
  show ((printRows e event >>= _).exec (aloneWith events) _) = _
  rw [exec_bind, exec_printRows he]
  unfold Nodes.eventText
  cases Client.loopText event.rows (Nodes.rowText event) with
  | none => rfl
  | some rows => exact congrArg (next.exec (aloneWith events)) (List.append_assoc ..)

/-- The loop over the events from the `i`-th on. -/
theorem exec_printNodes (n : Nat) : ∀ {i : Nat}, i + n + 1 = events.length → ∀ out,
    (printNodes i n).exec (aloneWith events) out =
      ((events.drop i).mapM Nodes.eventText).map fun texts => (true, out ++ texts.flatten) := by
  induction n with
  | zero =>
    intro i hi out
    have hlt : i < events.length := by omega
    unfold printNodes
    refine (exec_printNode (List.getElem?_eq_getElem hlt) _ out).trans ?_
    rw [List.drop_eq_getElem_cons hlt, List.drop_eq_nil_of_le (by omega), List.mapM_cons]
    cases Nodes.eventText events[i] with
    | none => rfl
    | some text => exact congrArg (fun x => some (true, out ++ x)) (List.append_nil text).symm
  | succ n ih =>
    intro i hi out
    have hlt : i < events.length := by omega
    unfold printNodes
    refine (exec_printNode (List.getElem?_eq_getElem hlt) _ out).trans ?_
    rw [List.drop_eq_getElem_cons hlt, List.mapM_cons]
    cases Nodes.eventText events[i] with
    | none => rfl
    | some text =>
      show (printNodes (i + 1) n).exec (aloneWith events) (out ++ text) = _
      rw [ih (by omega)]
      cases (events.drop (i + 1)).mapM Nodes.eventText with
      | none => rfl
      | some texts => exact congrArg (fun x => some (true, x)) (List.append_assoc ..)

/-- The whole action: the program prints what `Nodes.lean` says, and has no result where
that has none. -/
theorem exec_action (events : List Event) :
    emsSigusr1Action.exec (aloneWith events) [] =
      if events = [] then some (0, "No events\n".toList)
      else (events.mapM Nodes.eventText).map fun texts => (0, texts.flatten) := by
  cases events with
  | nil => rfl
  | cons event rest =>
    rw [if_neg (List.cons_ne_nil event rest)]
    show ((printNodes 0 rest.length >>= _).exec (aloneWith (event :: rest)) []) = _
    rw [exec_bind, exec_printNodes rest.length (by simp), List.drop_zero]
    cases (event :: rest).mapM Nodes.eventText <;> rfl

end Exec

end Ems.Server.Programs

namespace Ems.Server.Nodes

open Conc Base

/-- A row, when its seats are in the block and can be counted. -/
theorem rowText_eq {event : Event} (hsized : event.Sized) (h : Client.Printable event) {i : Nat}
    (hi : i < event.rows.toNat) :
    rowText event (UInt64.ofNat (i + 1)) = some (Client.line (Report.rowOf event i)) := by
  have hfits := h.fits
  have hcells : event.data.length = event.rows.toNat * event.cols.toNat := by
    rw [hsized.cells, UInt64.toNat_mul]
    exact Nat.mod_eq_of_lt (by omega)
  have hcols : event.cols.toNat ≤ event.rows.toNat * event.cols.toNat :=
    Nat.le_mul_of_pos_left _ (by omega)
  unfold rowText
  rw [Client.loopText_eq (by omega) fun j =>
    Client.decimal (event.data.getD (i * event.cols.toNat + j) 0) ++
      if j + 1 < event.cols.toNat then [' '] else []]
  · rw [← Report.seatsText_all]
    rfl
  · intro j hj
    have hcell : i * event.cols.toNat + (j + 1) ≤ event.rows.toNat * event.cols.toNat :=
      inside_mul_le (Nat.succ_pos i) hi hj
    have hlt : UInt64.ofNat (j + 1) < event.cols ↔ j + 1 < event.cols.toNat := by
      rw [UInt64.lt_iff_toNat_lt, UInt64.toNat_ofNat', Nat.mod_eq_of_lt (by omega)]
    rw [Report.seat_index h hi hj, List.getElem?_eq_getElem (by omega), List.getD_eq_getElem?_getD,
      List.getElem?_eq_getElem (by omega)]
    simp only [hlt]
    rfl

/-- The action on the list in memory is the program's on its events. -/
theorem Linked.action_eq {list : EventList} {n fuel : Nat} (h : Linked list n) (hf : n ≤ fuel) :
    (Programs.emsSigusr1Action.exec (Programs.aloneWith ((List.range n).map list.event)) []).map
      (·.2) = emsSigusr1Action list fuel := by
  rw [Programs.exec_action, List.mapM_map]
  unfold emsSigusr1Action
  cases n with
  | zero =>
    have hhead : list.head = none := h.1
    rw [hhead]
    rfl
  | succ k =>
    rw [if_neg (by simp), h.ends.1, h.ends.2]
    simp only [h.visit_eq hf, Option.bind_eq_bind, Option.bind_some, Function.comp_def]
    cases (List.range (k + 1)).mapM fun node => eventText (list.event node) <;> rfl

/-- An event as the report prints it, step by step. -/
theorem eventText_eq {event : Event} (hsized : event.Sized) (h : Client.Printable event) :
    eventText event = some (Client.idLine event.id ++ Client.render event) := by
  unfold eventText
  rw [Client.loopText_eq h.ends fun i => Client.line (Report.rowOf event i)]
  · rw [← Report.rowsText_all]
    rfl
  · exact fun i hi => rowText_eq hsized h hi

end Ems.Server.Nodes
