import Ems.Server.Booking

/-!
# What SHOW sends

`ems_show` lets go of the list lock and then hands `event->data` to
`safe_write` without the event's mutex. The matrix that goes out is therefore a
snapshot only when nothing is stored into it on the way, and it need not be one
otherwise: in `tornShow` both seats of a reservation are stored between two
`write()`s, and the reply shows the second seat taken and the first one free.

`Undisturbed` says which steps must not happen: a `write()` of the matrix while
a reservation is half stored, and a store that changes the matrix while a `SHOW`
of the event is between its first and its last `write()`. Runs without these
steps send snapshots (`show_snapshot`). A server with one session is such a run.
-/

namespace Ems.Server

open Conc

/-- Every matrix has its size. -/
def SizedInv (s : State) : Prop := ∀ (e : Nat) (event : Event), s.list.nodes[e]? = some event →
  event.Sized

theorem sizedInv_setEvent {s : State} {e : Nat} {event event' : Event} (hi : SizedInv s)
    (he : s.list.nodes[e]? = some event) (hr : event'.rows = event.rows)
    (hc : event'.cols = event.cols) (hd : event'.data.length = event.data.length) :
    SizedInv (s.setEvent e event') := by
  intro e' event'' he'
  by_cases hee : e' = e
  · subst hee
    rw [getElem?_setEvent_self he] at he'
    cases he'
    have hold := hi _ _ he
    exact ⟨by rw [hd, hr, hc]; exact hold.cells, by rw [hd]; exact hold.fits⟩
  · rw [getElem?_setEvent_of_ne hee] at he'
    exact hi _ _ he'

theorem step_sizedInv {s s' : State} {a : Act} (hs : Step s a s') (hi : SizedInv s) :
    SizedInv s' := by
  cases hs
  case createAppend t c id rows cols h =>
    intro e event he
    change (createEvent c.alloc s.list id rows cols).1.nodes[e]? = some event at he
    rcases createEvent_cases c.alloc s.list id rows cols with hc | hc
    · rw [hc] at he
      exact hi e event he
    · have hsized := createEvent_sized (congrArg Prod.snd hc)
      rw [hc] at he
      rcases List.mem_append.mp (List.mem_of_getElem? he) with hold | hnew
      · obtain ⟨e', he'⟩ := List.mem_iff_getElem?.mp hold
        exact hi e' event he'
      · rw [List.mem_singleton.mp hnew]
        exact hsized
  case reserveAdmit t c q e event h he hq => exact sizedInv_setEvent hi he rfl rfl rfl
  case reserveStore t c q e r i event h he hlt hin =>
    exact sizedInv_setEvent hi he rfl rfl (List.length_set ..)
  all_goals exact hi

theorem run_sizedInv {tr : List Act} {s : State} (h : machine.run tr = some s) : SizedInv s :=
  machine.run_invariant (I := fun _ s => SizedInv s) (fun _ _ he => by cases he)
    (fun _ _ _ _ _ hi hstep => step_sizedInv (step_cases hstep) hi) tr s h

theorem Event.Sized.byteSize {event : Event} (h : event.Sized) :
    event.byteSize = event.data.length * 4 := by
  unfold Event.byteSize
  rw [UInt64.toNat_mul, ← h.cells]
  exact Nat.mod_eq_of_lt h.fits

@[simp] theorem Event.bytes_length (event : Event) :
    event.bytes.length = event.data.length * 4 := by
  unfold Event.bytes
  rw [Wire.toWords_length, List.length_map, Nat.mul_comm]

/-- `safe_write` is asked for the whole matrix. -/
theorem Event.Sized.take_bytes {event : Event} (h : event.Sized) :
    event.bytes.take event.byteSize = event.bytes :=
  List.take_of_length_le (by rw [h.byteSize, Event.bytes_length])

/-! ## Snapshots -/

/-- A reservation of the event at `e` is half applied: some of its seats carry
its number and some do not. -/
def State.Half (s : State) (e : Nat) : Prop :=
  ∃ t q r i event, s.pc t = .reserveStore q e r i ∧ s.list.nodes[e]? = some event ∧
    (∃ j < q.numSeats.toNat, event.data.getD (q.index event j) 0 = r) ∧
    ∃ j < q.numSeats.toNat, event.data.getD (q.index event j) 0 ≠ r

/-- What a step shows: the matrix a `SHOW` has sent when its last `safe_write`
returns. -/
def sentMatrix (s : State) : Act → List (Nat × List UInt8)
  | .step t _ =>
    match s.pc t with
    | .showData e sent =>
      match s.list.nodes[e]? with
      | some event => if event.byteSize ≤ sent.length then [(e, sent)] else []
      | none => []
    | _ => []
  | _ => []

/-- The matrices sent in a run, each with the position of its event. -/
def shown (tr : List Act) : List (Nat × List UInt8) := machine.log sentMatrix tr

/-- The bytes are the matrix of the event at a moment of the run when no
reservation of it was half applied. -/
def Snapshot (tr : List Act) (x : Nat × List UInt8) : Prop :=
  ∃ before after s event, tr = before ++ after ∧ machine.run before = some s ∧
    s.list.nodes[x.1]? = some event ∧ event.bytes = x.2 ∧ ¬ s.Half x.1

/-- The step does not let a reservation and a `SHOW` of the same event overlap. -/
def Undisturbed (s : State) : Act → Prop
  | .step t _ =>
    match s.pc t with
    | .showData e sent => ∀ event, s.list.nodes[e]? = some event →
        sent.length < event.byteSize → ¬ s.Half e
    | .reserveStore q e r i => ∀ event, s.list.nodes[e]? = some event → i < q.numSeats.toNat →
        (storeSeat event q r i).data ≠ event.data → ∀ u sent, s.pc u = .showData e sent →
        sent = [] ∨ event.byteSize ≤ sent.length
    | _ => True
  | _ => True

/-- What has been sent of the event so far belongs to one moment, and the event
has not changed since unless everything is sent. -/
def SeenAt (tr : List Act) (e : Nat) (event : Event) (sent : List UInt8) : Prop :=
  ∃ before after s₀ event₀, tr = before ++ after ∧ machine.run before = some s₀ ∧
    s₀.list.nodes[e]? = some event₀ ∧ ¬ s₀.Half e ∧ event₀.data.length = event.data.length ∧
    sent <+: event₀.bytes ∧ (sent.length < event.byteSize → event.data = event₀.data)

/-- Every `SHOW` under way has sent a part of a snapshot. -/
def ShowInv (tr : List Act) (s : State) : Prop :=
  ∀ t e sent, s.pc t = .showData e sent → sent ≠ [] →
    ∃ event, s.list.nodes[e]? = some event ∧ SeenAt tr e event sent

theorem SeenAt.snoc {tr : List Act} {a : Act} {e : Nat} {event event' : Event}
    {sent : List UInt8} (h : SeenAt tr e event sent) (hlen : event'.data.length = event.data.length)
    (hsize : event'.byteSize = event.byteSize)
    (hdata : sent.length < event.byteSize → event'.data = event.data) :
    SeenAt (tr ++ [a]) e event' sent := by
  obtain ⟨before, after, s₀, event₀, rfl, hrun, he, hhalf, hl, hpre, hsame⟩ := h
  refine ⟨before, after ++ [a], s₀, event₀, by simp, hrun, he, hhalf, by rw [hl, hlen], hpre, ?_⟩
  intro hlt
  rw [hsize] at hlt
  rw [hdata hlt, hsame hlt]

/-- A step of `t` under which every other `SHOW` keeps its snapshot. -/
theorem showInv_goto {tr : List Act} {a : Act} {s s' : State} {t : Tid} {pc : Pc}
    (hi : ShowInv tr s) (hp : s'.pc = Function.update s.pc t pc)
    (hnode : ∀ e event, s.list.nodes[e]? = some event → ∃ event', s'.list.nodes[e]? = some event' ∧
      event'.data.length = event.data.length ∧ event'.byteSize = event.byteSize ∧
      ∀ u sent, s.pc u = .showData e sent → sent ≠ [] → sent.length < event.byteSize →
        event'.data = event.data)
    (hpc : ∀ e sent, pc = .showData e sent → sent ≠ [] →
      ∃ event, s'.list.nodes[e]? = some event ∧ SeenAt (tr ++ [a]) e event sent) :
    ShowInv (tr ++ [a]) s' := by
  intro u e sent hu hne
  rw [hp] at hu
  by_cases hut : u = t
  · subst hut
    rw [Function.update_self] at hu
    exact hpc e sent hu hne
  · rw [Function.update_of_ne hut] at hu
    obtain ⟨event, he, hseen⟩ := hi u e sent hu hne
    obtain ⟨event', he', hlen, hsize, hdata⟩ := hnode e event he
    exact ⟨event', he', hseen.snoc hlen hsize (hdata u sent hu hne)⟩

/-- The event at `e'` changes, the others do not. -/
theorem node_setEvent {s : State} {e : Nat} {event event' : Event}
    (he : s.list.nodes[e]? = some event) (hlen : event'.data.length = event.data.length)
    (hsize : event'.byteSize = event.byteSize)
    (hdata : ∀ u sent, s.pc u = .showData e sent → sent ≠ [] → sent.length < event.byteSize →
      event'.data = event.data) :
    ∀ e₁ event₁, s.list.nodes[e₁]? = some event₁ →
      ∃ event₁', (s.setEvent e event').list.nodes[e₁]? = some event₁' ∧
        event₁'.data.length = event₁.data.length ∧ event₁'.byteSize = event₁.byteSize ∧
        ∀ u sent, s.pc u = .showData e₁ sent → sent ≠ [] → sent.length < event₁.byteSize →
          event₁'.data = event₁.data := by
  intro e₁ event₁ he₁
  by_cases hee : e₁ = e
  · subst hee
    rw [he] at he₁
    cases he₁
    exact ⟨event', getElem?_setEvent_self he, hlen, hsize, hdata⟩
  · exact ⟨event₁, (getElem?_setEvent_of_ne hee).trans he₁, rfl, rfl, fun _ _ _ _ _ => rfl⟩

/-- One more `write()` of an undisturbed matrix. -/
theorem seenAt_write {tr : List Act} {a : Act} {s : State} {e : Nat} {event : Event}
    {sent : List UInt8} (chunk : Nat) (hrun : machine.run tr = some s)
    (he : s.list.nodes[e]? = some event) (hsized : event.Sized) (hhalf : ¬ s.Half e)
    (hn : sent.length < event.byteSize) (hseen : sent ≠ [] → SeenAt tr e event sent) :
    SeenAt (tr ++ [a]) e event
      (sent ++ ((event.bytes.take event.byteSize).drop sent.length).take chunk) := by
  rw [hsized.take_bytes]
  -- a part of the matrix followed by the next bytes of the matrix
  have hjoin : ∀ sent, sent <+: event.bytes →
      sent ++ (event.bytes.drop sent.length).take chunk <+: event.bytes := by
    rintro sent ⟨rest, hrest⟩
    rw [← hrest, List.drop_left]
    exact (List.prefix_append_right_inj sent).mpr (List.take_prefix ..)
  by_cases hne : sent = []
  · subst hne
    exact ⟨tr, [a], s, event, rfl, hrun, he, hhalf, rfl, hjoin [] List.nil_prefix, fun _ => rfl⟩
  · obtain ⟨before, after, s₀, event₀, rfl, hrun₀, he₀, hhalf₀, hlen, hpre, hsame⟩ := hseen hne
    have hbytes : event₀.bytes = event.bytes := by
      unfold Event.bytes
      rw [hsame hn]
    refine ⟨before, after ++ [a], s₀, event₀, by simp, hrun₀, he₀, hhalf₀, hlen, ?_,
      fun _ => hsame hn⟩
    rw [hbytes] at hpre ⊢
    exact hjoin sent hpre

theorem step_showInv {tr : List Act} {s s' : State} {a : Act} (hrun : machine.run tr = some s)
    (hs : Step s a s') (hC : Undisturbed s a) (hsized : SizedInv s) (hi : ShowInv tr s) :
    ShowInv (tr ++ [a]) s' := by
  have hkeep : ∀ e event, s.list.nodes[e]? = some event → ∃ event', s.list.nodes[e]? = some event' ∧
      event'.data.length = event.data.length ∧ event'.byteSize = event.byteSize ∧
      ∀ u sent, s.pc u = .showData e sent → sent ≠ [] → sent.length < event.byteSize →
        event'.data = event.data :=
    fun e event he => ⟨event, he, rfl, rfl, fun _ _ _ _ _ => rfl⟩
  cases hs
  case call t op h =>
    refine showInv_goto hi rfl hkeep fun e sent hpc _ => ?_
    cases op <;> cases hpc
  case createAppend t c id rows cols h =>
    refine showInv_goto hi rfl (fun e event he => ⟨event, ?_, rfl, rfl, fun _ _ _ _ _ => rfl⟩)
      (by simp)
    show (createEvent c.alloc s.list id rows cols).1.nodes[e]? = some event
    rcases createEvent_cases c.alloc s.list id rows cols with hc | hc
    · rw [hc]; exact he
    · rw [hc]; exact (List.getElem?_append_left (List.getElem?_eq_some_iff.mp he).1).trans he
  case reserveAdmit t c q e event h he hq =>
    exact showInv_goto hi rfl (node_setEvent he rfl rfl fun _ _ _ _ _ => rfl) (by simp)
  case reserveStore t c q e r i event h he hlt hin =>
    refine showInv_goto hi rfl (node_setEvent he (List.length_set ..) rfl ?_) (by simp)
    -- a store that changes a cell: nobody is in the middle of sending this event
    intro u sent hu hne hn
    by_contra hdata
    simp only [Undisturbed, h] at hC
    rcases hC event he hlt hdata u sent hu with hnil | hle
    · exact hne hnil
    · exact absurd hn (Nat.not_lt.mpr hle)
  case showHeader t c e h =>
    refine showInv_goto hi rfl hkeep fun e' sent hpc hne => ?_
    cases hpc
    exact absurd rfl hne
  -- one more piece of the matrix as it was at the first one
  case showWrite t c e sent event h he hn hc =>
    refine showInv_goto hi rfl hkeep fun e' sent' hpc _ => ?_
    cases hpc
    simp only [Undisturbed, h] at hC
    refine ⟨event, he, seenAt_write c.chunk hrun he (hsized e event he) (hC event he hn) hn ?_⟩
    intro hne
    obtain ⟨event', he', hseen⟩ := hi t e sent h hne
    rw [he] at he'
    cases he'
    exact hseen
  all_goals exact showInv_goto hi rfl hkeep (by simp)

theorem Snapshot.snoc {tr : List Act} {a : Act} {x : Nat × List UInt8} (h : Snapshot tr x) :
    Snapshot (tr ++ [a]) x := by
  obtain ⟨before, after, s, event, rfl, hrest⟩ := h
  exact ⟨before, after ++ [a], s, event, by simp, hrest⟩

/-- An event without cells is never half reserved. -/
theorem not_half_of_empty {s : State} {e : Nat} {event : Event}
    (he : s.list.nodes[e]? = some event) (hd : event.data = []) : ¬ s.Half e := by
  rintro ⟨t, q, r, i, event', -, he', ⟨j, -, hj⟩, ⟨k, -, hk⟩⟩
  rw [he] at he'
  cases he'
  rw [hd] at hj hk
  exact hk hj

/-- A matrix that was sent to the end is a snapshot. -/
theorem snapshot_sent {tr : List Act} {a : Act} {s : State} {e : Nat} {event : Event}
    {sent : List UInt8} (hrun : machine.run tr = some s) (he : s.list.nodes[e]? = some event)
    (hsized : event.Sized) (hn : event.byteSize ≤ sent.length)
    (hseen : sent ≠ [] → SeenAt tr e event sent) : Snapshot (tr ++ [a]) (e, sent) := by
  rw [hsized.byteSize] at hn
  by_cases hne : sent = []
  · subst hne
    have hd : event.data = [] := List.length_eq_zero_iff.mp (by simpa using hn)
    refine ⟨tr, [a], s, event, rfl, hrun, he, ?_, not_half_of_empty he hd⟩
    unfold Event.bytes
    rw [hd]
    rfl
  · obtain ⟨before, after, s₀, event₀, rfl, hrun₀, he₀, hhalf₀, hlen, hpre, -⟩ := hseen hne
    refine ⟨before, after ++ [a], s₀, event₀, by simp, hrun₀, he₀, ?_, hhalf₀⟩
    exact (hpre.eq_of_length_le (by rw [Event.bytes_length, hlen]; exact hn)).symm

/-- **SHOW sends a snapshot** in every run whose steps let no reservation
overlap a `SHOW` of the same event. -/
theorem show_snapshot {tr : List Act} {s : State} (hC : machine.Meets Undisturbed tr)
    (hrun : machine.run tr = some s) : ∀ x ∈ shown tr, Snapshot tr x := by
  refine (machine.run_invariant_of_meets (C := Undisturbed)
    (I := fun tr s => ShowInv tr s ∧ ∀ x ∈ shown tr, Snapshot tr x) ⟨?_, ?_⟩ ?_ tr s hC hrun).2
  · intro t e sent hpc
    cases hpc
  · intro x hx
    cases hx
  · intro tr s a s' hr ha hi hstep
    refine ⟨step_showInv hr (step_cases hstep) ha (run_sizedInv hr) hi.1, fun x hx => ?_⟩
    unfold shown at hx
    rw [machine.log_snoc _ hr hstep] at hx
    rcases List.mem_append.mp hx with hold | hnew
    · exact (hi.2 x hold).snoc
    -- only the step that ends a `SHOW` adds a matrix
    · cases a with
      | call t op => cases hnew
      | ret t => cases hnew
      | step t c =>
        simp only [sentMatrix] at hnew
        split at hnew
        next e sent hpc =>
          split at hnew
          next event he =>
            split at hnew
            next hn =>
              rw [List.mem_singleton.mp hnew]
              refine snapshot_sent hr he (run_sizedInv hr e event he) hn fun hne => ?_
              obtain ⟨event', he', hseen⟩ := hi.1 t e sent hpc hne
              rw [he] at he'
              cases he'
              exact hseen
            next => cases hnew
          next => cases hnew
        next => cases hnew

/-! ## One session -/

/-- The session an action belongs to. -/
def Act.session : Act → Tid
  | .call t _ => t
  | .step t _ => t
  | .ret t => t

/-- A session that does nothing stays where it was. -/
theorem step_pc_other {s s' : State} {a : Act} {u : Tid} (hs : Step s a s') (h : a.session ≠ u) :
    s'.pc u = s.pc u := by
  cases hs <;> exact Function.update_of_ne (Ne.symm h) ..

/-- None of these sessions stores seats while another one sends a matrix. -/
def apartAmong (sessions : List Tid) (s : State) : Bool :=
  sessions.all fun t => sessions.all fun u =>
    match s.pc t, s.pc u with
    | .reserveStore _ _ _ _, .showData _ _ => false
    | _, _ => true

/-- Apart from each other they disturb nobody. -/
theorem meets_undisturbed (sessions : List Tid) {tr : List Act}
    (hall : ∀ a ∈ tr, a.session ∈ sessions)
    (h : ∀ k < tr.length, (machine.run (tr.take k)).all (apartAmong sessions)) :
    machine.Meets Undisturbed tr := by
  refine machine.meets_of_take fun k hk s hs => ?_
  have htest := h k hk
  rw [hs, Option.all_some] at htest
  have hidle : ∀ u, u ∉ sessions → s.pc u = .idle := fun u hu =>
    machine.run_absent Act.session State.pc
      (fun _ _ _ _ hstep => step_pc_other (step_cases hstep))
      (fun b hb hbu => hu (hbu ▸ hall b (List.mem_of_mem_take hb))) hs
  -- nobody stores while somebody sends
  have hapart : ∀ t u q e r i e' sent, s.pc t = .reserveStore q e r i →
      s.pc u = .showData e' sent → False := by
    intro t u q e r i e' sent ht hu
    by_cases htm : t ∈ sessions
    · by_cases hum : u ∈ sessions
      · have hpair := List.all_eq_true.mp (List.all_eq_true.mp htest t htm) u hum
        rw [ht, hu] at hpair
        cases hpair
      · rw [hidle u hum] at hu
        cases hu
    · rw [hidle t htm] at ht
      cases ht
  cases hact : tr[k] with
  | call t op => trivial
  | ret t => trivial
  | step t c =>
    simp only [Undisturbed]
    split
    next e sent hpc =>
      rintro event - - ⟨u, q, r, i, event', hu, -⟩
      exact hapart u t q e r i e sent hu hpc
    next q e r i hpc =>
      intro event _ _ _ u sent hu
      exact absurd hu fun hu => hapart t u q e r i e sent hpc hu
    next => trivial

/-- Session 1 books the second seat of the 1 × 2 event while session 0 is on its way to
show it, four bytes a `write()`. -/
def showBeside : List Act :=
  let turn (t : Tid) : Act := .step t ⟨Alloc.allOk, 4⟩
  [.call 0 (.create 7 1 2), turn 0, turn 0, turn 0, turn 0, .ret 0,
    .call 1 (.reserve ⟨7, 1, fun _ => 1, fun _ => 2⟩), turn 1,
    .call 0 (.showEvent 7), turn 0, turn 1, turn 0, turn 1, turn 1, turn 1, turn 0, turn 1, turn 1,
    turn 0, turn 0, turn 1, turn 0, turn 0, .ret 1]

theorem show_snapshot_showBeside : Snapshot showBeside (0, [0, 0, 0, 0, 1, 0, 0, 0]) := by
  obtain ⟨s, hs⟩ := Option.isSome_iff_exists.mp
    (show (machine.run showBeside).isSome = true by decide)
  refine show_snapshot (meets_undisturbed [0, 1]
    (by simp [showBeside, Act.session]) (by decide)) hs _ ?_
  have hlog : shown showBeside = [(0, [0, 0, 0, 0, 1, 0, 0, 0])] := by decide
  rw [hlog]
  exact List.mem_singleton_self _

/-! ## A torn matrix -/

/-- Session 1 books both seats of the 1 × 2 event between the two `write()`s of
session 0's `SHOW`. -/
def tornShow : List Act :=
  let turn (t : Tid) : Act := .step t ⟨Alloc.allOk, 4⟩
  [.call 0 (.create 7 1 2), turn 0, turn 0, turn 0, turn 0, .ret 0,
    .call 0 (.showEvent 7), turn 0, turn 0, turn 0, turn 0, turn 0,
    .call 1 (.reserve ⟨7, 2, fun _ => 1, fun i => if i = 0 then 1 else 2⟩),
    turn 1, turn 1, turn 1, turn 1, turn 1, turn 1, turn 1, turn 1, turn 1,
    turn 0, turn 0]

/-- `tornShow` sends a matrix the event never had. -/
theorem show_not_snapshot : ¬ ∀ (tr : List Act) (s : State), (∀ a ∈ tr, a.Sane) →
    machine.run tr = some s → ∀ x ∈ shown tr, Snapshot tr x := by
  intro hall
  obtain ⟨s, hs⟩ := Option.isSome_iff_exists.mp
    (show (machine.run tornShow).isSome = true by decide)
  have hlog : shown tornShow = [(0, [0, 0, 0, 0, 1, 0, 0, 0])] := by decide
  obtain ⟨before, after, s₀, event, htr, hrun, he, hbytes, -⟩ :=
    hall tornShow s (by simp [tornShow, Act.Sane]) hs (0, [0, 0, 0, 0, 1, 0, 0, 0])
      (by rw [hlog]; exact List.mem_singleton_self _)
  have hnever : ∀ k ∈ List.range 25, ((machine.run (tornShow.take k)).bind
      fun s => s.list.nodes[0]?).map Event.bytes ≠ some [0, 0, 0, 0, 1, 0, 0, 0] := by decide
  have hlen : before.length < 25 := by
    have := congrArg List.length htr
    rw [List.length_append, show tornShow.length = 24 from rfl] at this
    omega
  refine hnever before.length (List.mem_range.mpr hlen) ?_
  rw [htr, List.take_left, hrun, Option.bind_some, he, Option.map_some, hbytes]

end Ems.Server
