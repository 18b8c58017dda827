import Ems.Server.Created
import Ems.Server.Linear
import Ems.Server.Snapshot

/-!
# Where an operation takes effect

For every operation on its way: the reply that is fixed already (`Pc.reply`), the operation
it belongs to (`Pc.Serves`), and what one step does to the store with all storing loops run
to their ends (`own_point`). `CREATE`, `RESERVE` and `LIST` take effect at the points of
`Linear.lean`. A `SHOW` takes its effect when it has sent its matrix (`exec_show`), and that
is no snapshot if a `RESERVE` of the event stores its seats meanwhile; `SentInv` is about the
runs in which no step does so (`Apart`).
-/

namespace Ems.Server

open Conc

/-- The reply of an operation that has taken effect. -/
def Pc.reply : Pc → Option Reply
  | .createUnlock ret => some (.status ret)
  | .reserveUnlist _ none => some (.status 1)
  | .reserveStore _ _ _ _ => some (.status 0)
  | .reserveRelease _ _ ret => some (.status ret)
  | .showUnlist none => some (.matrix 0 0 [] 1)
  | .showHeader none => some (.matrix 0 0 [] 1)
  | .listUnlock num ids => some (.listing num ids 0)
  | .done reply => some reply
  | _ => none

/-- The place is one of the operation, and what a `SHOW` has found is still there. -/
def Pc.Serves (list : EventList) (op : Op) : Pc → Prop
  | .showLock id => op = .showEvent id
  | .showLookup id => op = .showEvent id
  | .showUnlist (some e) => ∃ id, op = .showEvent id ∧ getEvent list id = some e
  | .showHeader (some e) => ∃ id, op = .showEvent id ∧ getEvent list id = some e
  | .showData e _ => ∃ id, op = .showEvent id ∧ getEvent list id = some e
  | pc => ∀ op', pc.status = .before op' → op' = op

/-- No `SHOW` of an event sends while a `RESERVE` of it stores its seats. -/
def Apart (s : State) : Act → Prop
  | .step t _ =>
    match s.pc t with
    | .showData e _ => ∀ u q r i, s.pc u ≠ .reserveStore q e r i
    | .reserveCheck _ e => ∀ u sent, s.pc u = .showData e sent → sent = []
    | _ => True
  | _ => True

/-- What a `SHOW` has sent is the beginning of the matrix, and nobody is changing that. -/
def SentInv (s : State) : Prop :=
  ∀ t e sent event, s.pc t = .showData e sent → s.list.nodes[e]? = some event →
    sent = event.bytes.take sent.length ∧
      (sent ≠ [] → ∀ u q r i, s.pc u ≠ .reserveStore q e r i)

section Places

variable {pc : Pc} {op : Op} {reply : Reply} {list list' : EventList}

theorem Pc.reply_of_after (h : pc.status = .after reply) : pc.reply = some reply := by
  cases pc
  case reserveUnlist q e => cases e <;> cases h; rfl
  case done r => cases r <;> cases h <;> rfl
  all_goals first | (cases h; done) | (cases h; rfl)

theorem Pc.reply_of_before (h : pc.status = .before op) : pc.reply = none := by
  cases pc
  case reserveUnlist q e => cases e <;> cases h; rfl
  case done r => cases r <;> cases h
  all_goals first | (cases h; done) | (cases h; rfl)

theorem Pc.serves_of_status (h : pc.status ≠ .idle) :
    pc.Serves list op ↔ ∀ op', pc.status = .before op' → op' = op := by
  cases pc
  case showUnlist e => cases e <;> exact absurd rfl h
  case showHeader e => cases e <;> exact absurd rfl h
  all_goals first | exact Iff.rfl | exact absurd rfl h

theorem Pc.Serves.mono (h : pc.Serves list op)
    (hl : ∀ id e, getEvent list id = some e → getEvent list' id = some e) :
    pc.Serves list' op := by
  have hfound : ∀ {e : Nat}, (∃ id, op = .showEvent id ∧ getEvent list id = some e) →
      ∃ id, op = .showEvent id ∧ getEvent list' id = some e := by
    rintro e ⟨id, hop, hg⟩
    exact ⟨id, hop, hl id e hg⟩
  cases pc
  case showUnlist e =>
    cases e with
    | none => exact h
    | some e => exact hfound h
  case showHeader e =>
    cases e with
    | none => exact h
    | some e => exact hfound h
  case showData e sent => exact hfound h
  all_goals exact h

theorem Op.entry_serves (op : Op) (list : EventList) : op.entry.Serves list op := by
  cases op with
  | showEvent id => rfl
  | _ => exact fun op' h => by cases h; rfl

theorem Op.entry_reply (op : Op) : op.entry.reply = none := by cases op <;> rfl

end Places

section Steps

variable {s s' : State} {a : Act}

/-- An event that is there is found again. -/
theorem getEvent_step (hs : Step s a s') {id : UInt32} {e : Nat}
    (hg : getEvent s.list id = some e) : getEvent s'.list id = some e := by
  cases hs
  case createAppend t c id' rows cols h =>
    show getEvent (createEvent c.alloc s.list id' rows cols).1 id = some e
    rcases createEvent_cases c.alloc s.list id' rows cols with hc | hc
    · rw [hc]; exact hg
    · rw [hc]; exact getEvent_append hg
  case reserveAdmit t c q e' event h he hq =>
    exact (getEvent_setEvent (bumpReservations event) he rfl id).trans hg
  case reserveStore t c q e' r i event h he hi hin =>
    exact (getEvent_setEvent (storeSeat event q r i) he rfl id).trans hg
  all_goals exact hg

/-- A step to a place where nothing has been sent, which stores nothing in an event that
somebody is sending. -/
theorem sentInv_goto {t : Tid} {pc : Pc} (hi : SentInv s) (ht : TargetInv s)
    (hl : ∀ e event', s'.list.nodes[e]? = some event' → e < s.list.nodes.length →
      (∃ event, s.list.nodes[e]? = some event ∧ event.bytes = event'.bytes) ∨
        ∃ u q r i, s.pc u = .reserveStore q e r i)
    (hp : s'.pc = Function.update s.pc t pc) (hshow : ∀ e sent, pc = .showData e sent → sent = [])
    (hstore : ∀ q e r i, pc = .reserveStore q e r i →
      ∀ u sent, s.pc u = .showData e sent → sent = []) : SentInv s' := by
  intro u e sent event' hu he'
  rw [hp] at hu
  have hempty : sent = [] → sent = event'.bytes.take sent.length ∧
      (sent ≠ [] → ∀ w q r i, s'.pc w ≠ .reserveStore q e r i) := by
    rintro rfl
    exact ⟨rfl, fun h => absurd rfl h⟩
  by_cases hut : u = t
  · subst hut
    rw [Function.update_self] at hu
    exact hempty (hshow e sent hu)
  rw [Function.update_of_ne hut] at hu
  have hlt := ht u e (by rw [hu]; rfl)
  rcases hl e event' he' hlt with ⟨event, he, hbytes⟩ | ⟨w, q, r, i, hw⟩
  · obtain ⟨hsent, hnone⟩ := hi u e sent event hu he
    rw [hbytes] at hsent
    refine ⟨hsent, fun hne w q r i hw => ?_⟩
    rw [hp] at hw
    by_cases hwt : w = t
    · subst hwt
      rw [Function.update_self] at hw
      exact hne (hstore q e r i hw u sent hu)
    · rw [Function.update_of_ne hwt] at hw
      exact hnone hne w q r i hw
  · -- the event is being changed, so nothing has been sent of it
    refine hempty ?_
    by_contra hne
    exact (hi u e sent _ hu (List.getElem?_eq_getElem hlt)).2 hne w q r i hw

theorem step_sentInv (hs : Step s a s') (ha : Apart s a) (hsized : SizedInv s) (ht : TargetInv s)
    (hi : SentInv s) : SentInv s' := by
  have hsame : ∀ e event', s.list.nodes[e]? = some event' → e < s.list.nodes.length →
      (∃ event, s.list.nodes[e]? = some event ∧ event.bytes = event'.bytes) ∨
        ∃ u q r i, s.pc u = .reserveStore q e r i :=
    fun _ event' he' _ => .inl ⟨event', he', rfl⟩
  cases hs
  case call t op h =>
    exact sentInv_goto hi ht hsame rfl (fun _ _ h => by cases op <;> cases h)
      (fun _ _ _ _ h => by cases op <;> cases h)
  case createAppend t c id rows cols h =>
    refine sentInv_goto hi ht (fun e event' he' hlt => .inl ⟨event', ?_, rfl⟩) rfl nofun nofun
    change (createEvent c.alloc s.list id rows cols).1.nodes[e]? = some event' at he'
    rcases createEvent_cases c.alloc s.list id rows cols with hc | hc
    · rwa [hc] at he'
    · rw [hc] at he'
      exact (List.getElem?_append_left hlt).symm.trans he'
  case reserveAdmit t c q e event h he hq =>
    refine sentInv_goto hi ht (fun e' event' he' hlt => .inl ?_) rfl nofun ?_
    · change (s.list.nodes.set e _)[e']? = some event' at he'
      by_cases hee : e = e'
      · subst hee
        rw [List.getElem?_set_self hlt] at he'
        cases he'
        exact ⟨event, he, rfl⟩
      · rw [List.getElem?_set_ne hee] at he'
        exact ⟨event', he', rfl⟩
    · intro q' e' r i hpc u sent hu
      cases hpc
      simp only [Apart, h] at ha
      exact ha u sent hu
  case reserveStore t c q e r i event h he hlt hin =>
    refine sentInv_goto hi ht (fun e' event' he' _ => ?_) rfl nofun ?_
    · change (s.list.nodes.set e _)[e']? = some event' at he'
      by_cases hee : e = e'
      · subst hee
        exact .inr ⟨t, q, r, i, h⟩
      · rw [List.getElem?_set_ne hee] at he'
        exact .inl ⟨event', he', rfl⟩
    · intro q' e' r' i' hpc u sent hu
      cases hpc
      by_contra hne
      exact (hi u e sent event hu he).2 hne t q r i h
  case showHeader t c e h =>
    refine sentInv_goto hi ht hsame rfl (fun e' sent hpc => ?_) nofun
    cases hpc
    rfl
  case showWrite t c e sent event h he hn hc =>
    intro u e' sent' event' hu he'
    simp only [Apart, h] at ha
    have hnobody : ∀ w q r i, (s.goto t (.showData e (sent ++
        ((event.bytes.take event.byteSize).drop sent.length).take c.chunk))).pc w =
          .reserveStore q e' r i → s.pc w = .reserveStore q e' r i := by
      intro w q r i hw
      by_cases hwt : w = t
      · subst hwt
        rw [goto_self] at hw
        cases hw
      · rwa [goto_other hwt] at hw
    by_cases hut : u = t
    · subst hut
      rw [goto_self] at hu
      cases hu
      rw [goto_list, he] at he'
      cases he'
      obtain ⟨hsent, -⟩ := hi u e sent event h he
      refine ⟨?_, fun _ w q r i hw => ha w q r i (hnobody w q r i hw)⟩
      -- one more piece of the same bytes
      rw [(hsized e event he).take_bytes]
      have hpiece : sent ++ (event.bytes.drop sent.length).take c.chunk =
          event.bytes.take (sent.length + c.chunk) := by
        rw [List.take_add]
        exact congrArg (· ++ _) hsent
      rw [hpiece, List.length_take, List.take_eq_take_iff]
      omega
    · rw [goto_other hut] at hu
      obtain ⟨hsent, hnone⟩ := hi u e' sent' event' hu he'
      exact ⟨hsent, fun hne w q r i hw => hnone hne w q r i (hnobody w q r i hw)⟩
  all_goals exact sentInv_goto hi ht hsame rfl nofun nofun

end Steps

/-- With nobody storing seats, an event is as it will be when all operations have returned. -/
theorem finish_of_apart {s : State} {e : Nat} (h : ∀ u q r i, s.pc u ≠ .reserveStore q e r i)
    (hm : MutexInv s) (event : Event) : s.finish e event = event := by
  unfold State.finish State.inside
  cases hown : s.mutex e with
  | none => rfl
  | some t =>
    have hin := (hm e t).mp hown
    show (s.pc t).finish event = event
    cases hp : s.pc t
    case reserveStore q e' r i =>
      rw [hp] at hin
      cases hin
      exact absurd hp (h t q r i)
    all_goals rfl

/-! ## One step of an operation -/

/-- One step inside an operation leads to a place of the same operation. -/
theorem serves_step {v v' : State} {t : Tid} {c : Choice} {op : Op}
    (hs : Step v (.step t c) v') (hg : (Act.step t c).Granted) (hm : MutexInv v)
    (haim : AimInv v) (hseen : SeenInv v) (h : (v.pc t).Serves v.list op) :
    (v'.pc t).Serves v'.list op := by
  by_cases hidle : (v.pc t).status = .idle
  · -- in `ems_show`
    cases hs
    case showLock id l hp hl =>
      rw [hp] at h
      rw [goto_self]
      exact h
    case showLookup id hp =>
      rw [hp] at h
      rw [goto_self]
      cases hg : getEvent v.list id with
      | none => exact fun op' h => by cases h
      | some e => exact ⟨id, h, hg⟩
    case showUnlist event hp =>
      rw [hp] at h
      rw [goto_self]
      cases event with
      | none => exact fun op' h => by cases h
      | some e => exact h
    case showMissing hp =>
      rw [goto_self]
      exact fun op' h => by cases h
    case showHeader e hp =>
      rw [hp] at h
      rw [goto_self]
      exact h
    case showWrite e sent event he hn hp hc =>
      rw [hp] at h
      rw [goto_self]
      exact h
    case showSent e sent event hp he hn =>
      rw [goto_self]
      exact fun op' h => by cases h
    all_goals simp_all [Pc.status]
  · rw [Pc.serves_of_status hidle] at h
    have hsame : (v'.pc t).status = (v.pc t).status →
        (v'.pc t).Serves v'.list op := fun hstatus =>
      (Pc.serves_of_status (by rw [hstatus]; exact hidle)).mpr fun op' hop =>
        h op' (hstatus.symm.trans hop)
    rcases step_point hs hg rfl hm haim hseen with ⟨hstatus, -⟩ | ⟨u, opu, -, hafter, -⟩
    · exact hsame (congrFun hstatus t)
    · have hnow := congrFun hafter t
      by_cases hut : t = u
      · subst hut
        rw [Function.update_self] at hnow
        change (v'.pc t).status = _ at hnow
        refine (Pc.serves_of_status (by rw [hnow]; simp)).mpr fun op' hop => ?_
        cases hnow.symm.trans hop
      · rw [Function.update_of_ne hut] at hnow
        exact hsame hnow

/-- A step of a session keeps what the others have asked for. -/
theorem serves_other {v v' : State} {b : Act} {u : Tid} {op : Op}
    (hs : Step v b v') (hu : b.session ≠ u) (h : (v.pc u).Serves v.list op) :
    (v'.pc u).Serves v'.list op := by
  rw [step_pc_other hs hu]
  exact h.mono fun id e => getEvent_step hs

/-- A point is one of the session that moves. -/
theorem own_point {v v' : State} {t : Tid} {c : Choice}
    (hs : Step v (.step t c) v') (hg : (Act.step t c).Granted) (hm : MutexInv v)
    (haim : AimInv v) (hseen : SeenInv v) :
    ((v'.pc t).status = (v.pc t).status ∧ v'.settled = v.settled) ∨
      ∃ op, (v.pc t).status = .before op ∧ (v'.pc t).status = .after (op.exec v.settled).1 ∧
        v'.settled = (op.exec v.settled).2 := by
  rcases step_point hs hg rfl hm haim hseen with ⟨hsame, hsettled⟩ | ⟨u, op, hb, ha, hsettled⟩
  · exact .inl ⟨congrFun hsame t, hsettled⟩
  · have hnow := congrFun ha u
    rw [Function.update_self] at hnow
    by_cases hut : u = t
    · subst hut
      exact .inr ⟨op, hb, hnow, hsettled⟩
    · -- another session has not moved
      have hsame : v'.status u = v.status u := congrArg Pc.status (step_pc_other hs (Ne.symm hut))
      cases (hnow.symm.trans hsame).trans hb

/-- What a `SHOW` sends of an event that is there. -/
theorem exec_show {v : State} {id : UInt32} {e : Nat} {event : Event}
    (hg : getEvent v.list id = some e) (he : v.list.nodes[e]? = some event)
    (hfinish : v.finish e event = event) :
    (Op.showEvent id).exec v.settled =
      (.matrix event.rows event.cols (event.bytes.take event.byteSize) 0, v.settled) := by
  have hfound : ((getEvent v.settled id).bind fun e => v.settled.nodes[e]?) = some event := by
    rw [settled_getEvent, hg, Option.bind_some, settled_getElem?, he, Option.map_some, hfinish]
  show (emsShow v.settled id, v.settled) = _
  unfold emsShow
  rw [hfound]

/-- Calling and returning change nothing. -/
theorem settled_call {v v' : State} {t : Tid} {op : Op}
    (h : Step v (.call t op) v') : v'.settled = v.settled := by
  cases h with
  | call hp => exact settled_goto rfl rfl rfl (by rw [hp]; cases op <;> exact fun _ => rfl)

theorem settled_ret {v v' : State} {t : Tid} (h : Step v (.ret t) v') :
    v'.settled = v.settled := by
  cases h with
  | ret hp => exact settled_goto rfl rfl rfl (by rw [hp]; exact fun _ => rfl)

end Ems.Server
