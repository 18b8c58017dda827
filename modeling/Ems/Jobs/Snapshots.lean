import Ems.Jobs.Printed

/-!
# What the calls print together

Whatever the other threads do, what a call reads agrees with the list as it was when the
call took its lock: events are added only under `eventList_Lock` and seats are stored only
under `seat_Lock`, each taken for writing. So every call writes the beginning of the text
of a list that was there while it was under way (`run_watched`).
-/

namespace Ems.Jobs.Programs

open Conc Conc.Program

/-- What an action has put into the file. -/
def piece : (x : (e : Action) × Answer e) → List Char
  | ⟨.write text, some i⟩ => text.take (i + 1)
  | _ => []

/-! ## What the actions do to the list -/

section Effects

variable {x : Choice} {e : Action} {s s' : Store} {r : Answer e}

/-- Only what is written changes the file. -/
theorem Answers.file (h : Answers x e s r s') : s'.file = s.file ++ piece ⟨e, r⟩ := by
  cases h
  case write => rfl
  all_goals exact (List.append_nil _).symm

/-- A new value of one event. -/
theorem grows_set {list : EventList} {k : Nat} {event event' : Event} (hk : list[k]? = some event)
    (hs : event'.shape = event.shape) : Grows list (list.set k event') := by
  have hsame : (list.map Event.shape)[k]? = some event'.shape := by
    rw [List.getElem?_map, hk, hs]
    rfl
  unfold Grows
  rw [List.map_set, Server.set_same hsame]

theorem Answers.grows (h : Answers x e s r s') : Grows s.list s'.list := by
  cases h
  case append =>
    unfold Grows appendToList
    rw [List.map_append]
    exact List.prefix_append ..
  case bump he => exact grows_set he rfl
  case undo he => exact grows_set he rfl
  case writeSeat _ he => exact grows_set he rfl
  all_goals exact Grows.refl _

theorem Answers.length_eq (h : Answers x e s r s') (hno : ∀ event, e ≠ .append event) :
    s'.list.length = s.list.length := by
  cases h
  case append => exact absurd rfl (hno _)
  case bump => exact List.length_set
  case undo => exact List.length_set
  case writeSeat => exact List.length_set
  all_goals rfl

/-- A new value of one event with the same seats. -/
theorem data_set {list : EventList} {k k' : Nat} {old new event : Event} (hk : list[k]? = some old)
    (hs : new.data = old.data) (hk' : list[k']? = some event) :
    ∃ event', (list.set k new)[k']? = some event' ∧ event'.data = event.data := by
  by_cases hkk : k' = k
  · subst hkk
    rw [hk] at hk'
    cases hk'
    exact ⟨new, List.getElem?_set_self (List.getElem?_eq_some_iff.mp hk).1, hs⟩
  · exact ⟨event, by rw [List.getElem?_set_ne (Ne.symm hkk), hk'], rfl⟩

theorem Answers.data_eq (h : Answers x e s r s') (hno : ∀ k i v, e ≠ .writeSeat k i v) {k : Nat}
    {event : Event} (hk : s.list[k]? = some event) :
    ∃ event', s'.list[k]? = some event' ∧ event'.data = event.data := by
  cases h
  case append =>
    have hlt := (List.getElem?_eq_some_iff.mp hk).1
    exact ⟨event, (List.getElem?_append_left hlt).trans hk, rfl⟩
  case bump he => exact data_set he rfl hk
  case undo he => exact data_set he rfl hk
  case writeSeat => exact absurd rfl (hno _ _ _)
  all_goals exact ⟨event, hk, rfl⟩

end Effects

/-! ## The list a call has seen -/

/-- What a call has seen agrees with the list that is there now, as far as it holds the
locks of it. -/
structure Agrees (m : Watch) (list : EventList) : Prop where
  grows : Grows m.list list
  ids : m.held .list = some .read → list.length = m.list.length
  seats : m.held .seat = some .read → ∀ (k : Nat) (event : Event), m.list[k]? = some event →
    ∃ event', list[k]? = some event' ∧ event'.data = event.data

section Agrees

variable {m : Watch} {x : Choice} {e : Action} {s s' : Store} {r : Answer e} {faults : Prop}
  {c : Op} {Q : Answer e → Watch → Prop}

theorem Agrees.answer (h : Agrees m s.list) (ha : Answers x e s r s')
    (happend : ∀ event, e = .append event → m.held .list ≠ some .read)
    (hstore : ∀ k i v, e = .writeSeat k i v → m.held .seat ≠ some .read) : Agrees m s'.list where
  grows := h.grows.trans ha.grows
  ids hr := by
    rw [ha.length_eq fun event he => happend event he hr]
    exact h.ids hr
  seats hr k event hk := by
    obtain ⟨event', hk', hd⟩ := h.seats hr k event hk
    obtain ⟨event'', hk'', hd'⟩ := ha.data_eq (fun k i v he => hstore k i v he hr) hk'
    exact ⟨event'', hk'', hd'.trans hd⟩

/-- The action is a failure that `prints` does not expect. -/
def Faulty (x : Choice) (file : Option Mode) : Action → Prop
  | .snprintf => x.ok = false ∧ file ≠ none
  | .write _ => x.ok = false
  | _ => False

/-- The answer an action gets is one of those that `prints` expects. -/
theorem prints_answer (h : Agrees m s.list) (ha : Answers x e s r s')
    (hok : ¬ faults → ¬ Faulty x (m.held .file) e) (hwp : printsAct faults c m e Q) :
    Q r { m with written := m.written ++ piece ⟨e, r⟩ } := by
  have hsame : { m with written := m.written ++ [] } = m := by rw [List.append_nil]
  cases ha
  -- only a write adds to the text; every other answer leaves the record as it was
  case write => exact hwp.2.2.2.1 _
  all_goals
    show Q _ { m with written := m.written ++ [] }
    rw [hsame]
  case initialized => exact hwp _
  -- what the list was then has the ids that it has now
  case lookup =>
    obtain ⟨hr, hQ⟩ := hwp
    rw [getEvent_shape, h.grows.map_eq (h.ids hr), ← getEvent_shape]
    exact hQ
  case load event he =>
    obtain ⟨base, hbase, hQ⟩ := hwp
    obtain ⟨event', he', hs⟩ := h.grows.getElem? hbase
    rw [he] at he'
    cases he'
    exact hQ event hs
  case malloc => exact hwp _
  case append => exact hwp.2 _
  case appendFails => exact hwp.2 _
  case bump => exact hwp _
  case undo => exact hwp
  case readSeat event seat hi he =>
    refine hwp seat fun hr base hbase => ?_
    obtain ⟨event', he', hd⟩ := h.seats hr _ base hbase
    rw [he] at he'
    cases he'
    rw [← hd]
    exact hi
  case writeSeat => exact hwp.2
  case nodes =>
    obtain ⟨hr, hQ⟩ := hwp
    rw [h.ids hr]
    exact hQ
  case nodeId i event he =>
    obtain ⟨hr, hQ⟩ := hwp
    have hlt : i < m.list.length := by
      rw [← h.ids hr]
      exact (List.getElem?_eq_some_iff.mp he).1
    obtain ⟨event', he', hs⟩ := h.grows.getElem? (List.getElem?_eq_getElem hlt)
    rw [he] at he'
    cases he'
    have hid : event.id = (m.list[i]).id := congrArg (·.1) hs
    rw [hid]
    exact hQ _ (List.getElem?_eq_getElem hlt)
  -- a failure is expected only where faults are, or without the file lock
  case snprintf =>
    cases hx : x.ok with
    | true => exact hwp.1
    | false =>
      refine hwp.2 ?_
      by_cases hf : faults
      · exact .inl hf
      · exact .inr (not_not.mp fun hfile => hok hf ⟨hx, hfile⟩)
  case writeFails hx => exact hwp.2.2.2.2 (not_not.mp fun hf => hok hf hx)

/-- What `prints` asks of the locks. -/
theorem printsAct_needs (hwp : printsAct faults c m e Q) :
    (∀ event, e = .append event → m.held .list = some .write) ∧
    (∀ k i v, e = .writeSeat k i v → m.held .seat = some .write) ∧
    (∀ text, e = .write text → m.held .file ≠ none ∧ m.reader = some (c.source, .read) ∧
      m.written ++ text <+: c.text m.list) := by
  refine ⟨?_, ?_, ?_⟩
  · rintro event rfl
    exact hwp.1
  · rintro k i v rfl
    exact hwp.1
  · rintro text rfl
    exact ⟨hwp.1, hwp.2.1, hwp.2.2.1⟩

end Agrees

/-! ## All calls -/

variable {T : Type} [DecidableEq T]

/-- What call number `n` has written in a run. -/
def written (tr : List (Crew.Act T Op Choice)) (n : Nat) : List Char :=
  (Crew.history system ⟨createList, []⟩ tr n).flatMap piece

/-- What a step shows: the number of a call that gives back the file. -/
def closes (s : State T) : Crew.Act T Op Choice → List Nat
  | .step t _ =>
    match s.thread t with
    | some ⟨n, _, .unlock .file _⟩ => [n]
    | _ => []
  | _ => []

/-- The calls that have given back the file, in this order. -/
def closed (tr : List (Crew.Act T Op Choice)) : List Nat := (machine T).log closes tr

/-- The calls that have returned: number, call and result. -/
def returns (tr : List (Crew.Act T Op Choice)) : List (Nat × Op × Nat) :=
  Crew.returns system ⟨createList, []⟩ tr

/-- The list was there while the call was under way and held the lock `reader`. -/
def Seen (tr : List (Crew.Act T Op Choice)) (n : Nat) (c : Op) (reader : Option (Lock × Mode))
    (list : EventList) : Prop :=
  ∃ before after s t p, tr = before ++ after ∧ (machine T).run before = some s ∧
    s.thread t = some ⟨n, c, p⟩ ∧ s.store.list = list ∧
    ∀ l mode, reader = some (l, mode) → s.held t l = some mode

/-- A `write` or, behind a flush, a `snprintf` fails. -/
def Fails (s : State T) : Crew.Act T Op Choice → Prop
  | .step t x => ∃ n c e next, s.thread t = some ⟨n, c, .act e next⟩ ∧ Faulty x (s.held t .file) e
  | _ => False

/-- A call under way. -/
structure Under (faults : Prop) (tr : List (Crew.Act T Op Choice)) (s : State T) (t : T)
    (r : Running Lock Action Answer Nat Op) (m : Watch) : Prop where
  rest : r.rest.wp (prints faults r.call) (Printed faults r.call) m
  held : m.held = s.held t
  agrees : Agrees m s.store.list
  seen : Seen tr r.no r.call m.reader m.list
  written : m.written = written tr r.no
  early : m.reader ≠ some (r.call.source, .read) → m.written = []
  text : m.written <+: r.call.text m.list
  ended : m.ended = true ↔ r.no ∈ closed tr
  file : m.held .file = none ∨ m.held .file = some .write ∧ m.ended = false

/-- All calls. -/
structure Watched (faults : Prop) (tr : List (Crew.Act T Op Choice)) (s : State T) : Prop where
  idle : ∀ t, s.thread t = none → ∃ f, s.held t = locks none none none f ∧ f ≠ some .read ∧
    (¬ faults → f = none)
  under : ∀ t r, s.thread t = some r → ∃ m, Under faults tr s t r m
  fresh : ∀ n ∈ closed tr, n < s.calls
  ended : ∀ x ∈ returns tr, ∃ reader list, Seen tr x.1 x.2.1 reader list ∧
    (reader ≠ some (x.2.1.source, .read) → written tr x.1 = []) ∧
    written tr x.1 <+: x.2.1.text list ∧
    (x.2.1.prints = true → x.2.2 = 0 → written tr x.1 = x.2.1.text list ∧
      x.2.1.Readable list ∧ reader = some (x.2.1.source, .read)) ∧
    (¬ faults → (x.1 ∈ closed tr ↔ x.2.1.prints = true ∧ x.2.2 = 0))

section Steps

variable {faults : Prop} {tr : List (Crew.Act T Op Choice)} {s s' : State T}
  {a : Crew.Act T Op Choice} {t : T} {r : Running Lock Action Answer Nat Op} {m : Watch}

theorem Seen.snoc {n : Nat} {c : Op} {reader : Option (Lock × Mode)} {list : EventList}
    (h : Seen tr n c reader list) : Seen (tr ++ [a]) n c reader list := by
  obtain ⟨before, after, s, t, p, rfl, hrest⟩ := h
  exact ⟨before, after ++ [a], s, t, p, List.append_assoc .., hrest⟩

theorem closed_snoc (hrun : (machine T).run tr = some s) (h : Crew.step system s a = some s') :
    closed (tr ++ [a]) = closed tr ++ closes s a := (machine T).log_snoc _ hrun h

omit [DecidableEq T] in
/-- Who gives back the file is the call of the thread. -/
theorem closes_no {n : Nat} (hn : n ∈ closes s a) : ∃ r, s.thread a.who = some r ∧ r.no = n := by
  cases a with
  | step t x =>
    simp only [closes] at hn
    split at hn
    next ht => exact ⟨_, ht, (List.mem_singleton.mp hn).symm⟩
    next => exact absurd hn List.not_mem_nil
  | _ => exact absurd hn List.not_mem_nil

/-- What any other call has written stays as it is. -/
theorem written_other (hrun : (machine T).run tr = some s)
    (h : Crew.step system s a = some s') {n : Nat}
    (hn : ∀ r, s.thread a.who = some r → r.no ≠ n) : written (tr ++ [a]) n = written tr n := by
  unfold written
  rw [Crew.history_other hrun h hn]

theorem closed_other (hrun : (machine T).run tr = some s)
    (h : Crew.step system s a = some s') {n : Nat}
    (hn : ∀ r, s.thread a.who = some r → r.no ≠ n) : n ∈ closed (tr ++ [a]) ↔ n ∈ closed tr := by
  rw [closed_snoc hrun h, List.mem_append, or_iff_left]
  intro hmem
  obtain ⟨r, hr, hno⟩ := closes_no hmem
  exact hn r hr hno

/-- A step of another thread. -/
theorem Under.other (hrun : (machine T).run tr = some s) (h : Crew.step system s a = some s')
    (hu : t ≠ a.who) (ht : s.thread t = some r) (hi : Under faults tr s t r m)
    (hagrees : Agrees m s'.store.list) : Under faults (tr ++ [a]) s' t r m := by
  have hno : ∀ r', s.thread a.who = some r' → r'.no ≠ r.no := fun r' hr' heq =>
    hu ((Crew.run_numbered hrun).distinct _ _ _ _ hr' ht heq).symm
  exact ⟨hi.rest, hi.held.trans ((Crew.step_cases h).held_other hu).symm, hagrees, hi.seen.snoc,
    hi.written.trans (written_other hrun h hno).symm, hi.early, hi.text,
    hi.ended.trans (closed_other hrun h hno).symm, hi.file⟩

/-- The state is there, with the call under way. -/
theorem seen_now (hrun : (machine T).run tr = some s) (h : Crew.step system s a = some s')
    {n : Nat} {c : Op} {p : Code Nat} (reader : Option (Lock × Mode))
    (ht : s'.thread t = some ⟨n, c, p⟩)
    (hheld : ∀ l mode, reader = some (l, mode) → s'.held t l = some mode) :
    Seen (tr ++ [a]) n c reader s'.store.list :=
  ⟨tr ++ [a], [], s', t, p, (List.append_nil _).symm, (machine T).run_snoc.mpr ⟨s, hrun, h⟩, ht,
    rfl, hheld⟩

/-- A lock call. -/
theorem under_lock {n : Nat} {c : Op} {l : Lock} {mode : Mode} {next : Code Nat} {k : RwLock T}
    {x : Choice} (hrun : (machine T).run tr = some s)
    (h : Crew.step system s (.step t x) = some s')
    (hs' : s' = { s with lock := Function.update s.lock l k }.goto t (some ⟨n, c, next⟩))
    (ht : s.thread t = some ⟨n, c, .lock l mode next⟩) (hk : (s.lock l).take t mode = some k)
    (hi : Under faults tr s t ⟨n, c, .lock l mode next⟩ m) :
    ∃ m', Under faults (tr ++ [.step t x]) s' t ⟨n, c, next⟩ m' := by
  have hheld : s'.held t = Function.update m.held l (some mode) := by
    rw [hs', Crew.held_lock hk, hi.held]
  have hstore : s'.store = s.store := by rw [hs']; rfl
  have hwritten : written (tr ++ [.step t x]) n = written tr n := by
    unfold written
    rw [Crew.history_snoc hrun h]
    simp only [Crew.answered, ht, List.filterMap_nil, List.append_nil]
  have hclosed : closed (tr ++ [.step t x]) = closed tr := by
    rw [closed_snoc hrun h]
    simp only [closes, ht, List.append_nil]
  have hrest := hi.rest
  have hover := hi.ended
  rw [← hclosed] at hover
  -- from now on it reads the list that is there now
  have hread : m.written = [] → next.wp (prints faults c) (Printed faults c)
      { m with held := Function.update m.held l (some mode), list := s.store.list,
               reader := some (l, mode) } → l ≠ .file →
      ∃ m', Under faults (tr ++ [.step t x]) s' t ⟨n, c, next⟩ m' := by
    intro hempty hQ hl
    have hnow := seen_now hrun h (t := t) (n := n) (c := c) (p := next) (some (l, mode))
      (by rw [hs', Crew.goto_self]) (by
        rintro _ _ ⟨⟩
        rw [hheld, Function.update_self])
    rw [hstore] at hnow
    refine ⟨_, hQ, hheld.symm, ?_, hnow, hi.written.trans hwritten.symm, fun _ => hempty, ?_, hover,
      ?_⟩
    · rw [hstore]
      exact ⟨Grows.refl _, fun _ => rfl, fun _ _ event he => ⟨event, he, rfl⟩⟩
    · show m.written <+: _
      rw [hempty]
      exact List.nil_prefix
    · simp only [Function.update_of_ne (Ne.symm hl)]
      exact hi.file
  cases l with
  | list => exact hread hrest.1 (hrest.2.2 s.store.list hi.agrees.grows) (by simp)
  | seat => exact hread hrest.1 (hrest.2.2 s.store.list hi.agrees.grows) (by simp)
  | event =>
    refine ⟨_, hrest, hheld.symm, ?_, hi.seen.snoc, hi.written.trans hwritten.symm, hi.early,
      hi.text, hover, hi.file⟩
    rw [hstore]
    exact ⟨hi.agrees.grows, hi.agrees.ids, hi.agrees.seats⟩
  | file =>
    obtain ⟨rfl, hempty, hno, hQ⟩ := hrest
    refine ⟨_, hQ ?_, hheld.symm, ?_, hi.seen.snoc, hi.written.trans hwritten.symm, hi.early,
      hi.text, hover, .inr ⟨by simp, hno⟩⟩
    · rw [hi.held]
      exact RwLock.held_before_write hk t
    · rw [hstore]
      exact ⟨hi.agrees.grows, hi.agrees.ids, hi.agrees.seats⟩

/-- What is held behind an unlock was held before. -/
theorem still_held {held : Held Lock} {k l : Lock} {mode : Mode}
    (h : Function.update held l none k = some mode) : held k = some mode := by
  by_cases hk : k = l
  · subst hk
    rw [Function.update_self] at h
    cases h
  · rwa [Function.update_of_ne hk] at h

/-- An unlock. -/
theorem under_unlock {n : Nat} {c : Op} {l : Lock} {next : Code Nat} {x : Choice}
    (hrun : (machine T).run tr = some s) (h : Crew.step system s (.step t x) = some s')
    (hs' : s' = { s with lock := Function.update s.lock l ((s.lock l).unlock t) }.goto t
      (some ⟨n, c, next⟩))
    (ht : s.thread t = some ⟨n, c, .unlock l next⟩)
    (hi : Under faults tr s t ⟨n, c, .unlock l next⟩ m) :
    ∃ m', Under faults (tr ++ [.step t x]) s' t ⟨n, c, next⟩ m' := by
  have hheld : s'.held t = Function.update m.held l none := by
    rw [hs', Crew.held_unlock, hi.held]
  have hstore : s'.store = s.store := by rw [hs']; rfl
  have hwritten : written (tr ++ [.step t x]) n = written tr n := by
    unfold written
    rw [Crew.history_snoc hrun h]
    simp only [Crew.answered, ht, List.filterMap_nil, List.append_nil]
  have hclosed := closed_snoc hrun h
  obtain ⟨hne, hQ⟩ := hi.rest
  refine ⟨_, hQ, hheld.symm, ?_, hi.seen.snoc, hi.written.trans hwritten.symm, hi.early, hi.text,
    ?_, ?_⟩
  · rw [hstore]
    exact ⟨hi.agrees.grows, fun hr => hi.agrees.ids (still_held hr),
      fun hr => hi.agrees.seats (still_held hr)⟩
  -- giving back the file is what ends the text
  · by_cases hl : l = .file
    · subst hl
      simp [hclosed, closes, ht]
    · have hno : closes s (.step t x) = [] := by
        cases l <;> first | exact absurd rfl hl | simp [closes, ht]
      rw [hclosed, hno, List.append_nil, ← hi.ended]
      simp [hl]
  · by_cases hl : l = .file
    · subst hl
      simp
    · rcases hi.file with hf | ⟨hf, ho⟩
      · simp [Function.update_of_ne (Ne.symm hl), hf]
      · simp [Function.update_of_ne (Ne.symm hl), hf, ho, hl]

/-- Any other action. -/
theorem under_act {n : Nat} {c : Op} {e : Action} {next : Answer e → Code Nat} {x : Choice}
    {v : Answer e} {store : Store} (hrun : (machine T).run tr = some s)
    (h : Crew.step system s (.step t x) = some s')
    (hs' : s' = { s with store := store }.goto t (some ⟨n, c, next v⟩))
    (ht : s.thread t = some ⟨n, c, .act e next⟩) (hr : answer x e s.store = some (v, store))
    (hok : ¬ faults → ¬ Fails s (.step t x)) (hi : Under faults tr s t ⟨n, c, .act e next⟩ m) :
    ∃ m', Under faults (tr ++ [.step t x]) s' t ⟨n, c, next v⟩ m' := by
  have hans := answer_cases hr
  have hheld : s'.held t = m.held := by
    rw [hs', hi.held]
    rfl
  have hwritten : written (tr ++ [.step t x]) n = written tr n ++ piece ⟨e, v⟩ := by
    unfold written
    rw [Crew.history_snoc hrun h]
    simp [Crew.answered, ht, system, hr]
  have hclosed : closed (tr ++ [.step t x]) = closed tr := by
    rw [closed_snoc hrun h]
    simp only [closes, ht, List.append_nil]
  obtain ⟨happend, hstore, hwrite⟩ := printsAct_needs hi.rest
  have hfault : ¬ faults → ¬ Faulty x (m.held .file) e := fun hf hx =>
    hok hf ⟨n, c, e, next, ht, by rw [← hi.held]; exact hx⟩
  refine ⟨_, prints_answer hi.agrees hans hfault hi.rest, hheld.symm, ?_, hi.seen.snoc, ?_,
    fun hearly => ?_, ?_, ?_, hi.file⟩
  · rw [hs']
    have hnew := hi.agrees.answer hans
      (fun event he => by simp [happend event he])
      (fun k i w he => by simp [hstore k i w he])
    exact ⟨hnew.grows, hnew.ids, hnew.seats⟩
  · rw [hwritten, ← hi.written]
  · show m.written ++ piece ⟨e, v⟩ = []
    rw [hi.early hearly]
    -- nobody writes before the list has been seen
    cases hans
    case write => exact absurd (hwrite _ rfl).2.1 hearly
    all_goals rfl
  · show m.written ++ piece ⟨e, v⟩ <+: c.text m.list
    cases hans
    case write text i hx =>
      refine List.IsPrefix.trans ?_ (hwrite text rfl).2.2
      rw [List.prefix_append_right_inj]
      exact List.take_prefix ..
    all_goals
      rw [show m.written ++ piece _ = m.written from List.append_nil _]
      exact hi.text
  · rw [hclosed]
    exact hi.ended

/-- A call begins. -/
theorem under_call {c : Op} {f : Option Mode} (hrun : (machine T).run tr = some s)
    (h : Crew.step system s (.call t c) = some s')
    (hs' : s' = { s with calls := s.calls + 1 }.goto t (some ⟨s.calls, c, c.code⟩))
    (hheld : s.held t = locks none none none f) (hf : f ≠ some .read) (hfile : ¬ faults → f = none)
    (hfresh : ∀ n ∈ closed tr, n < s.calls) :
    ∃ m', Under faults (tr ++ [.call t c]) s' t ⟨s.calls, c, c.code⟩ m' := by
  have hnow := seen_now hrun h (t := t) (n := s.calls) (c := c) (p := c.code)
    none (by rw [hs', Crew.goto_self]) nofun
  have hstore : s'.store = s.store := by rw [hs']; rfl
  have hnum := Crew.run_numbered hrun
  have hother : ∀ r, s.thread (Crew.Act.call t c : Crew.Act T Op Choice).who = some r →
      r.no ≠ s.calls := fun r hr => Nat.ne_of_lt (hnum.running _ _ hr)
  rw [hstore] at hnow
  refine ⟨⟨locks none none none f, s.store.list, none, [], false⟩, code_prints c hfile, ?_, ?_,
    hnow, ?_, fun _ => rfl, List.nil_prefix, ?_, ?_⟩
  · rw [hs', ← hheld]
    rfl
  · rw [hstore]
    exact ⟨Grows.refl _, fun _ => rfl, fun _ _ event he => ⟨event, he, rfl⟩⟩
  · rw [written_other hrun h hother]
    unfold written
    rw [hnum.silent _ (Nat.le_refl _)]
    rfl
  · refine iff_of_false nofun fun hmem => ?_
    rw [closed_other hrun h hother] at hmem
    exact absurd (hfresh _ hmem) (Nat.lt_irrefl _)
  · cases f with
    | none => exact .inl rfl
    | some mode =>
      cases mode with
      | read => exact absurd rfl hf
      | write => exact .inr ⟨rfl, rfl⟩

/-- What `prints` says of a call stays so when another thread does something. -/
theorem agrees_other {u : T} {r' : Running Lock Action Answer Nat Op} {m' : Watch}
    (hstep : Crew.Step system s a s') (hu : u ≠ a.who)
    (hi : ∀ r, s.thread a.who = some r → ∃ m, Under faults tr s a.who r m)
    (hiu : Under faults tr s u r' m') : Agrees m' s'.store.list := by
  cases hstep
  case act t x n c e next v store ht hr =>
    obtain ⟨m, hm⟩ := hi _ ht
    obtain ⟨happend, hstore, -⟩ := printsAct_needs hm.rest
    -- who appends or stores holds the lock alone
    refine hiu.agrees.answer (answer_cases hr) (fun event he => ?_) fun k i w he => ?_
    · have hw := happend event he
      rw [hm.held] at hw
      rw [hiu.held, Crew.held_alone hw hu]
      nofun
    · have hw := hstore k i w he
      rw [hm.held] at hw
      rw [hiu.held, Crew.held_alone hw hu]
      nofun
  all_goals exact hiu.agrees

/-- A call is over. -/
theorem under_ret {n : Nat} {c : Op} {ret : Nat}
    (hi : Under faults tr s t ⟨n, c, .done ret⟩ m) :
    (∃ f, s.held t = locks none none none f ∧ f ≠ some .read ∧ (¬ faults → f = none)) ∧
    (c.prints = true → ret = 0 → written tr n = c.text m.list ∧ c.Readable m.list ∧
      m.reader = some (c.source, .read)) ∧
    (¬ faults → (n ∈ closed tr ↔ c.prints = true ∧ ret = 0)) := by
  have hdone : Printed faults c ret m := hi.rest
  refine ⟨⟨m.held .file, ?_, ?_, fun hf => hdone.free _ (.inr hf)⟩, fun hc hr => ?_, fun hf => ?_⟩
  · rw [← hi.held]
    funext l
    cases l with
    | file => rfl
    | _ => exact hdone.free _ (.inl nofun)
  · rcases hi.file with hfile | ⟨hfile, -⟩
    · rw [hfile]
      nofun
    · rw [hfile]
      nofun
  · obtain ⟨htext, -, hread, hreader⟩ := hdone.success hc hr
    exact ⟨hi.written.symm.trans htext, hread, hreader⟩
  · have hover := hi.ended
    dsimp only at hover
    rw [← hover]
    constructor
    · intro ho
      by_contra hno
      have hfail := hdone.failure hf (by
        rcases not_and_or.mp hno with hc | hr
        · exact .inl (Bool.eq_false_of_not_eq_true hc)
        · exact .inr hr)
      rw [ho] at hfail
      cases hfail
    · rintro ⟨hc, hr⟩
      exact (hdone.success hc hr).2.1

theorem start_watched : Watched faults [] (Crew.start ⟨createList, []⟩ : State T) where
  idle t _ := ⟨none, (Crew.held_start _ t).trans locks_none, nofun, fun _ => rfl⟩
  under := nofun
  fresh := nofun
  ended := nofun

/-- One step. -/
theorem step_watched (hrun : (machine T).run tr = some s)
    (h : Crew.step system s a = some s') (hok : ¬ faults → ¬ Fails s a)
    (hi : Watched faults tr s) : Watched faults (tr ++ [a]) s' := by
  have hstep := Crew.step_cases h
  have hnum := Crew.run_numbered hrun
  constructor
  -- threads without a call
  · intro u hu
    by_cases hua : u = a.who
    · subst hua
      cases hstep
      case ret ht =>
        obtain ⟨m, hm⟩ := hi.under _ _ ht
        exact (under_ret hm).1
      all_goals
        simp only [Crew.Act.who, Crew.goto_self] at hu
        cases hu
    · rw [hstep.thread_other hua] at hu
      rw [hstep.held_other hua]
      exact hi.idle u hu
  -- calls under way
  · intro u r hu
    by_cases hua : u = a.who
    · subst hua
      cases hstep
      case call t c ht =>
        simp only [Crew.Act.who, Crew.goto_self] at hu
        cases hu
        obtain ⟨f, hheld, hf, hfile⟩ := hi.idle t ht
        exact under_call hrun h rfl hheld hf hfile hi.fresh
      case ret t n c ret ht =>
        simp only [Crew.Act.who, Crew.goto_self] at hu
        cases hu
      case lock ht hk =>
        simp only [Crew.Act.who, Crew.goto_self] at hu
        cases hu
        obtain ⟨m, hm⟩ := hi.under _ _ ht
        exact under_lock hrun h rfl ht hk hm
      case unlock ht =>
        simp only [Crew.Act.who, Crew.goto_self] at hu
        cases hu
        obtain ⟨m, hm⟩ := hi.under _ _ ht
        exact under_unlock hrun h rfl ht hm
      case act ht hr =>
        simp only [Crew.Act.who, Crew.goto_self] at hu
        cases hu
        obtain ⟨m, hm⟩ := hi.under _ _ ht
        exact under_act hrun h rfl ht hr hok hm
    · rw [hstep.thread_other hua] at hu
      obtain ⟨m, hm⟩ := hi.under u r hu
      exact ⟨m, hm.other hrun h hua hu (agrees_other hstep hua (hi.under a.who) hm)⟩
  -- the numbers of the texts that are complete
  · intro n hn
    refine Nat.lt_of_lt_of_le ?_ hstep.calls_le
    by_cases hmove : ∃ r, s.thread a.who = some r ∧ r.no = n
    · obtain ⟨r, hr, rfl⟩ := hmove
      exact hnum.running _ _ hr
    · refine hi.fresh n ((closed_other hrun h fun r hr heq => hmove ⟨r, hr, heq⟩).mp hn)
  -- calls that have returned, one of them perhaps in this step
  · intro x hx
    unfold returns at hx
    rw [Crew.returns_snoc hrun h] at hx
    rcases List.mem_append.mp hx with hx | hx
    · obtain ⟨reader, list, hseen, hearly, hpre, hall, hclosed⟩ := hi.ended x hx
      have hno : ∀ r, s.thread a.who = some r → r.no ≠ x.1 := (hnum.ended x hx).2 _
      refine ⟨reader, list, hseen.snoc, ?_, ?_, ?_, ?_⟩
      · rwa [written_other hrun h hno]
      · rwa [written_other hrun h hno]
      · rwa [written_other hrun h hno]
      · rwa [closed_other hrun h hno]
    · have ht := Crew.mem_returned hx
      obtain ⟨m, hm⟩ := hi.under _ _ ht
      obtain ⟨-, hall, hover⟩ := under_ret hm
      cases a with
      | ret t =>
        have hwritten : written (tr ++ [.ret t]) x.1 = written tr x.1 := by
          unfold written
          rw [Crew.history_snoc hrun h]
          simp only [Crew.answered, List.filterMap_nil, List.append_nil]
        have hclosed : closed (tr ++ [.ret t]) = closed tr := by
          rw [closed_snoc hrun h]
          exact List.append_nil _
        rw [hwritten, hclosed]
        refine ⟨m.reader, m.list, hm.seen.snoc, fun hr => ?_, ?_, hall, hover⟩
        · exact hm.written.symm.trans (hm.early hr)
        · have hpre := hm.text
          rwa [hm.written] at hpre
      | _ => exact absurd hx List.not_mem_nil

/-- **Every run.** -/
theorem run_watched (hrun : (machine T).run tr = some s)
    (hok : ¬ faults → (machine T).Meets (fun s a => ¬ Fails s a) tr) : Watched faults tr s := by
  refine (machine T).run_invariant (I := fun tr s =>
    (¬ faults → (machine T).Meets (fun s a => ¬ Fails s a) tr) → Watched faults tr s)
    (fun _ => start_watched) (fun tr s a s' hs hi h hm => ?_) tr s hrun hok
  exact step_watched hs h (fun hf => (hm hf).last hs) (hi fun hf => (hm hf).of_append)

end Steps

end Ems.Jobs.Programs
