import Ems.Server.Pointers

/-!
# The list is intact whenever nobody writes to it

What `get_event` and the two listing loops rely on, in every state of every run in
which no session has the list's lock for writing: the nodes from `head` end at `tail`,
their number is the counter, and they are the successful `CREATE`s in order
(`Intact`). The loops end at every node once. A `CREATE` that fails has changed nothing
(`run_untouched`).

`ems_sigusr1_action` has two more loops, over the rows and the columns of an event, and
they count to the bound inclusive. An event with 2^64 - 1 rows and no columns can be
created, and its rows are never all printed; the list stays locked. So can an event of
2^32 rows and 2^32 columns, whose block is empty, and the loops read behind it
(`eventText_isSome`).
-/

namespace Ems.Server.Nodes

open Conc Base

/-! ## Printing an event -/

/-- The loops over the rows and the columns end, and read no seat outside the block: the
rows can be counted, and the number of seats has not wrapped. -/
def Countable (numRows numCols : UInt64) : Prop :=
  numRows.toNat + 1 < 2 ^ 64 ∧ numRows.toNat * numCols.toNat < 2 ^ 64

/-- The iterations from the `i`-th on all have a result, if the loop has. -/
theorem forText_isSome {n : UInt64} {body : UInt64 → Option (List Char)} {fuel : Nat} :
    ∀ {i : Nat}, (Client.forText n body fuel (UInt64.ofNat (i + 1))).isSome →
      ∀ j, i ≤ j → j < n.toNat → (body (UInt64.ofNat (j + 1))).isSome := by
  induction fuel with
  | zero => intro i h; cases h
  | succ fuel ih =>
    intro i h j hij hj
    have hlt := n.toNat_lt
    have hle : UInt64.ofNat (i + 1) ≤ n := by
      rw [UInt64.le_iff_toNat_le, UInt64.toNat_ofNat', Nat.mod_eq_of_lt (by omega)]
      omega
    have hnext : UInt64.ofNat (i + 1) + 1 = UInt64.ofNat (i + 1 + 1) := by
      rw [UInt64.ofNat_add (i + 1) 1]
      rfl
    unfold Client.forText at h
    rw [if_pos hle, hnext] at h
    cases hbody : body (UInt64.ofNat (i + 1)) with
    | none => rw [hbody] at h; cases h
    | some text =>
      rcases Nat.eq_or_lt_of_le hij with rfl | hij
      · rw [hbody]
        rfl
      · refine ih (i := i + 1) ?_ j hij hj
        cases hrest : Client.forText n body fuel (UInt64.ofNat (i + 1 + 1)) with
        | none => rw [hbody, hrest] at h; cases h
        | some rest => rfl

/-- A loop has a result when its bound can be counted to and every iteration has one. -/
theorem loopText_isSome {n : UInt64} {body : UInt64 → Option (List Char)} :
    (Client.loopText n body).isSome ↔
      n.toNat + 1 < 2 ^ 64 ∧ ∀ i < n.toNat, (body (UInt64.ofNat (i + 1))).isSome := by
  constructor
  · intro h
    refine ⟨?_, fun i hi => forText_isSome (i := 0) h i (Nat.zero_le i) hi⟩
    by_contra hmax
    have hlt := n.toNat_lt
    rw [Client.loopText_max (by omega)] at h
    cases h
  · rintro ⟨hn, hbody⟩
    rw [Client.loopText_eq hn (fun i => (body (UInt64.ofNat (i + 1))).getD [])]
    · rfl
    · intro i hi
      obtain ⟨text, htext⟩ := Option.isSome_iff_exists.mp (hbody i hi)
      rw [htext]
      rfl

/-- A row is printed when its seats can be counted and are all in the block. -/
theorem rowText_isSome (event : Event) (i : UInt64) :
    (rowText event i).isSome ↔ event.cols.toNat + 1 < 2 ^ 64 ∧
      ∀ j < event.cols.toNat,
        (seatIndex event i (UInt64.ofNat (j + 1))).toNat < event.data.length := by
  have hsome : (rowText event i).isSome ↔ (Client.loopText event.cols fun j =>
      event.data[(seatIndex event i j).toNat]?.map fun seat =>
        Client.decimal seat ++ if j < event.cols then [' '] else []).isSome := by
    unfold rowText
    cases Client.loopText event.cols _ <;> rfl
  rw [hsome, loopText_isSome]
  simp

/-- `seat_index`, with rows and columns from 1. -/
theorem seatIndex_wraps (event : Event) (i j : Nat) :
    (seatIndex event (UInt64.ofNat (i + 1)) (UInt64.ofNat (j + 1))).toNat =
      (i * event.cols.toNat + j) % 2 ^ 64 := by
  have hrow : UInt64.ofNat (i + 1) - 1 = UInt64.ofNat i := by
    rw [UInt64.ofNat_add i 1]
    exact UInt64.add_sub_cancel _ _
  have hseat : seatIndex event (UInt64.ofNat (i + 1)) (UInt64.ofNat (j + 1)) =
      UInt64.ofNat i * event.cols + UInt64.ofNat j := by
    unfold seatIndex
    rw [hrow, UInt64.ofNat_add j 1, ← UInt64.add_assoc]
    exact UInt64.add_sub_cancel _ _
  rw [hseat, UInt64.toNat_add, UInt64.toNat_mul, UInt64.toNat_ofNat', UInt64.toNat_ofNat']
  simp [Nat.add_mod, Nat.mul_mod]

/-- The event is printed, or its loops never end or leave the block. -/
theorem eventText_isSome {event : Event} (hsized : event.Sized) :
    (eventText event).isSome ↔ Countable event.rows event.cols := by
  have hsome : (eventText event).isSome ↔
      (Client.loopText event.rows (rowText event)).isSome := by
    unfold eventText
    cases Client.loopText event.rows (rowText event) <;> rfl
  have hlen : event.data.length = event.rows.toNat * event.cols.toNat % 2 ^ 64 := by
    rw [hsized.cells, UInt64.toNat_mul]
  have hbytes := hsized.fits
  rw [hsome, loopText_isSome]
  simp only [rowText_isSome, seatIndex_wraps]
  constructor
  · rintro ⟨hrows, hseats⟩
    refine ⟨hrows, ?_⟩
    -- of 2^64 seats or more there is one right behind the block
    by_contra hwrap
    have hlt : event.data.length < event.cols.toNat * event.rows.toNat := by
      rw [Nat.mul_comm]
      omega
    have hpos : 0 < event.cols.toNat :=
      Nat.pos_of_ne_zero fun hzero => by simp [hzero] at hlt
    have hbehind := (hseats (event.data.length / event.cols.toNat)
      (Nat.div_lt_of_lt_mul hlt)).2 (event.data.length % event.cols.toNat) (Nat.mod_lt _ hpos)
    rw [Nat.div_add_mod', Nat.mod_eq_of_lt (by omega)] at hbehind
    exact Nat.lt_irrefl _ hbehind
  · rintro ⟨hrows, hfits⟩
    rw [Nat.mod_eq_of_lt hfits] at hlen
    refine ⟨hrows, fun i hi => ⟨?_, fun j hj => ?_⟩⟩
    · have hcols : event.cols.toNat ≤ event.rows.toNat * event.cols.toNat :=
        Nat.le_mul_of_pos_left _ (by omega)
      omega
    · have hseat : i * event.cols.toNat + (j + 1) ≤ event.rows.toNat * event.cols.toNat :=
        inside_mul_le (Nat.succ_pos i) hi hj
      rw [Nat.mod_eq_of_lt (by omega)]
      omega

/-- Every element has a result or the list has none. -/
theorem mapM_isSome {α β : Type} {f : α → Option β} {l : List α} :
    (l.mapM f).isSome ↔ ∀ a ∈ l, (f a).isSome := by
  induction l with
  | nil => simp
  | cons a l ih =>
    rw [List.mapM_cons, List.forall_mem_cons, ← ih]
    cases f a <;> cases l.mapM f <;> simp

/-! ## The list between two creations -/

/-- The list is the nodes `nodes`, and they are the creations `log`. -/
structure Intact (list : EventList) (nodes : List Nat) (log : List (UInt32 × UInt64 × UInt64)) :
    Prop where
  empty : list.head = none ↔ list.tail = none
  chain : Chain list.next list.head nodes
  last : nodes.getLast? = list.tail
  length : nodes.length = list.eventNum.toNat
  closed : ∀ node, list.tail = some node → list.next node = none
  ids : (nodes.map fun node => (list.event node).id).Nodup
  order : nodes.map (fun node => (list.event node).shape) = log
  lookup : ∀ id fuel, list.eventNum.toNat ≤ fuel →
    ∃ found, getEvent list id list.head list.tail fuel = some found ∧
      (found = none ↔ id ∉ log.map (·.1)) ∧
      ∀ node, found = some node → node ∈ nodes ∧ (list.event node).id = id
  listing : ∀ fuel, list.eventNum.toNat ≤ fuel →
    emsListEvents list fuel = some (list.eventNum, log.map (·.1))

section Results

variable {list : EventList} {n fuel : Nat} {log : List (UInt32 × UInt64 × UInt64)}

/-- A walk along the list ends, and has come by all nodes. -/
theorem Linked.visit_eq {k : Nat} (h : Linked list (k + 1)) (hf : k + 1 ≤ fuel) :
    visit list.next k fuel 0 = some (List.range (k + 1)) := by
  have hchain := h.1
  rw [h.ends.1] at hchain
  exact hchain.visit_eq List.nodup_range (getLast?_range_succ k) (by rwa [List.length_range])

theorem Linked.listing (h : Linked list n) (hnum : list.eventNum.toNat = n) (hf : n ≤ fuel) :
    emsListEvents list fuel =
      some (list.eventNum, (List.range n).map fun node => (list.event node).id) := by
  unfold emsListEvents
  cases n with
  | zero =>
    have hzero : list.eventNum = 0 := UInt64.toNat_inj.mp hnum
    rw [if_pos hzero, hzero]
    rfl
  | succ k =>
    have hne : list.eventNum ≠ 0 := by
      intro hzero
      rw [hzero] at hnum
      cases hnum
    rw [if_neg hne, h.ends.1, h.ends.2]
    simp only [h.visit_eq hf, Option.map_some]

/-- The action ends exactly when every event can be printed. -/
theorem Linked.action (h : Linked list n) (hf : n ≤ fuel)
    (hsized : ∀ node ∈ List.range n, (list.event node).Sized) :
    (emsSigusr1Action list fuel).isSome ↔
      ∀ node ∈ List.range n, Countable (list.event node).rows (list.event node).cols := by
  unfold emsSigusr1Action
  cases n with
  | zero =>
    have hhead : list.head = none := h.1
    simp [hhead]
  | succ k =>
    have htexts : (((List.range (k + 1)).mapM fun node => eventText (list.event node)).isSome ↔
        ∀ node ∈ List.range (k + 1), Countable (list.event node).rows (list.event node).cols) := by
      rw [mapM_isSome]
      exact forall₂_congr fun node hnode => eventText_isSome (hsized node hnode)
    rw [h.ends.1, h.ends.2, ← htexts]
    simp only [h.visit_eq hf, Option.bind_eq_bind, Option.bind_some]
    cases (List.range (k + 1)).mapM fun node => eventText (list.event node) <;> rfl

/-- What the memory means decides all of it. -/
theorem intact_of_linked (h : Linked list n) (hnum : list.eventNum.toNat = n)
    (hids : ((List.range n).map fun node => (list.event node).id).Nodup)
    (horder : (List.range n).map (fun node => (list.event node).shape) = log) :
    Intact list (List.range n) log := by
  have hlogids : log.map (·.1) = (List.range n).map fun node => (list.event node).id := by
    rw [← horder, List.map_map]
    rfl
  constructor
  · rw [h.2, h.1.eq_none_iff, List.getLast?_eq_none_iff]
  · exact h.1
  · exact h.2.symm
  · rw [List.length_range, hnum]
  · intro node hnode
    cases n with
    | zero =>
      rw [h.2] at hnode
      cases hnode
    | succ k =>
      rw [h.ends.2] at hnode
      cases hnode
      rw [h.next_eq (Nat.lt_succ_self node), if_neg (Nat.lt_irrefl _)]
  · exact hids
  · exact horder
  · intro id fuel hf
    rw [hnum] at hf
    refine ⟨_, h.getEvent_eq hf id, ?_, ?_⟩
    · rw [List.findIdx?_eq_none_iff, hlogids]
      simp
    · intro node hfound
      rw [← find?_range] at hfound
      refine ⟨List.mem_of_find?_eq_some hfound, ?_⟩
      simpa using List.find?_some hfound
  · intro fuel hf
    rw [hnum] at hf
    rw [h.listing hnum hf, hlogids]

end Results

/-- In every state of every run in which nobody writes to the list. -/
theorem run_intact {tr : List Act} {s : State} (hrun : machine.run tr = some s)
    (hfree : s.rwl.writer = none) :
    ∃ nodes, Intact s.list nodes (creations tr) ∧
      ∀ fuel, s.list.eventNum.toNat ≤ fuel →
        ((emsSigusr1Action s.list fuel).isSome ↔
          ∀ x ∈ creations tr, Countable x.2.1 x.2.2) := by
  obtain ⟨v, hv, hlog, hr⟩ := run_refines hrun
  have hcr := run_createdInv hv
  rw [hlog] at hcr
  -- `append_to_list` runs under the write lock, so no node is half linked
  have hquiet : ∀ t, appending (s.pc t) = false := by
    intro t
    refine Bool.eq_false_iff.mpr fun h => ?_
    have hwriter := ((run_rwlInv hv).writer t).mpr (by rw [hr.pc]; exact writing_of_appending h)
    rw [hr.rwl, hfree] at hwriter
    cases hwriter
  have hlinked := (hr.quiet hquiet).2
  have hnum : s.list.eventNum.toNat = v.list.nodes.length := by
    rw [← hr.eventNum]
    exact hcr.eventNum_toNat
  have horder : (List.range v.list.nodes.length).map (fun node => (s.list.event node).shape) =
      creations tr := by
    rw [← hcr.order]
    conv_rhs => rw [hr.nodes, List.map_map]
    rfl
  have hids : ((List.range v.list.nodes.length).map fun node => (s.list.event node).id).Nodup := by
    have hnodup := hcr.nodup
    rw [hr.nodes, List.map_map] at hnodup
    exact hnodup
  refine ⟨_, intact_of_linked hlinked hnum hids horder, fun fuel hf => ?_⟩
  have hsized : ∀ node ∈ List.range v.list.nodes.length, (s.list.event node).Sized := by
    intro node hnode
    have hmem : s.list.event node ∈ v.list.nodes := by
      rw [hr.nodes]
      exact List.mem_map_of_mem hnode
    obtain ⟨e, he⟩ := List.getElem?_of_mem hmem
    exact run_sizedInv hv e _ he
  rw [hlinked.action (by rwa [hnum] at hf) hsized, ← horder]
  simp [Event.shape]

/-! ## Failed creations -/

/-- The session is in `ems_create`, or has returned from it. -/
def creating : Pc → Bool
  | .createLock _ _ _ => true
  | .createLookup _ _ _ => true
  | .createAppend _ _ _ => true
  | .createUnlock _ => true
  | .done (.status _) => true
  | _ => false

/-- The `ems_create` of `t` has its event and will return 0. -/
def Committed (s : State) (t : Tid) : Prop :=
  (∃ id rows cols, s.pc t = .createAppend id rows cols ∧
    ((∃ new, s.vars t = .allocated new) ∨ (∃ new, s.vars t = .linked new) ∨
      s.vars t = .appended)) ∨
  s.pc t = .createUnlock 0 ∨ s.pc t = .done (.status 0)

/-- No step of `t` in `tr`, from the state `s` on, changes the list or an event. -/
def Untouched (t : Tid) (s : State) (tr : List Act) : Prop :=
  ∀ before c after s₁ s₂, tr = before ++ .step t c :: after →
    machine.runFrom s before = some s₁ → machine.step s₁ (.step t c) = some s₂ →
    s₂.list = s₁.list

section Failures

variable {s s' : State} {a : Act} {t u : Tid} {c : Choice}

theorem goto_frame {s₁ : State} {p : Pc} {w : Vars} (hpc : s₁.pc = s.pc) (hvars : s₁.vars = s.vars)
    (hu : t ≠ u) : (s₁.enter t p w).pc u = s.pc u ∧ (s₁.enter t p w).vars u = s.vars u := by
  constructor
  · show Function.update s₁.pc t p u = s.pc u
    rw [Function.update_of_ne (Ne.symm hu), hpc]
  · show Function.update s₁.vars t w u = s.vars u
    rw [Function.update_of_ne (Ne.symm hu), hvars]

theorem lockStep_frame (h : lockStep s a = some s') (hu : a.session ≠ u) :
    s'.pc u = s.pc u ∧ s'.vars u = s.vars u := by
  obtain ⟨w, hw, rfl⟩ := Option.map_eq_some_iff.mp h
  exact ⟨step_pc_other (Server.step_cases hw) hu, rfl⟩

/-- A step leaves the other sessions where they are. -/
theorem step_frame (h : step s a = some s') (hu : a.session ≠ u) :
    s'.pc u = s.pc u ∧ s'.vars u = s.vars u := by
  cases a with
  | call t op => exact lockStep_frame (a := .call t op) h hu
  | ret t => exact lockStep_frame (a := .ret t) h hu
  | step t c =>
    change advance s t c = some s' at h
    change t ≠ u at hu
    unfold advance at h
    split at h
    -- `ems_create` looks the event up
    next =>
      obtain ⟨event, -, rfl⟩ := Option.map_eq_some_iff.mp h
      split <;> exact goto_frame rfl rfl hu
    -- and appends the new one, in four steps
    next =>
      split at h
      next =>
        obtain ⟨list, -, rfl⟩ := Option.map_eq_some_iff.mp h
        exact goto_frame rfl rfl hu
      next => cases h; exact goto_frame rfl rfl hu
      next => cases h; exact goto_frame rfl rfl hu
      next =>
        split at h
        next => cases h; exact goto_frame rfl rfl hu
        next => cases h; exact goto_frame rfl rfl hu
    -- `ems_reserve` looks the event up
    next =>
      obtain ⟨event, -, rfl⟩ := Option.map_eq_some_iff.mp h
      exact goto_frame rfl rfl hu
    -- checks the request
    next =>
      dsimp only at h
      split at h
      next => cases h; exact goto_frame rfl rfl hu
      next => cases h; exact goto_frame rfl rfl hu
    -- and stores the seats
    next =>
      dsimp only at h
      split at h
      next =>
        split at h
        next => cases h; exact goto_frame rfl rfl hu
        next => cases h
      next => cases h; exact goto_frame rfl rfl hu
    -- `ems_show` looks the event up
    next =>
      obtain ⟨event, -, rfl⟩ := Option.map_eq_some_iff.mp h
      exact goto_frame rfl rfl hu
    -- and sends its data
    next =>
      dsimp only at h
      split at h
      next =>
        split at h
        next => cases h; exact goto_frame rfl rfl hu
        next => cases h
      next => cases h; exact goto_frame rfl rfl hu
    -- `ems_list_events` counts the events
    next =>
      split at h
      next => cases h; exact goto_frame rfl rfl hu
      next =>
        split at h
        next => cases h; exact goto_frame rfl rfl hu
        next => cases h
    -- and collects their ids
    next =>
      split at h
      next =>
        dsimp only at h
        split at h
        next => cases h; exact goto_frame rfl rfl hu
        next =>
          obtain ⟨node, -, rfl⟩ := Option.map_eq_some_iff.mp h
          exact goto_frame rfl rfl hu
      next => cases h
    -- the locks
    next => exact lockStep_frame h hu

/-- A step of `ems_create` that changes the list leads to its success, from where
nothing else does. -/
theorem creating_step (hc : creating (s.pc t) = true) (h : advance s t c = some s') :
    creating (s'.pc t) = true ∧ (s'.list = s.list ∨ Committed s' t) ∧
      (Committed s t → Committed s' t) := by
  have hself : ∀ {s₁ : State} {p : Pc} {w : Vars}, (s₁.enter t p w).pc t = p ∧
      (s₁.enter t p w).vars t = w :=
    ⟨Function.update_self .., Function.update_self ..⟩
  cases hp : s.pc t <;> rw [hp] at hc
  case createLock id rows cols =>
    simp only [advance, hp, lockStep, Server.step, Server.advance, State.locks, Option.map_map,
      Option.map_eq_some_iff] at h
    obtain ⟨l, -, rfl⟩ := h
    refine ⟨?_, Or.inl rfl, fun hcom => by simp [Committed, hp] at hcom⟩
    show creating (Function.update s.pc t (.createLookup id rows cols) t) = true
    rw [Function.update_self]
    rfl
  case createLookup id rows cols =>
    simp only [advance, hp] at h
    obtain ⟨event, -, rfl⟩ := Option.map_eq_some_iff.mp h
    split
    all_goals
      refine ⟨?_, Or.inl rfl, fun hcom => by simp [Committed, hp] at hcom⟩
      rw [hself.1]
      rfl
  case createAppend id rows cols =>
    cases hw : s.vars t
    case allocated new =>
      simp only [advance, hp, hw] at h
      obtain ⟨list, -, rfl⟩ := Option.map_eq_some_iff.mp h
      have hcom : ∀ s₁ : State,
          Committed (s₁.enter t (.createAppend id rows cols) (.linked new)) t := fun s₁ =>
        Or.inl ⟨id, rows, cols, hself.1, Or.inr (Or.inl ⟨new, hself.2⟩)⟩
      exact ⟨by rw [hself.1]; rfl, Or.inr (hcom _), fun _ => hcom _⟩
    case linked new =>
      simp only [advance, hp, hw, Option.some.injEq] at h
      subst h
      have hcom : ∀ s₁ : State,
          Committed (s₁.enter t (.createAppend id rows cols) .appended) t := fun s₁ =>
        Or.inl ⟨id, rows, cols, hself.1, Or.inr (Or.inr hself.2)⟩
      exact ⟨by rw [hself.1]; rfl, Or.inr (hcom _), fun _ => hcom _⟩
    case appended =>
      simp only [advance, hp, hw, Option.some.injEq] at h
      subst h
      have hcom : ∀ s₁ : State, Committed (s₁.goto t (.createUnlock 0)) t := fun s₁ =>
        Or.inr (Or.inl hself.1)
      exact ⟨by rw [hself.1]; rfl, Or.inr (hcom _), fun _ => hcom _⟩
    -- no node yet: the allocation fails or makes one, and the list is as before
    all_goals
      simp only [advance, hp, hw] at h
      split at h
      next =>
        cases h
        exact ⟨by rw [hself.1]; rfl, Or.inl rfl, fun hcom => by simp [Committed, hp, hw] at hcom⟩
      next =>
        cases h
        exact ⟨by rw [hself.1]; rfl, Or.inr (Or.inl ⟨id, rows, cols, hself.1, Or.inl ⟨_, hself.2⟩⟩),
          fun hcom => by simp [Committed, hp, hw] at hcom⟩
  case createUnlock ret =>
    simp only [advance, hp, lockStep, Server.step, Server.advance, State.locks, Option.map_some,
      Option.some.injEq] at h
    subst h
    have hpc : Function.update s.pc t (.done (.status ret)) t = .done (.status ret) :=
      Function.update_self ..
    refine ⟨?_, Or.inl rfl, fun hcom => ?_⟩
    · show creating (Function.update s.pc t (.done (.status ret)) t) = true
      rw [hpc]
      rfl
    · simp only [Committed, hp, reduceCtorEq, false_and, exists_false, false_or, or_false,
        Pc.createUnlock.injEq] at hcom
      rw [hcom] at hpc
      subst hcom
      exact Or.inr (Or.inr hpc)
  case done reply =>
    simp [advance, hp, lockStep, Server.step, Server.advance, State.locks] at h
  all_goals cases hc

/-- **A `CREATE` that fails changes nothing**, whatever the other sessions do meanwhile. -/
theorem run_untouched {tr : List Act} (hc : creating (s.pc t) = true)
    (hrun : machine.runFrom s tr = some s') (hret : .ret t ∉ tr) (hfail : ¬ Committed s' t) :
    ¬ Committed s t ∧ Untouched t s tr := by
  induction tr generalizing s with
  | nil =>
    cases hrun
    exact ⟨hfail, fun before c after _ _ htr => absurd htr.symm (by simp)⟩
  | cons a tr ih =>
    rw [Machine.runFrom_cons] at hrun
    obtain ⟨s₁, hstep, hrest⟩ := Option.bind_eq_some_iff.mp hrun
    have hret' : .ret t ∉ tr := fun h => hret (List.mem_cons_of_mem _ h)
    -- the first step keeps `t` inside the call and does not commit it
    have hfirst : creating (s₁.pc t) = true ∧ (Committed s t → Committed s₁ t) ∧
        ∀ c, a = .step t c → s₁.list = s.list ∨ Committed s₁ t := by
      by_cases hown : a.session = t
      · cases a with
        | call u op =>
          cases show u = t from hown
          obtain ⟨w, hw, -⟩ := Option.map_eq_some_iff.mp hstep
          cases Server.step_cases hw with
          | call hidle =>
            rw [show s.pc t = .idle from hidle] at hc
            cases hc
        | ret u =>
          cases show u = t from hown
          exact absurd (List.mem_cons_self ..) hret
        | step u c =>
          cases show u = t from hown
          obtain ⟨h1, h2, h3⟩ := creating_step hc hstep
          exact ⟨h1, h3, fun _ _ => h2⟩
      · obtain ⟨hpc, hvars⟩ := step_frame hstep hown
        refine ⟨by rw [hpc]; exact hc, ?_, ?_⟩
        · unfold Committed
          rw [hpc, hvars]
          exact id
        · rintro c rfl
          exact absurd rfl hown
    obtain ⟨hnot, hsame⟩ := ih hfirst.1 hrest hret'
    refine ⟨fun h => hnot (hfirst.2.1 h), ?_⟩
    intro before c after s₂ s₃ htr hbefore hafter
    cases before with
    | nil =>
      cases htr
      cases hbefore
      have hs₃ : s₃ = s₁ := Option.some.inj (hafter.symm.trans hstep)
      rw [hs₃]
      exact (hfirst.2.2 c rfl).resolve_right hnot
    | cons b before =>
      cases htr
      rw [Machine.runFrom_cons, hstep] at hbefore
      exact hsame before c after s₂ s₃ rfl hbefore hafter

end Failures

/-- **The event list**, in every run. While nobody holds its lock for writing it is the
sequence of the events created so far, and every loop over it ends, except that
`ems_sigusr1_action` ends, without a read outside a block, exactly when no event has
rows it counts for ever or more seats than a `size_t` can number.
A call of `ems_create` that fails leaves the list and the events as they are. -/
theorem list_intact {tr : List Act} {s : State} (hrun : machine.run tr = some s) :
    (s.rwl.writer = none → ∃ nodes, Intact s.list nodes (creations tr) ∧
      ∀ fuel, s.list.eventNum.toNat ≤ fuel →
        ((emsSigusr1Action s.list fuel).isSome ↔
          ∀ x ∈ creations tr, Countable x.2.1 x.2.2)) ∧
    ∀ t id rows cols tr' s' ret, s.pc t = .createLock id rows cols →
      machine.runFrom s tr' = some s' → .ret t ∉ tr' → s'.pc t = .done (.status ret) → ret ≠ 0 →
      Untouched t s tr' := by
  refine ⟨run_intact hrun, fun t id rows cols tr' s' ret hp hrest hret hdone hne => ?_⟩
  refine (run_untouched (by rw [hp]; rfl) hrest hret ?_).2
  simp [Committed, hdone, hne]

/-- Session 0 creates an event, and session 1 asks for the same id. -/
def oneEvent : List Act :=
  let turn : Act := .step 0 ⟨Alloc.allOk, 1⟩
  [.call 0 (.create 7 2 3), turn, turn, turn, turn, turn, turn, turn, .ret 0,
    .call 1 (.create 7 1 1)]

/-- Session 1 finds the event and gives up. -/
def again : List Act :=
  let turn : Act := .step 1 ⟨Alloc.allOk, 1⟩
  [turn, turn, turn]

theorem list_intact_oneEvent : ∃ s nodes, machine.run oneEvent = some s ∧
    Intact s.list nodes [(7, 2, 3)] ∧ (emsSigusr1Action s.list 1).isSome ∧
    Untouched 1 s again := by
  have hstart : (machine.run oneEvent).map (fun s => (s.rwl.writer, s.list.eventNum, s.pc 1)) =
      some (none, 1, .createLock 7 1 1) := rfl
  have hend : (machine.run (oneEvent ++ again)).map (·.pc 1) = some (.done (.status 1)) := rfl
  obtain ⟨s, hs, hstate⟩ := Option.map_eq_some_iff.mp hstart
  obtain ⟨s', hs', hdone⟩ := Option.map_eq_some_iff.mp hend
  simp only [Prod.mk.injEq] at hstate
  obtain ⟨hfree, hnum, hpc⟩ := hstate
  have hlog : creations oneEvent = [(7, 2, 3)] := by decide
  obtain ⟨hintact, hfailed⟩ := list_intact hs
  obtain ⟨nodes, hnodes, haction⟩ := hintact hfree
  rw [hlog] at hnodes haction
  refine ⟨s, nodes, hs, hnodes, (haction 1 (by rw [hnum]; decide)).mpr ?_, ?_⟩
  · simp [Countable]
  rw [machine.run_append hs] at hs'
  exact hfailed 1 7 1 1 again s' 1 hpc hs' (by simp [again]) hdone (by decide)

/-- Session 0 creates an event with the largest number of rows. -/
def tallEvent : List Act :=
  let turn : Act := .step 0 ⟨Alloc.allOk, 1⟩
  [.call 0 (.create 7 18446744073709551615 0), turn, turn, turn, turn, turn, turn, turn]

/-- Its rows are not all printed, whatever the fuel. -/
theorem action_endless : ¬ ∀ tr s, machine.run tr = some s → s.rwl.writer = none →
    ∃ fuel, s.list.eventNum.toNat ≤ fuel ∧ (emsSigusr1Action s.list fuel).isSome := by
  intro hall
  have hend : (machine.run tallEvent).map (·.rwl.writer) = some none := by decide
  obtain ⟨s, hs, hfree⟩ := Option.map_eq_some_iff.mp hend
  obtain ⟨fuel, hfuel, hsome⟩ := hall tallEvent s hs hfree
  obtain ⟨nodes, -, haction⟩ := run_intact hs hfree
  have hlog : creations tallEvent = [(7, 18446744073709551615, 0)] := by decide
  rw [hlog] at haction
  have hcount := (haction fuel hfuel).mp hsome
  simp [Countable] at hcount

end Ems.Server.Nodes
