import Mathlib.Data.List.Perm.Basic
import Mathlib.Data.List.Nodup
import Mathlib.Logic.Function.Basic
import Ems.Conc.Machine

/-!
# Linearizability by linearization points

A sequential object (`Obj`), the calls and returns a concurrent run shows
(`Visible`), and what it means for the run to look like the object
(`IsLinearization`): there is one order of the requests, in which the object
gives every request the reply it got, and a request that returned before
another was called stands before it. A request still under way may stand in the
order, if it has already taken effect, or be absent from it.

`linearizable_of_points` is the proof rule. It asks for the place in the code
where a request takes effect: every step that is neither a call nor a return
either changes nothing the object knows, or is the point of exactly one request,
which then performs the object's operation on the abstract state and has its
reply fixed. The order is the order of these points.
-/

namespace Conc

variable {T Op Rep St : Type}

/-- A sequential object: what one request does, alone. -/
structure Obj (St Op Rep : Type) where
  init : St
  exec : Op → St → Rep × St

/-- The requests one after the other: their replies and the final state. -/
def Obj.replay (obj : Obj St Op Rep) : List Op → List Rep × St
  | ops => ops.foldl (fun acc op =>
      (acc.1 ++ [(obj.exec op acc.2).1], (obj.exec op acc.2).2)) ([], obj.init)

theorem Obj.replay_snoc (obj : Obj St Op Rep) (ops : List Op) (op : Op) :
    obj.replay (ops ++ [op]) =
      ((obj.replay ops).1 ++ [(obj.exec op (obj.replay ops).2).1],
        (obj.exec op (obj.replay ops).2).2) := by
  unfold Obj.replay
  rw [List.foldl_append]
  rfl

/-- What an observer of the object sees. -/
inductive Visible (T Op Rep : Type) where
  | call (t : T) (op : Op)
  | ret (t : T) (rep : Rep)

/-- A completed request: the positions of its call and its return in the
history, who made it, and what came back. -/
structure Done (T Op Rep : Type) where
  start : Nat
  stop : Nat
  thread : T
  op : Op
  rep : Rep

/-- A history, read from left to right: its length, the open request of every
thread, and the completed requests. -/
structure Track (T Op Rep : Type) where
  now : Nat
  pending : T → Option (Nat × Op)
  done : List (Done T Op Rep)

def Track.init : Track T Op Rep := ⟨0, fun _ => none, []⟩

section Track

variable [DecidableEq T]

/-- One more event of the history. -/
def Track.next (k : Track T Op Rep) : Visible T Op Rep → Track T Op Rep
  | .call t op => ⟨k.now + 1, Function.update k.pending t (some (k.now, op)), k.done⟩
  | .ret t rep =>
    match k.pending t with
    | none => ⟨k.now + 1, k.pending, k.done⟩
    | some (i, op) =>
      ⟨k.now + 1, Function.update k.pending t none, k.done ++ [⟨i, k.now, t, op, rep⟩]⟩

/-- The requests of a history. -/
def track (h : List (Visible T Op Rep)) : Track T Op Rep := h.foldl Track.next Track.init

theorem track_snoc (h : List (Visible T Op Rep)) (v : Visible T Op Rep) :
    track (h ++ [v]) = (track h).next v := by
  unfold track
  rw [List.foldl_append]
  rfl

/-- One request in a sequential order: the position of its call, and its reply. -/
abbrev Placed (Op Rep : Type) := Nat × Op × Rep

def Done.placed (d : Done T Op Rep) : Placed Op Rep := (d.start, d.op, d.rep)

/-- `lin` is a sequential order of the requests of the history `h` that
explains every reply and ends in the state `st`. -/
structure IsLinearization (obj : Obj St Op Rep) (h : List (Visible T Op Rep)) (st : St)
    (lin : List (Placed Op Rep)) : Prop where
  /-- executed one after the other, the requests get these replies and end here -/
  legal : obj.replay (lin.map (·.2.1)) = (lin.map (·.2.2), st)
  /-- every request at most once -/
  nodup : (lin.map (·.1)).Nodup
  /-- every completed request, with the reply it got -/
  complete : ∀ d ∈ (track h).done, d.placed ∈ lin
  /-- nothing else but requests still under way -/
  sound : ∀ x ∈ lin, (∃ d ∈ (track h).done, d.placed = x) ∨
    ∃ t, (track h).pending t = some (x.1, x.2.1)
  /-- what returned before another was called comes before it -/
  order : ∀ d ∈ (track h).done, ∀ x ∈ lin, d.stop < x.1 → [d.start, x.1].Sublist (lin.map (·.1))

/-- How far a thread is with its request. -/
inductive Status (Op Rep : Type) where
  | idle
  | before (op : Op)
  | after (rep : Rep)

/-- The numbers a history gives to its requests are in order and distinct. -/
structure TrackOk (k : Track T Op Rep) : Prop where
  pending_lt : ∀ t i op, k.pending t = some (i, op) → i < k.now
  done_lt : ∀ d ∈ k.done, d.start < k.now ∧ d.stop < k.now
  pending_inj : ∀ t u i op op', k.pending t = some (i, op) → k.pending u = some (i, op') → t = u
  pending_done : ∀ t i op, k.pending t = some (i, op) → ∀ d ∈ k.done, d.start ≠ i
  done_nodup : (k.done.map (·.start)).Nodup

omit [DecidableEq T] in
theorem trackOk_init : TrackOk (Track.init : Track T Op Rep) := by
  constructor <;> simp [Track.init]

theorem TrackOk.next {k : Track T Op Rep} (hk : TrackOk k) (v : Visible T Op Rep) :
    TrackOk (k.next v) := by
  cases v with
  | call t op =>
    -- the call that begins now, or one that was under way before
    have hopen : ∀ u i op', Function.update k.pending t (some (k.now, op)) u = some (i, op') →
        (u = t ∧ i = k.now) ∨ (u ≠ t ∧ k.pending u = some (i, op')) := by
      intro u i op' hu
      by_cases hut : u = t
      · subst hut
        rw [Function.update_self] at hu
        cases hu
        exact Or.inl ⟨rfl, rfl⟩
      · rw [Function.update_of_ne hut] at hu
        exact Or.inr ⟨hut, hu⟩
    constructor
    · intro u i op' hu
      rcases hopen u i op' hu with ⟨-, rfl⟩ | ⟨-, hu'⟩
      · exact Nat.lt_succ_self _
      · exact Nat.lt_succ_of_lt (hk.pending_lt u i op' hu')
    · intro d hd
      have := hk.done_lt d hd
      exact ⟨Nat.lt_succ_of_lt this.1, Nat.lt_succ_of_lt this.2⟩
    · intro u w i op' op'' hu hw
      rcases hopen u i op' hu with ⟨rfl, hi⟩ | ⟨-, hu'⟩ <;>
        rcases hopen w i op'' hw with ⟨rfl, hi'⟩ | ⟨-, hw'⟩
      · rfl
      · have := hk.pending_lt w i op'' hw'; omega
      · have := hk.pending_lt u i op' hu'; omega
      · exact hk.pending_inj u w i op' op'' hu' hw'
    · intro u i op' hu d hd
      rcases hopen u i op' hu with ⟨-, rfl⟩ | ⟨-, hu'⟩
      · exact Nat.ne_of_lt (hk.done_lt d hd).1
      · exact hk.pending_done u i op' hu' d hd
    · exact hk.done_nodup
  | ret t rep =>
    cases hopen : k.pending t with
    -- a return without a call: only the time moves on
    | none =>
      simp only [Track.next, hopen]
      exact ⟨fun u i op hu => Nat.lt_succ_of_lt (hk.pending_lt u i op hu),
        fun d hd => ⟨Nat.lt_succ_of_lt (hk.done_lt d hd).1, Nat.lt_succ_of_lt (hk.done_lt d hd).2⟩,
        hk.pending_inj, hk.pending_done, hk.done_nodup⟩
    | some x =>
      obtain ⟨i, op⟩ := x
      simp only [Track.next, hopen]
      have hold : ∀ u j op', Function.update k.pending t none u = some (j, op') →
          u ≠ t ∧ k.pending u = some (j, op') := by
        intro u j op' hu
        by_cases hut : u = t
        · subst hut
          rw [Function.update_self] at hu
          cases hu
        · rw [Function.update_of_ne hut] at hu
          exact ⟨hut, hu⟩
      constructor
      · intro u j op' hu
        exact Nat.lt_succ_of_lt (hk.pending_lt u j op' (hold u j op' hu).2)
      · intro d hd
        rcases List.mem_append.mp hd with hd | hd
        · exact ⟨Nat.lt_succ_of_lt (hk.done_lt d hd).1, Nat.lt_succ_of_lt (hk.done_lt d hd).2⟩
        · rw [List.mem_singleton.mp hd]
          exact ⟨Nat.lt_succ_of_lt (hk.pending_lt t i op hopen), Nat.lt_succ_self _⟩
      · intro u w j op' op'' hu hw
        exact hk.pending_inj u w j op' op'' (hold u j op' hu).2 (hold w j op'' hw).2
      · intro u j op' hu d hd
        obtain ⟨hut, hu'⟩ := hold u j op' hu
        rcases List.mem_append.mp hd with hd | hd
        · exact hk.pending_done u j op' hu' d hd
        · rw [List.mem_singleton.mp hd]
          rintro rfl
          exact hut (hk.pending_inj u t _ op' op hu' hopen)
      · rw [List.map_append, List.nodup_append]
        refine ⟨hk.done_nodup, List.nodup_singleton _, ?_⟩
        rintro a ha b hb rfl
        obtain ⟨d, hd, rfl⟩ := List.mem_map.mp ha
        exact hk.pending_done t i op hopen d hd (List.mem_singleton.mp hb)

theorem trackOk_track (h : List (Visible T Op Rep)) : TrackOk (track h) := by
  induction h using List.reverseRecOn with
  | nil => exact trackOk_init
  | append_singleton h v ih => rw [track_snoc]; exact ih.next v

/-- A call in a linearization is older than the present. -/
theorem IsLinearization.lt_now {obj : Obj St Op Rep} {h : List (Visible T Op Rep)} {st : St}
    {lin : List (Placed Op Rep)} (hl : IsLinearization obj h st lin) {x : Placed Op Rep}
    (hx : x ∈ lin) : x.1 < (track h).now := by
  rcases hl.sound x hx with ⟨d, hd, rfl⟩ | ⟨t, ht⟩
  · exact ((trackOk_track h).done_lt d hd).1
  · exact (trackOk_track h).pending_lt t _ _ ht

/-- When no request is under way, the order contains exactly the completed
requests. -/
theorem IsLinearization.perm {obj : Obj St Op Rep} {h : List (Visible T Op Rep)} {st : St}
    {lin : List (Placed Op Rep)} (hl : IsLinearization obj h st lin)
    (hq : ∀ t, (track h).pending t = none) :
    lin.Perm ((track h).done.map Done.placed) := by
  have hfst : ((track h).done.map Done.placed).map (·.1) = (track h).done.map (·.start) := by
    rw [List.map_map]
    rfl
  refine (List.perm_ext_iff_of_nodup hl.nodup.of_map ?_).mpr fun x => ?_
  · refine List.Nodup.of_map (·.1) ?_
    rw [hfst]
    exact (trackOk_track h).done_nodup
  · constructor
    · intro hx
      rcases hl.sound x hx with ⟨d, hd, rfl⟩ | ⟨t, ht⟩
      · exact List.mem_map_of_mem hd
      · rw [hq t] at ht
        cases ht
    · intro hx
      obtain ⟨d, hd, rfl⟩ := List.mem_map.mp hx
      exact hl.complete d hd

/-! ## The rule -/

/-- A linearization that also knows where every thread is: a request before its
point is not in the order, one past its point is, with its reply. -/
structure Explained (obj : Obj St Op Rep) (h : List (Visible T Op Rep)) (st : St)
    (status : T → Status Op Rep) (lin : List (Placed Op Rep)) : Prop where
  isLin : IsLinearization obj h st lin
  idle : ∀ t, status t = .idle → (track h).pending t = none
  before : ∀ t op, status t = .before op →
    ∃ i, (track h).pending t = some (i, op) ∧ i ∉ lin.map (·.1)
  after : ∀ t rep, status t = .after rep →
    ∃ i op, (track h).pending t = some (i, op) ∧ (i, op, rep) ∈ lin

theorem explained_nil (obj : Obj St Op Rep) :
    Explained (T := T) obj [] obj.init (fun _ => .idle) [] := by
  refine ⟨⟨rfl, List.nodup_nil, ?_, ?_, ?_⟩, fun _ _ => rfl, ?_, ?_⟩ <;>
    simp [track, Track.init]

theorem Explained.call {obj : Obj St Op Rep} {h : List (Visible T Op Rep)} {st : St}
    {status : T → Status Op Rep} {lin : List (Placed Op Rep)} {t : T} (op : Op)
    (he : Explained obj h st status lin) (ht : status t = .idle) :
    Explained obj (h ++ [.call t op]) st (Function.update status t (.before op)) lin := by
  have hnone := he.idle t ht
  have hpend : ∀ u, u ≠ t →
      (track (h ++ [.call t op])).pending u = (track h).pending u := by
    intro u hu
    rw [track_snoc]
    exact Function.update_of_ne hu ..
  have hself : (track (h ++ [(.call t op : Visible T Op Rep)])).pending t =
      some ((track h).now, op) := by
    rw [track_snoc]
    exact Function.update_self ..
  have hdone : (track (h ++ [Visible.call t op])).done = (track h).done := by
    rw [track_snoc]
    rfl
  constructor
  · constructor
    · exact he.isLin.legal
    · exact he.isLin.nodup
    · rw [hdone]; exact he.isLin.complete
    · intro x hx
      rw [hdone]
      rcases he.isLin.sound x hx with hd | ⟨u, hu⟩
      · exact Or.inl hd
      · refine Or.inr ⟨u, ?_⟩
        -- a thread with a call under way is not the idle one
        rw [hpend u (by rintro rfl; rw [hnone] at hu; cases hu)]
        exact hu
    · rw [hdone]; exact he.isLin.order
  · intro u hu
    by_cases hut : u = t
    · subst hut; rw [Function.update_self] at hu; cases hu
    · rw [Function.update_of_ne hut] at hu
      rw [hpend u hut]
      exact he.idle u hu
  · intro u op' hu
    by_cases hut : u = t
    · subst hut
      rw [Function.update_self] at hu
      cases hu
      -- every call of the order began before now
      refine ⟨(track h).now, hself, fun hmem => ?_⟩
      obtain ⟨x, hx, hxn⟩ := List.mem_map.mp hmem
      exact absurd (he.isLin.lt_now hx) (by rw [hxn]; exact Nat.lt_irrefl _)
    · rw [Function.update_of_ne hut] at hu
      rw [hpend u hut]
      exact he.before u op' hu
  · intro u rep hu
    by_cases hut : u = t
    · subst hut; rw [Function.update_self] at hu; cases hu
    · rw [Function.update_of_ne hut] at hu
      rw [hpend u hut]
      exact he.after u rep hu

theorem Explained.ret {obj : Obj St Op Rep} {h : List (Visible T Op Rep)} {st : St}
    {status : T → Status Op Rep} {lin : List (Placed Op Rep)} {t : T} {rep : Rep}
    (he : Explained obj h st status lin) (ht : status t = .after rep) :
    Explained obj (h ++ [.ret t rep]) st (Function.update status t .idle) lin := by
  obtain ⟨i, op, hi, hmem⟩ := he.after t rep ht
  have hnext : (track h).next (.ret t rep) =
      ⟨(track h).now + 1, Function.update (track h).pending t none,
        (track h).done ++ [⟨i, (track h).now, t, op, rep⟩]⟩ := by
    simp only [Track.next, hi]
  have hpend : ∀ u, u ≠ t →
      (track (h ++ [.ret t rep])).pending u = (track h).pending u := by
    intro u hu
    rw [track_snoc, hnext]
    exact Function.update_of_ne hu ..
  have hdone : (track (h ++ [Visible.ret t rep])).done =
      (track h).done ++ [⟨i, (track h).now, t, op, rep⟩] := by
    rw [track_snoc, hnext]
  constructor
  · constructor
    · exact he.isLin.legal
    · exact he.isLin.nodup
    · intro d hd
      rw [hdone] at hd
      rcases List.mem_append.mp hd with hd | hd
      · exact he.isLin.complete d hd
      · rw [List.mem_singleton.mp hd]; exact hmem
    · intro x hx
      rw [hdone]
      rcases he.isLin.sound x hx with ⟨d, hd, hdx⟩ | ⟨u, hu⟩
      · exact Or.inl ⟨d, List.mem_append_left _ hd, hdx⟩
      · by_cases hut : u = t
        · -- the request that returns: its place in the order is unique
          subst hut
          rw [hi] at hu
          have hxi : x.1 = i := (congrArg Prod.fst (Option.some.inj hu)).symm
          have hx' : x = (i, op, rep) :=
            List.inj_on_of_nodup_map he.isLin.nodup hx hmem hxi
          exact Or.inl ⟨_, List.mem_append_right _ (List.mem_singleton_self _), hx'.symm⟩
        · exact Or.inr ⟨u, (hpend u hut).trans hu⟩
    · intro d hd x hx hlt
      rw [hdone] at hd
      rcases List.mem_append.mp hd with hd | hd
      · exact he.isLin.order d hd x hx hlt
      · rw [List.mem_singleton.mp hd] at hlt
        -- no call of the order begins after this return
        exact absurd (he.isLin.lt_now hx) (Nat.not_lt_of_gt hlt)
  · intro u hu
    by_cases hut : u = t
    · subst hut
      rw [track_snoc, hnext]
      exact Function.update_self ..
    · rw [Function.update_of_ne hut] at hu
      rw [hpend u hut]
      exact he.idle u hu
  · intro u op' hu
    by_cases hut : u = t
    · subst hut; rw [Function.update_self] at hu; cases hu
    · rw [Function.update_of_ne hut] at hu
      rw [hpend u hut]
      exact he.before u op' hu
  · intro u rep' hu
    by_cases hut : u = t
    · subst hut; rw [Function.update_self] at hu; cases hu
    · rw [Function.update_of_ne hut] at hu
      rw [hpend u hut]
      exact he.after u rep' hu

/-- The point of a request: it joins the order at the end. -/
theorem Explained.point {obj : Obj St Op Rep} {h : List (Visible T Op Rep)} {st : St}
    {status : T → Status Op Rep} {lin : List (Placed Op Rep)} {t : T} {op : Op}
    (he : Explained obj h st status lin) (ht : status t = .before op) :
    ∃ lin', Explained obj h (obj.exec op st).2
      (Function.update status t (.after (obj.exec op st).1)) lin' := by
  obtain ⟨i, hi, hnot⟩ := he.before t op ht
  refine ⟨lin ++ [(i, op, (obj.exec op st).1)], ?_⟩
  constructor
  · constructor
    · rw [List.map_append, List.map_singleton, Obj.replay_snoc, he.isLin.legal]
      simp
    · rw [List.map_append, List.nodup_append]
      refine ⟨he.isLin.nodup, List.nodup_singleton _, ?_⟩
      rintro a ha b hb rfl
      rw [List.mem_singleton.mp hb] at ha
      exact hnot ha
    · exact fun d hd => List.mem_append_left _ (he.isLin.complete d hd)
    · intro x hx
      rcases List.mem_append.mp hx with hx | hx
      · exact he.isLin.sound x hx
      · rw [List.mem_singleton.mp hx]
        exact Or.inr ⟨t, hi⟩
    · intro d hd x hx hlt
      rw [List.map_append]
      rcases List.mem_append.mp hx with hx | hx
      · exact (he.isLin.order d hd x hx hlt).trans (List.sublist_append_left ..)
      · rw [List.mem_singleton.mp hx]
        -- whatever has returned is in front already
        have hmem : d.start ∈ lin.map (·.1) := List.mem_map.mpr ⟨_, he.isLin.complete d hd, rfl⟩
        exact (List.singleton_sublist.mpr hmem).append (List.Sublist.refl _)
  · intro u hu
    by_cases hut : u = t
    · subst hut; rw [Function.update_self] at hu; cases hu
    · rw [Function.update_of_ne hut] at hu
      exact he.idle u hu
  · intro u op' hu
    by_cases hut : u = t
    · subst hut; rw [Function.update_self] at hu; cases hu
    · rw [Function.update_of_ne hut] at hu
      obtain ⟨j, hj, hnot'⟩ := he.before u op' hu
      refine ⟨j, hj, fun hmem => ?_⟩
      rw [List.map_append] at hmem
      rcases List.mem_append.mp hmem with hmem | hmem
      · exact hnot' hmem
      · have hji : j = i := List.mem_singleton.mp hmem
        subst hji
        exact hut ((trackOk_track h).pending_inj u t j op' op hj hi)
  · intro u rep hu
    by_cases hut : u = t
    · subst hut
      rw [Function.update_self] at hu
      cases hu
      exact ⟨i, op, hi, List.mem_append_right _ (List.mem_singleton_self _)⟩
    · rw [Function.update_of_ne hut] at hu
      obtain ⟨j, op', hj, hmem⟩ := he.after u rep hu
      exact ⟨j, op', hj, List.mem_append_left _ hmem⟩

/-- The calls and returns of a run. -/
def Machine.history {S A : Type} (M : Machine S A) (view : S → A → Option (Visible T Op Rep))
    (tr : List A) : List (Visible T Op Rep) :=
  M.log (fun s a => (view s a).toList) tr

/-- Linearizability from linearization points. `C` restricts the steps of the
run; the last three hypotheses are the three kinds of step, in a reachable
state. -/
theorem linearizable_of_points {S A : Type} (M : Machine S A) (obj : Obj St Op Rep)
    (view : S → A → Option (Visible T Op Rep)) (abs : S → St)
    (status : S → T → Status Op Rep) (C : S → A → Prop)
    (habs : abs M.init = obj.init) (hidle : status M.init = fun _ => .idle)
    (hcall : ∀ tr s a s' t op, M.run tr = some s → C s a → M.step s a = some s' →
      view s a = some (.call t op) → status s t = .idle ∧
        status s' = Function.update (status s) t (.before op) ∧ abs s' = abs s)
    (hret : ∀ tr s a s' t rep, M.run tr = some s → C s a → M.step s a = some s' →
      view s a = some (.ret t rep) → status s t = .after rep ∧
        status s' = Function.update (status s) t .idle ∧ abs s' = abs s)
    (hquiet : ∀ tr s a s', M.run tr = some s → C s a → M.step s a = some s' →
      view s a = none → (status s' = status s ∧ abs s' = abs s) ∨
        ∃ t op, status s t = .before op ∧
          status s' = Function.update (status s) t (.after (obj.exec op (abs s)).1) ∧
          abs s' = (obj.exec op (abs s)).2)
    {tr : List A} {s : S} (hC : M.Meets C tr) (hrun : M.run tr = some s) :
    ∃ lin, Explained obj (M.history view tr) (abs s) (status s) lin := by
  refine M.run_invariant_of_meets (C := C)
    (I := fun tr s => ∃ lin, Explained obj (M.history view tr) (abs s) (status s) lin)
    ?_ ?_ tr s hC hrun
  · rw [habs, hidle]
    exact ⟨[], explained_nil obj⟩
  · rintro tr s a s' hr ha ⟨lin, he⟩ hstep
    unfold Machine.history at he ⊢
    rw [M.log_snoc _ hr hstep]
    cases hv : view s a with
    | none =>
      rw [Option.toList_none, List.append_nil]
      -- a step that nobody sees may be the point of one request
      rcases hquiet tr s a s' hr ha hstep hv with ⟨hs, ha'⟩ | ⟨t, op, hs, hs', ha'⟩
      · rw [hs, ha']; exact ⟨lin, he⟩
      · rw [hs', ha']; exact he.point hs
    | some v =>
      rw [Option.toList_some]
      cases v with
      | call t op =>
        obtain ⟨h1, h2, h3⟩ := hcall tr s a s' t op hr ha hstep hv
        rw [h2, h3]
        exact ⟨lin, he.call op h1⟩
      | ret t rep =>
        obtain ⟨h1, h2, h3⟩ := hret tr s a s' t rep hr ha hstep hv
        rw [h2, h3]
        exact ⟨lin, he.ret h1⟩

end Track

end Conc
