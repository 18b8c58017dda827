import Ems.Jobs.Finish
import Ems.Jobs.OutFile
import Ems.Jobs.Results

/-!
# What all calls have done

What the calls of a run have done, in terms of the calls alone, once they have all returned.
The changes that have succeeded make the list, one after the other, in the order of the
ledger; the texts that have been printed make the file, one behind the other, and each is the
text of the list which a beginning of the changes makes; every result is one that the call
has on such a list (`Explained`). Where the calls are cut in two by a moment at which all of
them had returned, so is the explanation (`run_explained`).
-/

namespace Ems.Jobs

namespace Programs

open Conc Conc.Program

variable {T : Type} [DecidableEq T]

section Steps

variable {tr : List (Crew.Act T Op Choice)} {s s' : State T} {a : Crew.Act T Op Choice}

omit [DecidableEq T] in
/-- What is complete is the call of the thread. -/
theorem mem_commits [DecidableEq T] {x : Nat × Op} (hx : x ∈ commits s a) :
    ∃ r, s.thread a.who = some r ∧ r.no = x.1 ∧ r.call = x.2 := by
  cases a with
  | step t y =>
    simp only [commits] at hx
    split at hx
    next n c next ht =>
      split at hx
      · rw [List.mem_singleton.mp hx]
        exact ⟨_, ht, rfl, rfl⟩
      · exact absurd hx List.not_mem_nil
    next n c event next ht =>
      split at hx
      · rw [List.mem_singleton.mp hx]
        exact ⟨_, ht, rfl, rfl⟩
      · exact absurd hx List.not_mem_nil
    next => exact absurd hx List.not_mem_nil
  | _ => exact absurd hx List.not_mem_nil

/-- What is in the ledger has been called under its number. -/
theorem run_ledger_called (hrun : (machine T).run tr = some s) :
    ∀ x ∈ ledger tr, (Crew.called tr)[x.1]? = some x.2 := by
  refine (machine T).run_invariant
    (I := fun tr _ => ∀ x ∈ ledger tr, (Crew.called tr)[x.1]? = some x.2)
    (fun _ h => absurd h List.not_mem_nil) (fun tr s a s' hs hi h x hx => ?_) tr s hrun
  rw [ledger_snoc hs h] at hx
  rcases List.mem_append.mp hx with hold | hnew
  · exact Crew.getElem?_called_append (hi x hold) _
  · obtain ⟨r, hr, hno, hcall⟩ := mem_commits hnew
    rw [← hno, ← hcall]
    exact Crew.getElem?_called_append ((Crew.run_listed hs).running _ r hr) _

end Steps

variable {tr : List (Crew.Act T Op Choice)} {s : State T}

/-- When all calls have returned, those in the ledger are the changes that have
succeeded. -/
theorem ledger_perm (hrun : (machine T).run tr = some s) (hback : ∀ t, s.thread t = none) :
    (ledger tr).Perm (((returns tr).filter fun x => x.2.1.changes && x.2.2 == 0).map
      fun x => (x.1, x.2.1)) := by
  obtain ⟨cur, hi⟩ := run_booked hrun
  have hlisted := Crew.run_listed hrun
  have hnum := Crew.run_numbered hrun
  have hnodup : (((returns tr).filter fun x => x.2.1.changes && x.2.2 == 0).map
      fun x => (x.1, x.2.1)).Nodup := by
    refine List.Nodup.of_map Prod.fst ?_
    rw [List.map_map]
    exact (List.filter_sublist.map _).nodup hnum.nodup
  refine (List.perm_ext_iff_of_nodup hi.nodup.of_map hnodup).mpr fun x => ?_
  simp only [List.mem_map, List.mem_filter, Bool.and_eq_true, beq_iff_eq]
  constructor
  · intro hx
    -- the call has returned, with the same operation
    have hcalled := run_ledger_called hrun x hx
    rcases hlisted.made x.1 (hi.fresh x hx) with ⟨t, r, ht, -⟩ | hret
    · rw [hback t] at ht
      cases ht
    · obtain ⟨y, hy, hyx⟩ := List.mem_map.mp hret
      have hsame := hlisted.ended y hy
      rw [hyx, hcalled] at hsame
      have hpair : (y.1, y.2.1) = x := Prod.ext hyx (Option.some.inj hsame).symm
      exact ⟨y, ⟨hy, (hi.ended y hy).mp (by rw [hpair]; exact hx)⟩, hpair⟩
  · rintro ⟨y, ⟨hy, hok⟩, rfl⟩
    exact (hi.ended y hy).mpr hok

/-- While `event_Lock` is free the list is what the ledger makes. -/
theorem list_of_free (hrun : (machine T).run tr = some s) (hfree : ∀ t, s.held t .event = none) :
    s.store.list = made ((ledger tr).map (·.2)) := by
  refine list_of_idle hrun fun cur hi => ?_
  by_contra hcur
  obtain ⟨⟨u, o⟩, hcur⟩ := Option.ne_none_iff_exists'.mp hcur
  have hw := hi.current.event u o hcur
  rw [hfree u] at hw
  cases hw

/-! ## The texts -/

theorem listText_congr {list list' : EventList}
    (h : list.map Event.shape = list'.map Event.shape) : listText list = listText list' := by
  have hids : list.map (·.id) = list'.map (·.id) := by
    have hmap := congrArg (List.map (·.1)) h
    rwa [List.map_map, List.map_map] at hmap
  have hlines : ∀ l : EventList, l.flatMap (fun event => Client.idLine event.id) =
      (l.map (·.id)).flatMap Client.idLine := fun l => by rw [List.flatMap_map]
  have hnil : list = [] ↔ list' = [] := by
    rw [← List.map_eq_nil_iff (f := fun e : Event => e.id), hids, List.map_eq_nil_iff]
  unfold listText
  rw [hlines, hlines, hids]
  by_cases hl : list = []
  · rw [if_pos hl, if_pos (hnil.mp hl)]
  · rw [if_neg hl, if_neg fun hl' => hl (hnil.mpr hl')]

/-- The text of a list that a call has seen is that of the list which the ledger makes at
that moment. -/
theorem Seen.made {n : Nat} {c : Op} {list : EventList} (hc : c.prints = true)
    (h : Seen tr n c (some (c.source, .read)) list) :
    ∃ past, Moment tr n c past ∧ c.text list = c.text (made past) := by
  obtain ⟨before, after, s₀, t, p, rfl, hbefore, ht, rfl, hreader⟩ := h
  obtain ⟨cur, hi⟩ := run_booked hbefore
  have hmine := hreader _ _ rfl
  refine ⟨_, ⟨before, after, s₀, t, p, rfl, hbefore, ht, rfl⟩, ?_⟩
  rw [← replay_eq]
  cases c with
  | create => cases hc
  | reserve => cases hc
  | listEvents => exact listText_congr hi.current.shapes
  | showEvent id =>
    refine hi.current.text (fun u hu => ?_) id
    by_cases hut : u = t
    · rw [hut, show s₀.held t .seat = _ from hmine] at hu
      cases hu
    · have hnone := Crew.held_alone hu (Ne.symm hut)
      rw [show s₀.held t .seat = _ from hmine] at hnone
      cases hnone

theorem ledger_begins {before after : List (Crew.Act T Op Choice)} {s₀ : State T}
    (hrun : (machine T).run before = some s₀) : ledger before <+: ledger (before ++ after) := by
  unfold ledger
  rw [(machine T).log_append commits after hrun]
  exact List.prefix_append _ _

theorem returns_begins {before after : List (Crew.Act T Op Choice)} {s₀ : State T}
    (hrun : (machine T).run before = some s₀) : returns before <+: returns (before ++ after) := by
  unfold returns Crew.returns
  rw [(Crew.machine system ⟨createList, []⟩).log_append Crew.returned after hrun]
  exact List.prefix_append _ _

theorem closed_begins {before after : List (Crew.Act T Op Choice)} {s₀ : State T}
    (hrun : (machine T).run before = some s₀) : closed before <+: closed (before ++ after) := by
  unfold closed
  rw [(machine T).log_append closes after hrun]
  exact List.prefix_append _ _

/-- What a call has written when it has returned is all that it writes. -/
theorem written_append {before : List (Crew.Act T Op Choice)} {s₀ : State T}
    (hrun : (machine T).run before = some s₀) {n : Nat} (hn : n ∈ (returns before).map (·.1)) :
    ∀ {after s}, (machine T).run (before ++ after) = some s →
      written (before ++ after) n = written before n := by
  intro after
  induction after using List.reverseRecOn with
  | nil =>
    intro s _
    rw [List.append_nil]
  | append_singleton after a ih =>
    intro s' h
    rw [← List.append_assoc] at h ⊢
    obtain ⟨s, hs, hstep⟩ := (machine T).run_snoc.mp h
    refine (written_other hs hstep fun r hr heq => ?_).trans (ih hs)
    obtain ⟨x, hx, rfl⟩ := List.mem_map.mp hn
    exact ((Crew.run_numbered hs).ended x ((returns_begins hrun).subset hx)).2 _ r hr heq

/-! ## What has happened, in terms of the commands -/

/-- `results` are the results of `commands`, `changes` the changes among them and `shots`
what has been printed, with the changes that were there by then; together they explain the
store. Every command has the result that it has on the list which a beginning of the changes
makes. -/
structure Explained (commands : List Op) (store : Store) (results : List (Op × Nat))
    (changes : List Op) (shots : List (Op × List Op)) : Prop where
  each : (results.map (·.1)).Perm commands
  right : ∀ x ∈ results, ∃ past, past <+: changes ∧ x.1.result (made past) = x.2
  kept : changes.Perm ((results.filter fun x => x.1.changes && x.2 == 0).map (·.1))
  granted : ∀ front q, front ++ [.reserve q] <+: changes → (Jobs.emsReserve (made front) q).2 = 0
  list : store.list = made changes
  printed : (shots.map (·.1)).Perm ((results.filter fun x => x.1.prints && x.2 == 0).map (·.1))
  seen : ∀ x ∈ shots, x.2 <+: changes
  file : store.file = shots.flatMap fun x => x.1.text (made x.2)

theorem map_filter_results (p : Op × Nat → Bool) (l : List (Nat × Op × Nat)) :
    ((l.map (·.2)).filter p).map (·.1) = (l.filter fun x => p x.2).map (·.2.1) := by
  rw [List.filter_map, List.map_map]
  rfl

/-- A text: its call has returned, and the changes are those at a moment while it was under
way. -/
def Shot (tr : List (Crew.Act T Op Choice)) (n : Nat) (x : Op × List Op) : Prop :=
  (n, x.1, 0) ∈ returns tr ∧ x.1.prints = true ∧ written tr n = x.1.text (made x.2) ∧
    Moment tr n x.1 x.2

/-- Every text is one. -/
theorem exists_shot (hrun : (machine T).run tr = some s)
    (hok : (machine T).Meets (fun s a => ¬ Fails s a) tr) (hback : ∀ t, s.thread t = none)
    {n : Nat} (hn : n ∈ closed tr) : ∃ x, Shot tr n x := by
  have hw : Watched False tr s := run_watched hrun fun _ => hok
  obtain ⟨y, hy, rfl⟩ := List.mem_map.mp ((closed_perm hrun hw (run_filed hrun hok) hback).subset hn)
  obtain ⟨hy, hprint⟩ := List.mem_filter.mp hy
  simp only [Bool.and_eq_true, beq_iff_eq] at hprint
  obtain ⟨reader, list, hseen, -, -, hall, -⟩ := hw.ended _ hy
  obtain ⟨htext, -, rfl⟩ := hall hprint.1 hprint.2
  obtain ⟨past, hpast, hsame⟩ := hseen.made hprint.1
  refine ⟨(y.2.1, past), ?_, hprint.1, htext.trans hsame, hpast⟩
  rw [← hprint.2]
  exact hy

/-- The calls of the texts are the successful ones among those that print. -/
theorem shots_perm (hrun : (machine T).run tr = some s)
    (hok : (machine T).Meets (fun s a => ¬ Fails s a) tr) (hback : ∀ t, s.thread t = none)
    {shot : Nat → Op × List Op} (hshot : ∀ n ∈ closed tr, (n, (shot n).1, 0) ∈ returns tr) :
    (((closed tr).map shot).map (·.1)).Perm
      ((((returns tr).map (·.2)).filter fun x => x.1.prints && x.2 == 0).map (·.1)) := by
  have hperm := closed_perm hrun (run_watched hrun fun _ => hok) (run_filed hrun hok) hback
  rw [map_filter_results, List.map_map]
  have hcalls := hperm.map (Prod.fst ∘ shot)
  have hsame : (Programs.printed tr).map (Prod.fst ∘ shot) =
      ((returns tr).filter fun x => x.2.1.prints && x.2.2 == 0).map (·.2.1) := by
    unfold Programs.printed
    rw [List.map_map]
    refine List.map_congr_left fun x hx => ?_
    have hn : x.1 ∈ closed tr := hperm.symm.subset (List.mem_map_of_mem hx)
    -- one number, one call
    have hcall := (Crew.run_listed hrun).ended _ (hshot x.1 hn)
    rw [(Crew.run_listed hrun).ended x (List.mem_of_mem_filter hx)] at hcall
    exact (Option.some.inj hcall).symm
  rw [← hsame]
  exact hcalls

/-- What a call has seen is a beginning of what there is. -/
theorem Moment.begins {n : Nat} {c : Op} {past : List Op} (h : Moment tr n c past) :
    past <+: (ledger tr).map (·.2) := by
  obtain ⟨before, after, s₀, t, p, rfl, hbefore, -, rfl⟩ := h
  exact (ledger_begins hbefore).map _

/-- What explains the store of a run without failures, when all calls have returned. -/
theorem explained_of_shots (hrun : (machine T).run tr = some s)
    (hok : ∀ t x, Crew.Act.step t x ∈ tr → x.ok = true) (hback : ∀ t, s.thread t = none)
    (hfree : ∀ t, s.held t .event = none) {shot : Nat → Op × List Op}
    (hshot : ∀ n ∈ closed tr, (n, (shot n).1, 0) ∈ returns tr ∧
      (shot n).2 <+: (ledger tr).map (·.2) ∧ written tr n = (shot n).1.text (made (shot n).2)) :
    Explained (Crew.called tr) s.store ((returns tr).map (·.2)) ((ledger tr).map (·.2))
      ((closed tr).map shot) where
  each := by
    rw [List.map_map]
    exact Crew.returns_perm hrun hback
  right := by
    intro x hx
    obtain ⟨y, hy, rfl⟩ := List.mem_map.mp hx
    obtain ⟨past, hpast, hres⟩ := (run_tried hrun hok).ended y hy
    exact ⟨past, hpast.begins, hres⟩
  kept := by
    rw [map_filter_results]
    have hledger := (ledger_perm hrun hback).map Prod.snd
    rwa [List.map_map] at hledger
  granted := run_granted hrun
  list := list_of_free hrun hfree
  printed := shots_perm hrun (meets_of_ok hok) hback fun n hn => (hshot n hn).1
  seen := by
    intro x hx
    obtain ⟨n, hn, rfl⟩ := List.mem_map.mp hx
    exact (hshot n hn).2.1
  file := by
    have hw : Watched False tr s := run_watched hrun fun _ => meets_of_ok hok
    rw [(run_filed hrun (meets_of_ok hok)).free fun t => hw.free (hback t) .file, texts,
      List.flatMap_map]
    exact List.flatMap_congr fun n hn => (hshot n hn).2.2

/-! ## Two moments -/

section Moments

variable {before after : List (Crew.Act T Op Choice)} {s₀ : State T} {n : Nat}

/-- A call that had not returned at a moment when nobody was in a call has been made behind
it, and has seen all the changes there were. -/
theorem Moment.behind {c : Op} {past : List Op} (h : Moment (before ++ after) n c past)
    (hbefore : (machine T).run before = some s₀) (hback : ∀ t, s₀.thread t = none)
    (hnew : n ∉ (returns before).map (·.1)) : (ledger before).map (·.2) <+: past := by
  obtain ⟨front, back, s₁, t, p, htr, hfront, ht, rfl⟩ := h
  rcases List.append_eq_append_iff.mp htr with ⟨between, rfl, -⟩ | ⟨between, rfl, -⟩
  · exact (ledger_begins hbefore).map _
  · exfalso
    have hmade : Crew.Made system ⟨createList, []⟩ (front ++ between) s₀ n :=
      Crew.made_append hfront (.inl ⟨t, _, ht, rfl⟩) hbefore
    rcases hmade with ⟨u, r, hu, -⟩ | hgone
    · rw [hback u] at hu
      cases hu
    · exact hnew hgone

/-- A call that prints and has returned by then has printed by then. -/
theorem Shot.closed {x : Op × List Op} (h : Shot (before ++ after) n x)
    (hbefore : (machine T).run before = some s₀) (hrun : (machine T).run (before ++ after) = some s)
    (hok : (machine T).Meets (fun s a => ¬ Fails s a) before) (hback : ∀ t, s₀.thread t = none)
    (hn : n ∈ (returns before).map (·.1)) : n ∈ closed before := by
  obtain ⟨hret, hprint, -, -⟩ := h
  obtain ⟨y, hy, hyn⟩ := List.mem_map.mp hn
  have hsame : y = (n, x.1, 0) :=
    Crew.returns_unique hrun ((returns_begins hbefore).subset hy) hret hyn
  have hperm := closed_perm hbefore (run_watched hbefore fun _ => hok) (run_filed hbefore hok) hback
  refine hperm.symm.subset (List.mem_map.mpr ⟨y, List.mem_filter.mpr ⟨hy, ?_⟩, hyn⟩)
  rw [hsame]
  simp [hprint]

/-- The texts of a run and those of a beginning of it. -/
theorem exists_shots (hbefore : (machine T).run before = some s₀)
    (hback₀ : ∀ t, s₀.thread t = none) (hrun : (machine T).run (before ++ after) = some s)
    (hok : (machine T).Meets (fun s a => ¬ Fails s a) (before ++ after))
    (hback : ∀ t, s.thread t = none) :
    ∃ shot : Nat → Op × List Op, (∀ n ∈ closed before, Shot before n (shot n)) ∧
      ∀ n ∈ closed (before ++ after), n ∉ closed before → Shot (before ++ after) n (shot n) := by
  have hshots : ∀ n, ∃ x, (n ∈ closed before → Shot before n x) ∧
      (n ∈ closed (before ++ after) → n ∉ closed before → Shot (before ++ after) n x) := by
    intro n
    by_cases hn : n ∈ closed before
    · obtain ⟨x, hx⟩ := exists_shot hbefore hok.of_append hback₀ hn
      exact ⟨x, fun _ => hx, fun _ h => absurd hn h⟩
    · by_cases hn' : n ∈ closed (before ++ after)
      · obtain ⟨x, hx⟩ := exists_shot hrun hok hback hn'
        exact ⟨x, fun h => absurd h hn, fun _ _ => hx⟩
      · exact ⟨(.listEvents, []), fun h => absurd h hn, fun h => absurd h hn'⟩
  choose shot hold hnew using hshots
  exact ⟨shot, hold, hnew⟩

/-- **Every run** without failures, when all calls have returned, and at an earlier moment
when they had, too: what happened by then explains the store at that moment, and with what
happened later it explains the store in the end. Whatever was done later was done with all
the earlier changes there. -/
theorem run_explained (hbefore : (machine T).run before = some s₀)
    (hback₀ : ∀ t, s₀.thread t = none) (hfree₀ : ∀ t, s₀.held t .event = none)
    (hrun : (machine T).run (before ++ after) = some s)
    (hok : ∀ t x, Crew.Act.step t x ∈ before ++ after → x.ok = true)
    (hback : ∀ t, s.thread t = none) (hfree : ∀ t, s.held t .event = none) :
    ∃ results' changes changes' shots shots',
      (returns (before ++ after)).map (·.2) = (returns before).map (·.2) ++ results' ∧
      Explained (Crew.called before) s₀.store ((returns before).map (·.2)) changes shots ∧
      Explained (Crew.called (before ++ after)) s.store ((returns before).map (·.2) ++ results')
        (changes ++ changes') (shots ++ shots') ∧
      (∀ x ∈ results', ∃ past, changes <+: past ∧ past <+: changes ++ changes' ∧
        x.1.result (made past) = x.2) ∧
      ∀ x ∈ shots', changes <+: x.2 := by
  have hok₀ : ∀ t x, Crew.Act.step t x ∈ before → x.ok = true := fun t x hx =>
    hok t x (List.mem_append_left _ hx)
  obtain ⟨shot, hold, hnew⟩ := exists_shots hbefore hback₀ hrun (meets_of_ok hok) hback
  have hledger : ledger before <+: ledger (before ++ after) := ledger_begins hbefore
  have hreturns : returns before <+: returns (before ++ after) := returns_begins hbefore
  have hclosed : closed before <+: closed (before ++ after) := closed_begins hbefore
  have hfirst : ∀ n ∈ closed before, (n, (shot n).1, 0) ∈ returns before ∧
      (shot n).2 <+: (ledger before).map (·.2) ∧
      written before n = (shot n).1.text (made (shot n).2) := by
    intro n hn
    obtain ⟨hret, -, htext, hpast⟩ := hold n hn
    exact ⟨hret, hpast.begins, htext⟩
  have hall : ∀ n ∈ closed (before ++ after), (n, (shot n).1, 0) ∈ returns (before ++ after) ∧
      (shot n).2 <+: (ledger (before ++ after)).map (·.2) ∧
      written (before ++ after) n = (shot n).1.text (made (shot n).2) := by
    intro n hn
    by_cases hb : n ∈ closed before
    · obtain ⟨hret, hops, htext⟩ := hfirst n hb
      refine ⟨hreturns.subset hret, hops.trans (hledger.map _), ?_⟩
      rw [written_append hbefore (List.mem_map_of_mem hret) hrun]
      exact htext
    · obtain ⟨hret, -, htext, hpast⟩ := hnew n hn hb
      exact ⟨hret, hpast.begins, htext⟩
  have hexplained := explained_of_shots hrun hok hback hfree hall
  have hnumbers := (Crew.run_numbered hrun).nodup
  have htexts := (run_filed hrun (meets_of_ok hok)).nodup
  obtain ⟨moreLedger, hmoreLedger⟩ := hledger
  obtain ⟨moreReturns, hmoreReturns⟩ := hreturns
  obtain ⟨moreClosed, hmoreClosed⟩ := hclosed
  rw [← hmoreClosed] at htexts
  rw [show Crew.returns system ⟨createList, []⟩ (before ++ after) = _ from hmoreReturns.symm,
    List.map_append] at hnumbers
  rw [← hmoreLedger, ← hmoreReturns, ← hmoreClosed, List.map_append, List.map_append,
    List.map_append] at hexplained
  refine ⟨_, _, _, _, _, by rw [← hmoreReturns, List.map_append],
    explained_of_shots hbefore hok₀ hback₀ hfree₀ hfirst, hexplained, ?_, ?_⟩
  · intro x hx
    obtain ⟨y, hy, rfl⟩ := List.mem_map.mp hx
    obtain ⟨past, hpast, hres⟩ := (run_tried hrun hok).ended y
      (by rw [← hmoreReturns]; exact List.mem_append_right _ hy)
    refine ⟨past, hpast.behind hbefore hback₀ fun hmem => ?_, ?_, hres⟩
    · exact (List.nodup_append.mp hnumbers).2.2 _ hmem _ (List.mem_map_of_mem hy) rfl
    · have hpre := hpast.begins
      rwa [← hmoreLedger, List.map_append] at hpre
  · intro x hx
    obtain ⟨n, hn, rfl⟩ := List.mem_map.mp hx
    have hfresh : n ∉ closed before := fun hmem =>
      (List.nodup_append.mp htexts).2.2 n hmem n hn rfl
    have hshot := hnew n (by rw [← hmoreClosed]; exact List.mem_append_right _ hn) hfresh
    exact hshot.2.2.2.behind hbefore hback₀ fun hmem =>
      hfresh (hshot.closed hbefore hrun (meets_of_ok hok₀) hback₀ hmem)

end Moments

end Programs

end Ems.Jobs
