import Ems.Jobs.Sequential
import Ems.Jobs.Snapshots

/-!
# The .out file

`file_Lock` is taken before the first byte of a text is written and given back behind the
last one, so the file is made of whole texts, one for each call that has given the lock
back, and of the beginning of one more while somebody holds it (`Filed`). When all calls
have returned nobody does.
-/

namespace Ems.Jobs.Programs

open Conc Conc.Program

variable {T : Type} [DecidableEq T]

/-- The texts of the calls that have given back the file. -/
def texts (tr : List (Crew.Act T Op Choice)) : List Char := (closed tr).flatMap (written tr)

/-- The file in a run without failures. -/
structure Filed (tr : List (Crew.Act T Op Choice)) (s : State T) : Prop where
  opened : ∀ t r, s.thread t = some r → s.held t .file ≠ none →
    s.store.file = texts tr ++ written tr r.no
  free : (∀ t, s.held t .file = none) → s.store.file = texts tr
  nodup : (closed tr).Nodup
  made : ∀ n ∈ closed tr, Crew.Made system ⟨createList, []⟩ tr s n

section Steps

variable {tr : List (Crew.Act T Op Choice)} {s s' : State T} {a : Crew.Act T Op Choice}
  {t : T} {n : Nat}

/-- Outside of all calls a thread holds nothing. -/
theorem Watched.free (hw : Watched False tr s) (ht : s.thread t = none) (l : Lock) :
    s.held t l = none := by
  obtain ⟨f, hheld, -, hf⟩ := hw.idle t ht
  rw [hheld, hf id]
  cases l <;> rfl

/-- Who holds the file is in a call. -/
theorem Watched.holder (hw : Watched False tr s) (hf : s.held t .file ≠ none) :
    ∃ r, s.thread t = some r := by
  cases ht : s.thread t with
  | none => exact absurd (hw.free ht .file) hf
  | some r => exact ⟨r, rfl⟩

/-- The file is held for writing, so by one thread only, and its call has not given it back
before. -/
theorem Under.holds {r : Running Lock Action Answer Nat Op} {m : Watch}
    (hm : Under False tr s t r m) (hf : s.held t .file ≠ none) :
    s.held t .file = some .write ∧ r.no ∉ closed tr := by
  rw [← hm.held] at hf ⊢
  rcases hm.file with hfile | ⟨hfile, hover⟩
  · exact absurd hfile hf
  · exact ⟨hfile, fun hmem => by rw [hm.ended.mpr hmem] at hover; cases hover⟩

/-- The texts that are there stay as they are. -/
theorem texts_snoc (hrun : (machine T).run tr = some s) (h : Crew.step system s a = some s')
    (hcl : closes s a = []) (hn : ∀ r, s.thread a.who = some r → r.no ∉ closed tr ∨
      written (tr ++ [a]) r.no = written tr r.no) : texts (tr ++ [a]) = texts tr := by
  unfold texts
  rw [closed_snoc hrun h, hcl, List.append_nil]
  refine List.flatMap_congr fun n hmem => ?_
  by_cases hmove : ∃ r, s.thread a.who = some r ∧ r.no = n
  · obtain ⟨r, hr, rfl⟩ := hmove
    exact (hn r hr).resolve_left fun hno => hno hmem
  · exact written_other hrun h fun r hr heq => hmove ⟨r, hr, heq⟩

/-- A step that has nothing to do with the file. -/
theorem Filed.quiet (hrun : (machine T).run tr = some s) (h : Crew.step system s a = some s')
    (hw : Watched False tr s) (hi : Filed tr s) (hcl : closes s a = [])
    (hwritten : ∀ n, n < s.calls → written (tr ++ [a]) n = written tr n)
    (hfile : s'.store.file = s.store.file)
    (hheld : ∀ t, s'.held t .file = s.held t .file)
    (hno : ∀ t r r', s.thread t = some r → s'.thread t = some r' → r'.no = r.no) :
    (∀ t r, s'.thread t = some r → s'.held t .file ≠ none →
      s'.store.file = texts (tr ++ [a]) ++ written (tr ++ [a]) r.no) ∧
    ((∀ t, s'.held t .file = none) → s'.store.file = texts (tr ++ [a])) := by
  have hnum := Crew.run_numbered hrun
  have htexts := texts_snoc hrun h hcl fun r hr => .inr (hwritten _ (hnum.running _ _ hr))
  rw [hfile, htexts]
  refine ⟨fun t r' ht hf => ?_, fun hfree => hi.free fun t => by rw [← hheld]; exact hfree t⟩
  rw [hheld] at hf
  obtain ⟨r, hr⟩ := hw.holder hf
  rw [hno t r r' hr ht, hwritten _ (hnum.running _ _ hr)]
  exact hi.opened t r hr hf

/-- Nothing is written. -/
theorem written_silent (hrun : (machine T).run tr = some s)
    (h : Crew.step system s a = some s') (hans : ∀ x ∈ Crew.answered system s a,
      piece x.2 = []) (n : Nat) : written (tr ++ [a]) n = written tr n := by
  unfold written
  rw [Crew.history_snoc hrun h, List.flatMap_append, List.append_right_eq_self,
    List.flatMap_eq_nil_iff]
  intro y hy
  obtain ⟨x, hx, heq⟩ := List.mem_filterMap.mp hy
  split at heq
  next => cases heq; exact hans x hx
  next => cases heq

/-- The file is taken: it was free, and the call has written nothing yet. -/
theorem filed_lock {n : Nat} {c : Op} {mode : Mode} {next : Code Nat} {k : RwLock T} {x : Choice}
    (hrun : (machine T).run tr = some s) (h : Crew.step system s (.step t x) = some s')
    (hs' : s' = { s with lock := Function.update s.lock .file k }.goto t (some ⟨n, c, next⟩))
    (ht : s.thread t = some ⟨n, c, .lock .file mode next⟩) (hk : (s.lock .file).take t mode = some k)
    (hw : Watched False tr s) (hi : Filed tr s) :
    (∀ u r, s'.thread u = some r → s'.held u .file ≠ none →
      s'.store.file = texts (tr ++ [.step t x]) ++ written (tr ++ [.step t x]) r.no) ∧
    ((∀ u, s'.held u .file = none) → s'.store.file = texts (tr ++ [.step t x])) := by
  obtain ⟨m, hm⟩ := hw.under _ _ ht
  obtain ⟨rfl, hempty, -⟩ := hm.rest
  have hsilent := written_silent hrun h (by simp [Crew.answered, ht])
  have htexts : texts (tr ++ [.step t x]) = texts tr :=
    texts_snoc hrun h (by simp [closes, ht]) fun r _ => .inr (hsilent _)
  have hnone : ∀ u, s.held u .file = none := RwLock.held_before_write hk
  have hfile : s'.store.file = texts (tr ++ [.step t x]) := by
    rw [hs', htexts]
    exact hi.free hnone
  refine ⟨fun u r hu hf => ?_, fun _ => hfile⟩
  by_cases hut : u = t
  · subst hut
    rw [hs', Crew.goto_self] at hu
    cases hu
    rw [hsilent, ← hm.written, hempty, List.append_nil]
    exact hfile
  · rw [(Crew.step_cases h).held_other hut] at hf
    exact absurd (hnone u) hf

/-- The file is given back: what the call has written is one more whole text. -/
theorem filed_unlock {n : Nat} {c : Op} {next : Code Nat} {x : Choice}
    (hrun : (machine T).run tr = some s) (h : Crew.step system s (.step t x) = some s')
    (hs' : s' = { s with lock := Function.update s.lock .file ((s.lock .file).unlock t) }.goto t
      (some ⟨n, c, next⟩))
    (ht : s.thread t = some ⟨n, c, .unlock .file next⟩)
    (hw : Watched False tr s) (hi : Filed tr s) :
    (∀ u, s'.held u .file = none) ∧ s'.store.file = texts (tr ++ [.step t x]) ∧ n ∉ closed tr := by
  obtain ⟨m, hm⟩ := hw.under _ _ ht
  have hf : s.held t .file ≠ none := by
    rw [← hm.held]
    exact hm.rest.1
  obtain ⟨hwrite, hno⟩ := hm.holds hf
  have hsilent := written_silent hrun h (by simp [Crew.answered, ht])
  refine ⟨fun u => ?_, ?_, hno⟩
  · by_cases hut : u = t
    · subst hut
      rw [hs', Crew.held_unlock, Function.update_self]
    · rw [(Crew.step_cases h).held_other hut]
      exact Crew.held_alone hwrite hut
  · have htexts : texts (tr ++ [.step t x]) = texts tr ++ written tr n := by
      unfold texts
      rw [closed_snoc hrun h, funext hsilent, List.flatMap_append]
      simp [closes, ht]
    rw [hs', htexts]
    exact hi.opened t _ ht hf

/-- The holder of the file writes. -/
theorem filed_write {n : Nat} {c : Op} {text : List Char} {i : Fin text.length}
    {next : Answer (.write text) → Code Nat} {store : Store} {x : Choice}
    (hrun : (machine T).run tr = some s) (h : Crew.step system s (.step t x) = some s')
    (hs' : s' = { s with store := store }.goto t (some ⟨n, c, next (some i)⟩))
    (ht : s.thread t = some ⟨n, c, .act (.write text) next⟩)
    (hr : system.answer x (.write text) s.store = some (some i, store))
    (hw : Watched False tr s) (hi : Filed tr s) :
    (∀ u r, s'.thread u = some r → s'.held u .file ≠ none →
      s'.store.file = texts (tr ++ [.step t x]) ++ written (tr ++ [.step t x]) r.no) ∧
    ((∀ u, s'.held u .file = none) → s'.store.file = texts (tr ++ [.step t x])) := by
  obtain ⟨m, hm⟩ := hw.under _ _ ht
  have hf : s.held t .file ≠ none := by
    rw [← hm.held]
    exact hm.rest.1
  obtain ⟨hwrite, hno⟩ := hm.holds hf
  have hheld : s'.held t = s.held t := by rw [hs']; rfl
  have htexts : texts (tr ++ [.step t x]) = texts tr := by
    refine texts_snoc hrun h (by simp [closes, ht]) fun r hr => .inl ?_
    rw [Crew.Act.who, ht] at hr
    cases hr
    exact hno
  refine ⟨fun u r hu hfu => ?_, fun hall => absurd (hall t) (by rw [hheld]; exact hf)⟩
  by_cases hut : u = t
  -- the holder: its text grows by what the file does
  · subst hut
    rw [hs', Crew.goto_self] at hu
    cases hu
    have hwritten : written (tr ++ [.step u x]) n = written tr n ++ text.take (i + 1) := by
      unfold written
      rw [Crew.history_snoc hrun h]
      simp [Crew.answered_act ht hr, piece]
    rw [htexts, hwritten, ← List.append_assoc, ← hi.opened u _ ht hf, hs']
    exact (answer_cases (x := x) (e := .write text) hr).file
  -- nobody else holds the file
  · rw [(Crew.step_cases h).held_other hut] at hfu
    exact absurd (Crew.held_alone hwrite hut) hfu

/-- A call that goes on keeps its number. -/
theorem same_no {n : Nat} {c : Op} {p p' : Code Nat} (ht : s.thread t = some ⟨n, c, p⟩)
    (hthread : s'.thread = (s.goto t (some ⟨n, c, p'⟩)).thread) (u : T)
    (r r' : Running Lock Action Answer Nat Op) (hr : s.thread u = some r)
    (hr' : s'.thread u = some r') : r'.no = r.no := by
  rw [hthread] at hr'
  by_cases hut : u = t
  · rw [hut, ht] at hr
    rw [hut, Crew.goto_self] at hr'
    cases hr
    cases hr'
    rfl
  · rw [Crew.goto_other hut, hr] at hr'
    cases hr'
    rfl

/-- A step that takes or gives back another lock. -/
theorem held_file {l : Lock} (hl : l ≠ .file) (k : RwLock T)
    (next : Option (Running Lock Action Answer Nat Op)) (u : T) :
    ({ s with lock := Function.update s.lock l k }.goto t next).held u .file = s.held u .file := by
  show (Function.update s.lock l k .file).held u = _
  rw [Function.update_of_ne (Ne.symm hl)]
  rfl

/-- One step. -/
theorem step_filed (hrun : (machine T).run tr = some s)
    (h : Crew.step system s a = some s') (hw : Watched False tr s) (hi : Filed tr s) :
    Filed (tr ++ [a]) s' := by
  -- a text is closed by the call that has that number
  have hmade : ∀ n ∈ closed (tr ++ [a]), Crew.Made system ⟨createList, []⟩ (tr ++ [a]) s' n := by
    intro n hn
    rw [closed_snoc hrun h] at hn
    rcases List.mem_append.mp hn with hn | hn
    · exact (hi.made n hn).step hrun h
    · obtain ⟨r, hr, rfl⟩ := closes_no hn
      exact Crew.Made.step hrun h (.inl ⟨_, r, hr, rfl⟩)
  have hnodup : closes s a = [] → (closed (tr ++ [a])).Nodup := fun hcl => by
    rw [closed_snoc hrun h, hcl, List.append_nil]
    exact hi.nodup
  have hsilent := written_silent hrun h
  cases Crew.step_cases h
  case call t c ht =>
    have hboth := Filed.quiet hrun h hw hi rfl (fun n _ => hsilent (by simp [Crew.answered]) n)
      rfl (fun _ => rfl) fun u r r' hr hr' => by
        by_cases hut : u = t
        · rw [hut, ht] at hr
          cases hr
        · rw [Crew.goto_other hut, hr] at hr'
          cases hr'
          rfl
    exact ⟨hboth.1, hboth.2, hnodup rfl, hmade⟩
  case ret t n c ret ht =>
    have hboth := Filed.quiet hrun h hw hi rfl (fun n _ => hsilent (by simp [Crew.answered]) n)
      rfl (fun _ => rfl) fun u r r' hr hr' => by
        by_cases hut : u = t
        · rw [hut, Crew.goto_self] at hr'
          cases hr'
        · rw [Crew.goto_other hut, hr] at hr'
          cases hr'
          rfl
    exact ⟨hboth.1, hboth.2, hnodup rfl, hmade⟩
  case lock t x n c l mode next k ht hk =>
    have hcl : closes s (.step t x) = [] := by simp [closes, ht]
    by_cases hl : l = .file
    · subst hl
      have hboth := filed_lock hrun h rfl ht hk hw hi
      exact ⟨hboth.1, hboth.2, hnodup hcl, hmade⟩
    · have hboth := Filed.quiet hrun h hw hi hcl
        (fun n _ => hsilent (by simp [Crew.answered, ht]) n) rfl (held_file hl k _)
        (same_no ht rfl)
      exact ⟨hboth.1, hboth.2, hnodup hcl, hmade⟩
  case unlock t x n c l next ht =>
    by_cases hl : l = .file
    · subst hl
      obtain ⟨hnone, hfile, hno⟩ := filed_unlock hrun h rfl ht hw hi
      refine ⟨fun u _ _ hf => absurd (hnone u) hf, fun _ => hfile, ?_, hmade⟩
      rw [closed_snoc hrun h]
      simpa [closes, ht, List.nodup_append] using ⟨hi.nodup, fun k hk heq => hno (heq ▸ hk)⟩
    · have hcl : closes s (.step t x) = [] := by
        cases l <;> first | exact absurd rfl hl | simp [closes, ht]
      have hboth := Filed.quiet hrun h hw hi hcl
        (fun n _ => hsilent (by simp [Crew.answered, ht]) n) rfl (held_file hl _ _)
        (same_no ht rfl)
      exact ⟨hboth.1, hboth.2, hnodup hcl, hmade⟩
  case act t x n c e next v store ht hr =>
    have hcl : closes s (.step t x) = [] := by simp [closes, ht]
    -- of the actions only a write of some bytes touches the file
    by_cases hquiet : piece ⟨e, v⟩ = []
    · have hfile : store.file = s.store.file := by
        rw [(answer_cases hr).file, hquiet, List.append_nil]
      have hboth := Filed.quiet hrun h hw hi hcl
        (fun n _ => hsilent (by simp [Crew.answered_act ht hr, hquiet]) n) hfile
        (fun _ => rfl) (same_no ht rfl)
      exact ⟨hboth.1, hboth.2, hnodup hcl, hmade⟩
    · cases answer_cases hr
      case write text i hx =>
        have hboth := filed_write hrun h rfl ht hr hw hi
        exact ⟨hboth.1, hboth.2, hnodup hcl, hmade⟩
      all_goals exact absurd rfl hquiet

/-- **Every run.** -/
theorem run_filed (hrun : (machine T).run tr = some s)
    (hok : (machine T).Meets (fun s a => ¬ Fails s a) tr) : Filed tr s := by
  refine (machine T).run_invariant
    (I := fun tr s => (machine T).Meets (fun s a => ¬ Fails s a) tr → Filed tr s)
    (fun _ => ⟨nofun, fun _ => rfl, List.nodup_nil, nofun⟩) (fun tr s a s' hs hi h hm => ?_)
    tr s hrun hok
  exact step_filed hs h (run_watched hs fun _ => hm.of_append) (hi hm.of_append)

end Steps

/-! ## When all calls have returned -/

/-- The successful `SHOW`s and `LIST`s of a run. -/
def printed (tr : List (Crew.Act T Op Choice)) : List Nat :=
  ((returns tr).filter fun x => x.2.1.prints && x.2.2 == 0).map (·.1)

/-- Nobody holds the file any more, and who has given it back has succeeded. -/
theorem closed_perm {tr : List (Crew.Act T Op Choice)} {s : State T}
    (hrun : (machine T).run tr = some s) (hw : Watched False tr s) (hi : Filed tr s)
    (hback : ∀ t, s.thread t = none) : (closed tr).Perm (printed tr) := by
  have hnum := Crew.run_numbered hrun
  have hnodup : (printed tr).Nodup := (List.filter_sublist.map _).nodup hnum.nodup
  refine (List.perm_ext_iff_of_nodup hi.nodup hnodup).mpr fun n => ?_
  unfold printed
  simp only [List.mem_map, List.mem_filter, Bool.and_eq_true, beq_iff_eq]
  constructor
  · intro hn
    rcases hi.made n hn with ⟨t, r, ht, -⟩ | hret
    · rw [hback t] at ht
      cases ht
    · obtain ⟨x, hx, rfl⟩ := List.mem_map.mp hret
      obtain ⟨-, -, -, -, -, -, hclosed⟩ := hw.ended x hx
      exact ⟨x, ⟨hx, (hclosed id).mp hn⟩, rfl⟩
  · rintro ⟨x, ⟨hx, hok⟩, rfl⟩
    obtain ⟨-, -, -, -, -, -, hclosed⟩ := hw.ended x hx
    exact (hclosed id).mpr hok

/-- **The output is never interleaved.** No `write` fails, and no `snprintf` into the room
that is left for it. When all calls have returned the file is made of whole texts in some
order, one for each `SHOW` and `LIST` that has succeeded: the one of the list that was
there while the call held the lock of what it reads, as the call writes it with nobody else
around. -/
theorem output_whole {tr : List (Crew.Act T Op Choice)} {s : State T}
    (hrun : (machine T).run tr = some s) (hok : (machine T).Meets (fun s a => ¬ Fails s a) tr)
    (hback : ∀ t, s.thread t = none) :
    ∃ order : List Nat, order.Perm (printed tr) ∧ s.store.file = order.flatMap (written tr) ∧
      ∀ n c, (n, c, 0) ∈ returns tr → c.prints = true → ∃ list,
        Seen tr n c (some (c.source, .read)) list ∧ written tr n = c.text list ∧
        (c.HasColumns list → ∀ count,
          c.code.exec (answer (.granted count)) ⟨list, []⟩ = some (0, ⟨list, written tr n⟩)) := by
  have hw : Watched False tr s := run_watched hrun fun _ => hok
  have hi := run_filed hrun hok
  refine ⟨closed tr, closed_perm hrun hw hi hback, hi.free fun t => hw.free (hback t) .file,
    fun n c hx hc => ?_⟩
  obtain ⟨reader, list, hseen, -, -, hall, -⟩ := hw.ended _ hx
  obtain ⟨htext, hread, rfl⟩ := hall hc rfl
  refine ⟨list, hseen, htext, fun hcols count => ?_⟩
  rw [htext]
  exact exec_text c list [] count hc hread hcols

/-- Nothing fails when every library call succeeds. -/
theorem meets_of_ok {tr : List (Crew.Act T Op Choice)}
    (h : ∀ t x, Crew.Act.step t x ∈ tr → x.ok = true) :
    (machine T).Meets (fun s a => ¬ Fails s a) tr := by
  rintro before a after s rfl - hfail
  cases a with
  | step t x =>
    have hx : x.ok = true := h t x (by simp)
    obtain ⟨n, c, e, next, -, hf⟩ := hfail
    cases e with
    | snprintf => exact Bool.false_ne_true (hf.1.symm.trans hx)
    | write => exact Bool.false_ne_true (hf.symm.trans hx)
    | _ => exact hf
  | _ => exact hfail

/-- `LIST` waits for the file in the middle of a `SHOW`. -/
def showAndList : List (Crew.Act Bool Op Choice) :=
  .call false (.create 1 1 1) :: steps false 11 ++ [.ret false, .call false (.showEvent 1)] ++
    steps false 13 ++ [.call true .listEvents] ++ steps true 5 ++ steps false 2 ++
    steps true 1 ++ [.step true ⟨true, 100⟩] ++ steps true 2 ++ [.ret false, .ret true]

theorem output_whole_two : ∃ order : List Nat, order.Perm (printed showAndList) ∧
    "0\nEvent: 1\n".toList = order.flatMap (written showAndList) := by
  obtain ⟨s, hs⟩ := Option.isSome_iff_exists.mp
    (show ((machine Bool).run showAndList).isSome = true by decide)
  have hfile : ((machine Bool).run showAndList).map (fun s => s.store.file) =
      some "0\nEvent: 1\n".toList := by decide
  have hback : ((machine Bool).run showAndList).map
      (fun s => (s.thread false).isNone && (s.thread true).isNone) = some true := by decide
  simp only [hs, Option.map_some, Option.some.injEq, Bool.and_eq_true, Option.isNone_iff_eq_none]
    at hfile hback
  obtain ⟨order, hperm, htexts, -⟩ := output_whole hs
    (meets_of_ok (by simp [showAndList, steps])) (Bool.forall_bool.mpr hback)
  exact ⟨order, hperm, hfile.symm.trans htexts⟩

end Ems.Jobs.Programs
