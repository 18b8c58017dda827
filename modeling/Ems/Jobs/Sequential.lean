import Ems.Jobs.Printed

/-!
# The operations that print, alone

With nobody else around, and library calls that succeed, `ems_show` and
`ems_list_events` put the text of the list behind what is in the file, whatever the
pieces are that `write` takes (`exec_text`).
-/

namespace Ems.Jobs.Programs

open Conc Conc.Program
open Client (decimal idLine)

/-- Library calls succeed, and `write` takes at most `count + 1` bytes. -/
def Choice.granted (count : Nat) : Choice := ⟨true, count⟩

/-- The answers then, and how many bytes the actions that are left may write. -/
def paced (e : Action) (s : Store × (Nat → Nat)) : Option (Answer e × Store × (Nat → Nat)) :=
  (answer (.granted (s.2 0)) e s.1).map fun r => (r.1, r.2, fun n => s.2 (n + 1))

/-- The event has a column. -/
def Op.HasColumns : Op → EventList → Prop
  | .showEvent eventId, list => ∀ e event, getEvent list eventId = some e →
      list[e]? = some event → event.cols ≠ 0
  | _, _ => True

section

variable {counts : Nat → Nat} {list : EventList} {file text : List Char} {out : Output}

/-- Whatever pieces it is written in, the text is in the file then. -/
theorem safeWriteIn_alone {post : Bool → Store × (Nat → Nat) → Prop} (n : Nat) :
    ∀ {text file counts}, text.length ≤ n → (∀ counts, post true (⟨list, file ++ text⟩, counts)) →
    (safeWriteIn n text).wp (alone paced) post (⟨list, file⟩, counts) := by
  induction n with
  | zero =>
    intro text file counts hn hpost
    rw [List.length_eq_zero_iff.mp (Nat.le_zero.mp hn), List.append_nil] at hpost
    exact hpost counts
  | succ n ih =>
    intro text file counts hn hpost
    cases text with
    | nil =>
      rw [List.append_nil] at hpost
      exact hpost counts
    | cons d text =>
      refine ⟨some ⟨min (counts 0) text.length, by simp⟩, _, rfl, ih ?_ fun counts' => ?_⟩
      · simp only [List.length_drop, List.length_cons] at hn ⊢
        omega
      · show post true (⟨list, file ++ (d :: text).take (min (counts 0) text.length + 1) ++
          (d :: text).drop (min (counts 0) text.length + 1)⟩, counts')
        rw [List.append_assoc, List.take_append_drop]
        exact hpost counts'

theorem safeWrite_alone {post : Bool → Store × (Nat → Nat) → Prop}
    (hpost : ∀ counts, post true (⟨list, file ++ text⟩, counts)) :
    (safeWrite text).wp (alone paced) post (⟨list, file⟩, counts) :=
  safeWriteIn_alone text.length (Nat.le_refl _) hpost

theorem wp_lockFile_alone {β : Type} {f : Unit → Code β} {post : β → Store × (Nat → Nat) → Prop}
    {s : Store × (Nat → Nat)} :
    (lockFile out >>= f).wp (alone paced) post s ↔ (f ()).wp (alone paced) post s := by
  rw [wp_lockFile]
  cases out.flushed <;> simp

/-- A flush moves the buffer into the file, or leaves room for another line. -/
theorem flush_alone {fail : Code Unit} {post : Option Output → Store × (Nat → Nat) → Prop}
    (hpost : ∀ out' file' counts, file' ++ out'.buffer = file ++ out.buffer →
      out'.buffer.length + 20 < 8192 → post (some out') (⟨list, file'⟩, counts)) :
    (flush out fail).wp (alone paced) post (⟨list, file⟩, counts) := by
  unfold flush
  rw [wp_ite]
  refine ⟨fun _ => ?_, fun hfull => ?_⟩
  · rw [wp_lockFile_alone]
    exact wp_bind _ _ (safeWrite_alone fun counts =>
      hpost ⟨[], true⟩ _ counts (List.append_nil _) (by simp))
  · exact hpost out file counts rfl (full_eq_false.mp (Bool.eq_false_of_not_eq_true hfull))

theorem finish_alone {unlock : Code Unit} (htext : file ++ out.buffer = text)
    (hunlock : ∀ {post : Unit → Store × (Nat → Nat) → Prop} {s}, post () s →
      unlock.wp (alone paced) post s) :
    (finish out unlock).wp (alone paced)
      (fun ret s => ret = 0 ∧ s.1 = ⟨list, text⟩) (⟨list, file⟩, counts) := by
  subst htext
  unfold finish
  rw [wp_lockFile_alone]
  refine wp_bind _ _ (safeWrite_alone fun counts => ?_)
  simp
  exact wp_bind _ _ (hunlock ⟨rfl, rfl⟩)

/-! ## ems_show -/

variable {e : Nat} {event : Event}

/-- What the loops have done: the text is in the file or in the buffer. -/
def Put (list : EventList) (text : List Char) (room : Output → Prop) :
    Option Output → Store → Prop
  | none, _ => False
  | some out, s => ∃ file, s = ⟨list, file⟩ ∧ file ++ out.buffer = text ∧ room out

theorem showRow_alone {i : Nat} (he : list[e]? = some event) (n : Nat) :
    ∀ {j out file counts}, (∀ k, j ≤ k → k < j + n →
        (seatIndex event (UInt64.ofNat i) (UInt64.ofNat k)).toNat < event.data.length) →
      out.buffer.length + 20 ≤ 8192 →
      (showRow e event i j n out).wp (alone paced)
        (fun r s => Put list (file ++ out.buffer ++
            (List.range' j n).flatMap fun j => seatText event j (seatAt event i j))
          (fun out' => out'.buffer.length + 20 < 8192 ∨ n = 0 ∧ out' = out) r s.1)
        (⟨list, file⟩, counts) := by
  induction n with
  | zero =>
    intro j out file counts _ _
    exact ⟨file, rfl, (List.append_nil _).symm, .inr ⟨rfl, rfl⟩⟩
  | succ n ih =>
    intro j out file counts hcells hroom
    have hcell := hcells j (Nat.le_refl _) (by omega)
    have hseat : event.data[(seatIndex event (UInt64.ofNat i) (UInt64.ofNat j)).toNat]? =
        some (seatAt event i j) := by
      unfold seatAt getSeat
      rw [List.getD_eq_getElem?_getD, List.getElem?_eq_getElem hcell]
      rfl
    simp only [showRow, perform_bind, wp_act, alone_act]
    refine ⟨seatAt event i j, (⟨list, file⟩, fun n => counts (n + 1)), ?_, true, _, rfl, ?_⟩
    · show Option.map _ ((list[e]?).bind _) = _
      rw [he, Option.bind_some, hseat]
      rfl
    simp only [Bool.not_true, Bool.false_eq_true, if_false, wp_printSeat]
    refine ⟨fun _ => wp_bind _ _ (flush_alone fun out' file' counts htext hr => ?_),
      fun hfull => ?_⟩
    · refine wp_mono (fun r s h => ?_) (ih (j := j + 1)
        (fun k hle hlt => hcells k (by omega) (by omega)) (Nat.le_of_lt hr))
      cases r with
      | none => exact h
      | some out'' =>
        obtain ⟨file'', hs, hput, hlast⟩ := h
        refine ⟨file'', hs, ?_, ?_⟩
        · rw [hput, htext, List.range'_succ, List.flatMap_cons]
          simp only [List.append_assoc]
        · rcases hlast with hlt | ⟨-, rfl⟩
          · exact .inl hlt
          · exact .inl hr
    -- a seat and its blank fit: at most 11 bytes, and 20 are free
    · have := decimal_length (seatAt event i j)
      unfold bufsiz at hfull
      omega

theorem showRows_alone (he : list[e]? = some event) (hwhole : Whole event)
    (hcols : event.cols ≠ 0) (n : Nat) :
    ∀ {i out file counts}, 1 ≤ i → i + n = event.rows.toNat + 1 →
      out.buffer.length + 20 ≤ 8192 →
      (showRows e event i n out).wp (alone paced)
        (fun r s => Put list (file ++ out.buffer ++ (List.range' i n).flatMap (rowText event))
          (fun _ => True) r s.1) (⟨list, file⟩, counts) := by
  induction n with
  | zero =>
    intro i out file counts _ _ _
    exact ⟨file, rfl, (List.append_nil _).symm, trivial⟩
  | succ n ih =>
    intro i out file counts hi hn hroom
    refine wp_bind _ _ (wp_mono (fun r s h => ?_) (showRow_alone he _
      (fun k hk hk' => hwhole i hi (by omega) k hk (by omega)) hroom))
    obtain ⟨s, counts⟩ := s
    cases r with
    | none => exact h
    | some out' =>
      obtain ⟨file', rfl, hput, hlast⟩ := h
      -- a row has at least one seat, so there was a test for a flush
      have hlt : out'.buffer.length + 20 < 8192 := by
        rcases hlast with hlt | ⟨hno, -⟩
        · exact hlt
        · exact absurd (UInt64.toNat_inj.mp (hno.trans rfl)) hcols
      dsimp only
      rw [wp_putChar]
      refine ⟨fun _ => ?_, fun hfull => ?_⟩
      · refine wp_mono (fun r s h => ?_) (ih (i := i + 1) (by omega) (by omega) (by simp; omega))
        cases r with
        | none => exact h
        | some out'' =>
          obtain ⟨file'', hs, hput', -⟩ := h
          refine ⟨file'', hs, ?_, trivial⟩
          rw [hput', List.range'_succ, List.flatMap_cons, rowText, ← List.append_assoc file', hput]
          simp only [List.append_assoc]
      · unfold bufsiz at hfull
        omega

/-! ## ems_list_events -/

theorem listNodes_alone (n : Nat) : ∀ {i out file counts}, i + n = list.length →
    out.buffer.length + 20 < 8192 →
    (listNodes i n out).wp (alone paced)
      (fun r s => Put list (file ++ out.buffer ++ (list.drop i).flatMap fun event => idLine event.id)
        (fun _ => True) r s.1) (⟨list, file⟩, counts) := by
  induction n with
  | zero =>
    intro i out file counts hi _
    rw [List.drop_of_length_le (by omega)]
    exact ⟨file, rfl, (List.append_nil _).symm, trivial⟩
  | succ n ih =>
    intro i out file counts hi hroom
    have hlt : i < list.length := by omega
    simp only [listNodes, perform_bind, wp_act, alone_act]
    refine ⟨list[i].id, (⟨list, file⟩, fun n => counts (n + 1)), ?_, true, _, rfl, ?_⟩
    · show Option.map _ ((list[i]?).map _) = _
      rw [List.getElem?_eq_getElem hlt]
      rfl
    simp only [Bool.not_true, Bool.false_eq_true, if_false, wp_printText]
    refine ⟨fun _ => wp_bind _ _ (flush_alone fun out' file' counts htext hr => ?_),
      fun hfull => ?_⟩
    · refine wp_mono (fun r s h => ?_) (ih (i := i + 1) (by omega) hr)
      cases r with
      | none => exact h
      | some out'' =>
        obtain ⟨file'', hs, hput, -⟩ := h
        refine ⟨file'', hs, ?_, trivial⟩
        rw [hput, htext, List.drop_eq_getElem_cons hlt, List.flatMap_cons]
        simp only [List.append_assoc]
    · have := idLine_length list[i].id
      unfold bufsiz at hfull
      omega

end

/-- **Alone** the call succeeds and puts the text of the list behind what is in the file,
whatever the pieces are. -/
theorem exec_paced (c : Op) (list : EventList) (file : List Char) (counts : Nat → Nat)
    (hc : c.prints = true) (hread : c.Readable list) (hcols : c.HasColumns list) :
    (c.code.exec paced (⟨list, file⟩, counts)).map (fun r => (r.1, r.2.1)) =
      some (0, ⟨list, file ++ c.text list⟩) := by
  -- what the code does with these answers is what the rules say of it
  suffices h : c.code.wp (alone paced)
      (fun ret s => ret = 0 ∧ s.1 = ⟨list, file ++ c.text list⟩) (⟨list, file⟩, counts) by
    obtain ⟨ret, ⟨s, counts'⟩, hexec, rfl, rfl⟩ := exec_of_wp h
    rw [hexec]
    rfl
  cases c with
  | create => cases hc
  | reserve => cases hc
  | showEvent id =>
    obtain ⟨e, event, hfound, he, hwhole⟩ := hread
    show (emsShow id).wp _ _ _
    unfold emsShow
    simp [paced, answer, hfound, showEvent, he]
    refine wp_bind _ _ (wp_mono (fun r s h => ?_) (showRows_alone he hwhole (hcols e event hfound he)
      _ (Nat.le_refl _) (Nat.add_comm _ _) (by simp)))
    obtain ⟨s, counts⟩ := s
    cases r with
    | none => exact h.elim
    | some out =>
      obtain ⟨file', rfl, hput, -⟩ := h
      rw [text_show hfound he]
      rw [List.append_nil] at hput
      exact finish_alone hput fun hpost => hpost
  | listEvents =>
    show emsListEvents.wp _ _ _
    have hunlock : ∀ {post : Unit → Store × (Nat → Nat) → Prop} {s : Store × (Nat → Nat)},
        post () s → (release .list : Code Unit).wp (alone paced) post s := fun hpost => by
      simpa using hpost
    unfold emsListEvents
    simp [paced, answer]
    refine ⟨fun hnil => ?_, fun hne => ?_⟩
    · exact finish_alone (by simp [Op.text, listText, hnil]) hunlock
    · refine wp_bind _ _ (wp_mono (fun r s h => ?_) (listNodes_alone _ (Nat.zero_add _) (by simp)))
      obtain ⟨s, counts⟩ := s
      cases r with
      | none => exact h.elim
      | some out =>
        obtain ⟨file', rfl, hput, -⟩ := h
        rw [List.append_nil] at hput
        exact finish_alone (by simp [Op.text, listText, hne, hput]) hunlock

/-- Pieces of one size. -/
theorem exec_paced_const {α : Type} (count : Nat) (p : Code α) :
    ∀ s, (p.exec paced (s, fun _ => count)).map (fun r => (r.1, r.2.1)) =
      p.exec (answer (.granted count)) s := by
  induction p with
  | done a => exact fun s => rfl
  | lock l mode next ih => exact ih
  | unlock l next ih => exact ih
  | act e next ih =>
    intro s
    unfold exec paced
    cases answer (.granted count) e s with
    | none => rfl
    | some r => exact ih r.1 r.2
  | undefined => exact fun s => rfl

theorem exec_text (c : Op) (list : EventList) (file : List Char) (count : Nat)
    (hc : c.prints = true) (hread : c.Readable list) (hcols : c.HasColumns list) :
    c.code.exec (answer (.granted count)) ⟨list, file⟩ = some (0, ⟨list, file ++ c.text list⟩) := by
  rw [← exec_paced_const]
  exact exec_paced c list file (fun _ => count) hc hread hcols

end Ems.Jobs.Programs
