import Ems.Parse.LastLine

/-!
# What the parsers accept

The other direction of `Grammar`. A text that one of the parsers accepts is the text of
some line, `next_some`: every parser is taken apart from the end of its reads to the text
they have taken. And it is the text of one line only (`text_unique`), since the byte
behind a number is no digit.

The line is of the documented form unless a number is missing, a NUL ends it, or it ends
with the file and the last number was read together with what the buffer held before.
`onlyGrammar_iff` is the exact condition.
-/

namespace Ems.Parse

open Base

/-! ## From the result to the text -/

/-- A number that the reader has accepted. -/
theorem readUint_some {junk s s' : List UInt8} {v : UInt32} {c : UInt8}
    (h : (readUint junk).run s = some ((some v, c), s')) :
    (∃ n : Number, isDigit c = false ∧ s = n.digits ++ c :: s' ∧ n.value = v) ∨
      ∃ n : Number, c = 0 ∧ s' = [] ∧ s = n.digits ∧ n.last junk .eof = some v := by
  -- more than 15 digits and it is the end
  have hshort : ∀ ds t, Numeral ds → s = ds ++ t → ds.length ≤ 15 := by
    intro ds t hd hs
    by_contra hlen
    have hlong : (readDigits 16 []).run (ds ++ t) = none := run_readDigits_long t hd (by omega)
    unfold readUint at h
    rw [hs, Reading.run_bind, hlong] at h
    cases h
  rcases split_numeral s with hnum | ⟨ds, b, t, hd, hb, hs⟩
  · right
    have hlen := hshort s [] hnum (List.append_nil s).symm
    rw [run_readUint_last junk hnum hlen] at h
    obtain ⟨hvc, hs'⟩ := Prod.mk.inj (Option.some.inj h)
    obtain ⟨hv, hc⟩ := Prod.mk.inj hvc
    have hfits : decimal s ≤ uintMax := by
      cases s with
      | nil => exact Nat.zero_le _
      | cons c ds =>
        rw [strtoul_digits _ hnum, decimal_append] at hv
        by_contra hlt
        have hpos : 0 < 10 ^ ((junk.drop (c :: ds).length).takeWhile isDigit).length :=
          Nat.pow_pos (by decide)
        have hmul := Nat.le_mul_of_pos_right (decimal (c :: ds)) hpos
        have hmax : uintMax < ulongMax := by decide
        rw [if_pos (by omega)] at hv
        cases hv
    exact ⟨⟨s, hnum, hlen, hfits⟩, hc.symm, hs'.symm, rfl, hv⟩
  · left
    subst hs
    have hlen := hshort ds (b :: t) hd rfl
    rw [run_readUint junk t hd hlen hb] at h
    obtain ⟨hvc, rfl⟩ := Prod.mk.inj (Option.some.inj h)
    obtain ⟨hv, rfl⟩ := Prod.mk.inj hvc
    by_cases hfits : decimal ds ≤ uintMax
    · rw [if_neg (Nat.not_lt.mpr hfits)] at hv
      exact ⟨⟨ds, hd, hlen, hfits⟩, hb, rfl, Option.some.inj hv⟩
    · rw [if_pos (Nat.lt_of_not_le hfits)] at hv
      cases hv

/-- Whatever the parsers take for the end of a line. -/
theorem readUint_end_some {junk s s' : List UInt8} {v : UInt32} {c : UInt8}
    (h : (readUint junk).run s = some ((some v, c), s')) (hc : isEnd c = true) :
    ∃ (n : Number) (e : Ending), s = n.digits ++ e.bytes ∧ e.rest = s' ∧ n.last junk e = some v := by
  rcases readUint_some h with ⟨n, -, hs, hv⟩ | ⟨n, -, hs', hs, hv⟩
  · have hend : c = nl ∨ c = 0 := by simpa [isEnd] using hc
    rcases hend with hend | hend
    · exact ⟨n, .newline s', by rw [hs, hend]; rfl, rfl, congrArg some hv⟩
    · exact ⟨n, .nul s', by rw [hs, hend]; rfl, rfl, congrArg some hv⟩
  · exact ⟨n, .eof, by rw [hs]; exact (List.append_nil _).symm, hs'.symm, hv⟩

theorem fail_run_ne {β : Type} {s s' : List UInt8} {x : β} :
    (fail : Reading (Option β)).run s ≠ some (some x, s') := by
  simp [fail]

section
variable {β : Type} {junk s s' : List UInt8} {accept : UInt8 → Bool} {x : β}

theorem field_some {next : UInt32 → Reading (Option β)}
    (h : (field junk accept next).run s = some (some x, s')) :
    ∃ v c r, (readUint junk).run s = some ((some v, c), r) ∧ accept c = true ∧
      (next v).run r = some (some x, s') := by
  unfold field at h
  rw [Reading.run_bind, Option.bind_eq_some_iff] at h
  obtain ⟨⟨⟨v, c⟩, r⟩, hrun, h⟩ := h
  cases v with
  | none => exact absurd h fail_run_ne
  | some v =>
    cases hacc : accept c with
    | false =>
      simp only [hacc, Bool.not_false, if_true] at h
      exact absurd h fail_run_ne
    | true =>
      simp only [hacc, Bool.not_true, Bool.false_eq_true, if_false] at h
      exact ⟨v, c, r, hrun, hacc, h⟩

/-- A number and the byte that has to follow it. -/
theorem field_sep_some {next : UInt32 → Reading (Option β)} {sep : UInt8}
    (hacc : ∀ c, accept c = true → c = sep) (hnul : sep ≠ 0)
    (h : (field junk accept next).run s = some (some x, s')) :
    ∃ (n : Number) (r : List UInt8), s = n.digits ++ sep :: r ∧
      (next n.value).run r = some (some x, s') := by
  obtain ⟨v, c, r, hrun, hc, hnext⟩ := field_some h
  have hsep := hacc c hc
  rcases readUint_some hrun with ⟨n, -, hs, hv⟩ | ⟨n, hzero, -, -, -⟩
  · exact ⟨n, r, by rw [hs, hsep], by rw [hv]; exact hnext⟩
  · exact absurd (hsep.symm.trans hzero) hnul

/-- A number that ends the line. -/
theorem field_end_some {value : UInt32 → β}
    (h : (field junk isEnd fun v => pure (some (value v))).run s = some (some x, s')) :
    ∃ (n : Number) (e : Ending), s = n.digits ++ e.bytes ∧ e.rest = s' ∧
      (n.last junk e).map value = some x := by
  obtain ⟨v, c, r, hrun, hc, hnext⟩ := field_some h
  obtain ⟨n, e, hs, hr, hv⟩ := readUint_end_some hrun hc
  obtain ⟨hx, hs'⟩ := Prod.mk.inj (Option.some.inj hnext)
  exact ⟨n, e, hs, hr.trans hs', by rw [hv]; exact hx⟩

theorem byte_some {next : UInt8 → Reading (Option β)}
    (h : (byte accept next).run s = some (some x, s')) :
    ∃ c r, s = c :: r ∧ accept c = true ∧ (next c).run r = some (some x, s') := by
  cases s with
  | nil => exact absurd h fail_run_ne
  | cons c r =>
    simp only [byte, Reading.run_bind, Reading.run_readBytes, List.take_succ_cons, List.take_zero,
      List.drop_succ_cons, List.drop_zero, Option.bind_some] at h
    cases hacc : accept c with
    | false =>
      simp only [hacc, Bool.not_false, if_true] at h
      exact absurd h fail_run_ne
    | true =>
      simp only [hacc, Bool.not_true, Bool.false_eq_true, if_false] at h
      exact ⟨c, r, rfl, hacc, h⟩

end

theorem is_some {c : Char} {ch : UInt8} (h : is c ch = true) : ch = c.toUInt8 := by
  simpa [is] using h

/-! ## The parsers -/

section
variable {junk s s' : List UInt8}

theorem create_some {x : UInt32 × UInt64 × UInt64}
    (h : (parseCreate junk).run s = some (some x, s')) :
    ∃ (a b c : Number) (e : Ending),
      s = a.digits ++ 32 :: (b.digits ++ 32 :: (c.digits ++ e.bytes)) ∧ e.rest = s' ∧
        (c.last junk e).map (fun v => (a.value, b.value.toUInt64, v.toUInt64)) = some x := by
  obtain ⟨a, r, hs, h⟩ := field_sep_some (fun _ => is_some) (by decide) h
  obtain ⟨b, r', hr, h⟩ := field_sep_some (fun _ => is_some) (by decide) h
  obtain ⟨c, e, hr', he, hx⟩ := field_end_some h
  exact ⟨a, b, c, e, by rw [hs, hr, hr']; rfl, he, hx⟩

theorem show_some {v : UInt32} (h : (parseShow junk).run s = some (some v, s')) :
    ∃ (n : Number) (e : Ending), s = n.digits ++ e.bytes ∧ e.rest = s' ∧
      n.last junk e = some v := by
  obtain ⟨n, e, hs, he, hv⟩ := field_end_some h
  exact ⟨n, e, hs, he, by rwa [Option.map_id'] at hv⟩

theorem finish_some {max : Nat} {eventId : UInt32} {coords : List (UInt64 × UInt64)}
    {x : UInt32 × List (UInt64 × UInt64)}
    (h : (finishReserve max eventId coords).run s = some (some x, s')) :
    coords.length ≠ max ∧ x = (eventId, coords) ∧
      ∃ e : Ending, e.seen = true ∧ s = e.bytes ∧ e.rest = s' := by
  unfold finishReserve at h
  split at h
  next => exact absurd h fail_run_ne
  next hne =>
    obtain ⟨c, r, hs, hc, h⟩ := byte_some h
    obtain ⟨hx, hr⟩ := Prod.mk.inj (Option.some.inj h)
    have hend : c = nl ∨ c = 0 := by simpa [isEnd] using hc
    refine ⟨hne, (Option.some.inj hx).symm, ?_⟩
    rcases hend with rfl | rfl
    · exact ⟨.newline r, rfl, hs, hr⟩
    · exact ⟨.nul r, rfl, hs, hr⟩

/-- By induction on the seats that the loop may still take. -/
theorem coords_some {max left : Nat} {eventId : UInt32} {coords : List (UInt64 × UInt64)}
    {x : UInt32 × List (UInt64 × UInt64)} (hleft : coords.length + left = max)
    (h : (parseCoords junk max eventId left coords).run s = some (some x, s')) :
    ∃ (seats : List (Number × Number)) (e : Ending), seats ≠ [] ∧ seats.length < left ∧
      e.seen = true ∧ s = Line.seatsText Number.digits seats ++ e.bytes ∧ e.rest = s' ∧
        x = (eventId, coords ++ Line.coords Number.value seats) := by
  induction left generalizing s coords with
  | zero => exact absurd (by omega) (finish_some h).1
  | succ left ih =>
    obtain ⟨c, r1, hs, hopen, h⟩ := byte_some h
    obtain ⟨a, r2, hr1, h⟩ := field_sep_some (fun _ => is_some) (by decide) h
    obtain ⟨b, r3, hr2, h⟩ := field_sep_some (fun _ => is_some) (by decide) h
    obtain ⟨c, r4, hr3, hc, h⟩ := byte_some h
    have hpair : s = 40 :: (a.digits ++ 44 :: (b.digits ++ 41 :: c :: r4)) := by
      rw [hs, is_some hopen, hr1, hr2, hr3]
      rfl
    have hlength : (coords ++ [(a.value.toUInt64, b.value.toUInt64)]).length = coords.length + 1 :=
      List.length_append
    dsimp only at h
    -- `]` ends the list, a blank is followed by the next pair
    by_cases hclose : is ']' c = true
    · rw [if_pos hclose] at h
      obtain ⟨hne, hx, e, he, hr, hs'⟩ := finish_some h
      rw [hlength] at hne
      refine ⟨[(a, b)], e, List.cons_ne_nil _ _, ?_, he, ?_, hs', hx⟩
      · rw [List.length_singleton]
        omega
      · rw [hpair, hr, is_some hclose]
        simp only [Line.seatsText, List.cons_append, List.append_assoc, List.nil_append]
        rfl
    · rw [if_neg hclose] at h
      have hspace : is ' ' c = true := by
        rw [Bool.or_eq_true] at hc
        exact hc.resolve_right hclose
      obtain ⟨seats, e, hne, hlen, he, hr, hs', hx⟩ := ih (by rw [hlength]; omega) h
      obtain ⟨seat, seats, rfl⟩ := List.exists_cons_of_ne_nil hne
      refine ⟨(a, b) :: seat :: seats, e, List.cons_ne_nil _ _, ?_, he, ?_, hs', ?_⟩
      · rw [List.length_cons]
        omega
      · rw [hpair, hr, is_some hspace]
        simp only [Line.seatsText_cons_cons, List.cons_append, List.append_assoc]
        rfl
      · rw [hx]
        simp [Line.coords]

theorem reserve_some {x : UInt32 × List (UInt64 × UInt64)}
    (h : (parseReserve junk maxReservationSize).run s = some (some x, s')) :
    ∃ (a : Number) (seats : List (Number × Number)) (e : Ending), seats ≠ [] ∧
      seats.length < maxReservationSize ∧ e.seen = true ∧
        s = a.digits ++ 32 :: 91 :: (Line.seatsText Number.digits seats ++ e.bytes) ∧
          e.rest = s' ∧ x = (a.value, Line.coords Number.value seats) := by
  obtain ⟨a, r, hs, h⟩ := field_sep_some (fun _ => is_some) (by decide) h
  obtain ⟨c, r', hr, hc, h⟩ := byte_some h
  obtain ⟨seats, e, hne, hlen, he, hr', hs', hx⟩ := coords_some (Nat.zero_add _) h
  refine ⟨a, seats, e, hne, hlen, he, ?_, hs', hx⟩
  rw [hs, hr, is_some hc, hr']
  rfl

theorem wait_some {x : UInt32 × Option UInt32}
    (h : (parseWait junk true).run s = some (some x, s')) :
    (∃ (d : Number) (e : Ending), s = d.digits ++ e.bytes ∧ e.rest = s' ∧
        (d.last junk e).map (fun v => (v, none)) = some x) ∨
      ∃ (d t : Number) (e : Ending), s = d.digits ++ 32 :: (t.digits ++ e.bytes) ∧ e.rest = s' ∧
        (t.last junk e).map (fun v => (d.value, some v)) = some x := by
  unfold parseWait at h
  rw [Reading.run_bind, Option.bind_eq_some_iff] at h
  obtain ⟨⟨⟨v, c⟩, r⟩, hrun, h⟩ := h
  cases v with
  | none => exact absurd h fail_run_ne
  | some v =>
    dsimp only at h
    by_cases hsp : c = ' '.toUInt8
    · rw [if_pos hsp] at h
      right
      rcases readUint_some hrun with ⟨d, -, hs, hv⟩ | ⟨n, hzero, -⟩
      · obtain ⟨t, e, hr, he, hx⟩ := field_end_some h
        refine ⟨d, t, e, ?_, he, ?_⟩
        · rw [hs, hr, hsp]
          rfl
        · rw [hv]
          exact hx
      · exact absurd (hsp.symm.trans hzero) (by decide)
    · rw [if_neg hsp] at h
      left
      by_cases hend : isEnd c = true
      · rw [if_pos hend] at h
        obtain ⟨hx, rfl⟩ := Prod.mk.inj (Option.some.inj h)
        obtain ⟨d, e, hs, he, hv⟩ := readUint_end_some hrun hend
        exact ⟨d, e, hs, he, by rw [hv]; exact hx⟩
      · rw [if_neg hend] at h
        exact absurd h fail_run_ne

end

/-! ## Whole lines -/

/-- A `parse_*` function follows. -/
def Command.HasArguments : Command → Prop
  | .create => True
  | .reserve => True
  | .showEvent => True
  | .wait => True
  | _ => False

/-- Its result is there. -/
def Decoded.HasArguments : Decoded → Prop
  | .create .. => True
  | .reserve .. => True
  | .showEvent .. => True
  | .wait .. => True
  | _ => False

/-- The keyword with the space behind it. -/
def Command.text : Command → List UInt8
  | .create => bytes "CREATE "
  | .reserve => bytes "RESERVE "
  | .showEvent => bytes "SHOW "
  | .wait => bytes "WAIT "
  | _ => []

theorem keyword_some {text s s' : List UInt8} {command c : Command} (hc : c ≠ .invalid)
    (h : (keyword text command).run s = some (c, s')) : c = command ∧ s = text.tail ++ s' := by
  unfold keyword at h
  rw [Reading.run_bind, Reading.run_readBytes, Option.bind_some] at h
  by_cases heq : s.take (text.length - 1) = text.tail
  · rw [if_neg (not_not.mpr heq)] at h
    obtain ⟨hcommand, hs'⟩ := Prod.mk.inj (Option.some.inj h)
    refine ⟨hcommand.symm, ?_⟩
    rw [← hs', ← heq]
    exact (List.take_append_drop _ s).symm
  · rw [if_pos heq] at h
    have hinvalid : invalidLine.run (s.drop (text.length - 1)) =
        some (.invalid, dropLine (s.drop (text.length - 1))) := by simp [invalidLine]
    rw [hinvalid] at h
    exact absurd (Prod.mk.inj (Option.some.inj h)).1.symm hc

/-- The cases of `get_next` that a `parse_*` function follows. -/
theorem getNext_some {barrier : Bool} {s s' : List UInt8} {c : Command} (hc : c.HasArguments)
    (h : (getNext barrier).run s = some (c, s')) : s = c.text ++ s' := by
  have hinvalid : c ≠ .invalid := by rintro rfl; exact hc
  -- a command without arguments is none of these
  have hbare : ∀ {text : List UInt8} {command : Command} {t : List UInt8},
      ¬ command.HasArguments → (bareKeyword text command).run t ≠ some (c, s') := by
    intro text command t hcommand hrun
    rcases run_bareKeyword_cases hrun with rfl | rfl
    · exact hcommand hc
    · exact hc
  cases s with
  | nil =>
    have heoc : c = .eoc := (Prod.mk.inj (Option.some.inj h)).1.symm
    rw [heoc] at hc
    exact hc.elim
  | cons b t =>
    unfold getNext at h
    rw [Reading.run_bind, Reading.run_readBytes, Option.bind_some] at h
    simp only [List.take_succ_cons, List.take_zero, List.drop_succ_cons, List.drop_zero] at h
    split at h
    next hb =>
      obtain ⟨rfl, ht⟩ := keyword_some hinvalid h
      rw [hb, ht]
      rfl
    split at h
    next hb =>
      obtain ⟨rfl, ht⟩ := keyword_some hinvalid h
      rw [hb, ht]
      rfl
    split at h
    next hb =>
      obtain ⟨rfl, ht⟩ := keyword_some hinvalid h
      rw [hb, ht]
      rfl
    split at h
    next => exact absurd h (hbare fun hl => hl)
    split at h
    next => exact absurd h (hbare fun hl => hl)
    split at h
    next hb =>
      obtain ⟨rfl, ht⟩ := keyword_some hinvalid h
      rw [hb, ht]
      rfl
    split at h
    next => exact absurd h (hbare fun hl => hl)
    split at h
    next =>
      have hempty : c = .empty := (Prod.mk.inj (Option.some.inj h)).1.symm
      rw [hempty] at hc
      exact hc.elim
    split at h
    next =>
      have hempty : c = .empty := (Prod.mk.inj (Option.some.inj h)).1.symm
      rw [hempty] at hc
      exact hc.elim
    next =>
      exact absurd (Prod.mk.inj (Option.some.inj h)).1.symm hinvalid

/-- A `parse_*` function that has not failed. -/
theorem arguments_some {α : Type} {p : Reading (Option α)} {g : Option α → Reading Decoded}
    {f : α → Decoded} (hnone : g none = pure .invalid) (hsome : ∀ x, g (some x) = pure (f x))
    {s s' : List UInt8} {d : Decoded} (hd : d.HasArguments)
    (h : (p >>= g).run s = some (d, s')) : ∃ x, p.run s = some (some x, s') ∧ f x = d := by
  rw [Reading.run_bind, Option.bind_eq_some_iff] at h
  obtain ⟨⟨x, t⟩, hx, h⟩ := h
  cases x with
  | none =>
    rw [hnone] at h
    have hinvalid := (Prod.mk.inj (Option.some.inj h)).1
    rw [← hinvalid] at hd
    exact hd.elim
  | some x =>
    rw [hsome] at h
    obtain ⟨hfx, ht⟩ := Prod.mk.inj (Option.some.inj h)
    exact ⟨x, by rw [hx, ← ht], hfx⟩

/-- What the parsers accept with arguments is the text of some line. -/
theorem next_some {barrier : Bool} {junk s s' : List UInt8} {d : Decoded} (hd : d.HasArguments)
    (h : (next barrier true junk).run s = some (d, s')) :
    ∃ (l : Line Number) (e : Ending), l.Valid barrier ∧ l.HasArguments true ∧
      s = l.text Number.digits ++ e.bytes ∧ e.rest = s' ∧ l.read true junk e = some d := by
  unfold next at h
  rw [Reading.run_bind, Option.bind_eq_some_iff] at h
  obtain ⟨⟨command, r⟩, hcommand, h⟩ := h
  dsimp only at h
  cases command with
  | create =>
    obtain ⟨x, hx, rfl⟩ := arguments_some (f := fun x => Decoded.create x.1 x.2.1 x.2.2) rfl
      (fun _ => rfl) hd h
    obtain ⟨a, b, c, e, hr, he, hlast⟩ := create_some hx
    refine ⟨.create a b c, e, trivial, trivial, ?_, he, ?_⟩
    · rw [getNext_some (c := .create) trivial hcommand, hr]
      simp [Command.text, Line.text]
    · obtain ⟨v, hv, rfl⟩ := Option.map_eq_some_iff.mp hlast
      rw [Line.read, hv]
      rfl
  | reserve =>
    obtain ⟨x, hx, rfl⟩ := arguments_some (f := fun x => Decoded.reserve x.1 x.2) rfl
      (fun _ => rfl) hd h
    obtain ⟨a, seats, e, hne, hlen, hseen, hr, he, rfl⟩ := reserve_some hx
    refine ⟨.reserve a seats, e, ⟨hne, hlen⟩, trivial, ?_, he, ?_⟩
    · rw [getNext_some (c := .reserve) trivial hcommand, hr]
      simp [Command.text, Line.text]
    · rw [Line.read, if_pos hseen]
  | showEvent =>
    obtain ⟨x, hx, rfl⟩ := arguments_some (f := Decoded.showEvent) rfl (fun _ => rfl) hd h
    obtain ⟨a, e, hr, he, hlast⟩ := show_some hx
    refine ⟨.showEvent a, e, trivial, trivial, ?_, he, ?_⟩
    · rw [getNext_some (c := .showEvent) trivial hcommand, hr]
      simp [Command.text, Line.text]
    · rw [Line.read, hlast]
      rfl
  | wait =>
    obtain ⟨x, hx, rfl⟩ := arguments_some (f := fun x => Decoded.wait x.1 x.2) rfl
      (fun _ => rfl) hd h
    -- with or without a thread
    rcases wait_some hx with ⟨n, e, hr, he, hlast⟩ | ⟨n, t, e, hr, he, hlast⟩
    · refine ⟨.wait n none, e, trivial, trivial, ?_, he, ?_⟩
      · rw [getNext_some (c := .wait) trivial hcommand, hr]
        simp [Command.text, Line.text]
      · obtain ⟨v, hv, rfl⟩ := Option.map_eq_some_iff.mp hlast
        rw [Line.read, hv]
        rfl
    · refine ⟨.wait n (some t), e, trivial, rfl, ?_, he, ?_⟩
      · rw [getNext_some (c := .wait) trivial hcommand, hr]
        simp [Command.text, Line.text]
      · obtain ⟨v, hv, rfl⟩ := Option.map_eq_some_iff.mp hlast
        rw [Line.read, hv, if_pos rfl]
        rfl
  | _ =>
    have hcommand := (Prod.mk.inj (Option.some.inj h)).1
    rw [← hcommand] at hd
    exact hd.elim

/-! ## One line only -/

theorem Number.sep_unique {n n' : Number} {c c' : UInt8} {s s' : List UInt8}
    (hc : isDigit c = false) (hc' : isDigit c' = false)
    (h : n.digits ++ c :: s = n'.digits ++ c' :: s') : n = n' ∧ c = c' ∧ s = s' := by
  obtain ⟨hd, hcc, hs⟩ := split_unique n.numeral n'.numeral hc hc' h
  exact ⟨Number.ext hd, hcc, hs⟩

theorem Ending.bytes_cases (e : Ending) :
    e.bytes = [] ∨ ∃ c s, isDigit c = false ∧ c ≠ 32 ∧ e.bytes = c :: s := by
  cases e with
  | newline rest => exact Or.inr ⟨nl, rest, by decide, by decide, rfl⟩
  | nul rest => exact Or.inr ⟨0, rest, by decide, by decide, rfl⟩
  | eof => exact Or.inl rfl

theorem Ending.bytes_injective {e e' : Ending} (h : e.bytes = e'.bytes) : e = e' := by
  cases e <;> cases e' <;> simp_all [Ending.bytes, nl]

theorem Number.end_unique {n n' : Number} {e e' : Ending}
    (h : n.digits ++ e.bytes = n'.digits ++ e'.bytes) : n = n' ∧ e = e' := by
  rcases e.bytes_cases with he | ⟨c, s, hc, -, he⟩
  · rcases e'.bytes_cases with he' | ⟨c', s', hc', -, he'⟩
    · rw [he, he', List.append_nil, List.append_nil] at h
      exact ⟨Number.ext h, Ending.bytes_injective (he.trans he'.symm)⟩
    · rw [he, he', List.append_nil] at h
      exact absurd h (numeral_no_end n.numeral hc')
  · rcases e'.bytes_cases with he' | ⟨c', s', hc', -, he'⟩
    · rw [he, he', List.append_nil] at h
      exact absurd h.symm (numeral_no_end n'.numeral hc)
    · rw [he, he'] at h
      obtain ⟨hn, rfl, rfl⟩ := Number.sep_unique hc hc' h
      exact ⟨hn, Ending.bytes_injective (he.trans he'.symm)⟩

/-- A space behind a number is not the end of the line. -/
theorem Number.end_ne_sep {n n' : Number} {e : Ending} {s : List UInt8} :
    n.digits ++ e.bytes ≠ n'.digits ++ 32 :: s := by
  intro h
  rcases e.bytes_cases with he | ⟨c, t, hc, hsp, he⟩
  · rw [he, List.append_nil] at h
    exact numeral_no_end n.numeral (by decide) h
  · rw [he] at h
    exact hsp (Number.sep_unique hc (by decide) h).2.1

/-- By induction on the seats of both. -/
theorem Line.seatsText_unique {seats seats' : List (Number × Number)} {t t' : List UInt8}
    (hne : seats ≠ []) (hne' : seats' ≠ [])
    (h : Line.seatsText Number.digits seats ++ t = Line.seatsText Number.digits seats' ++ t') :
    seats = seats' ∧ t = t' := by
  -- a seat with the byte behind it
  have hsplit : ∀ (x y : Number) (rest : List (Number × Number)) (u : List UInt8), ∃ c v,
      Line.seatsText Number.digits ((x, y) :: rest) ++ u =
        40 :: (x.digits ++ 44 :: (y.digits ++ 41 :: c :: v)) ∧
      (rest = [] ∧ c = 93 ∧ v = u ∨
        rest ≠ [] ∧ c = 32 ∧ v = Line.seatsText Number.digits rest ++ u) := by
    intro x y rest u
    cases rest with
    | nil => exact ⟨93, u, by simp [Line.seatsText], Or.inl ⟨rfl, rfl, rfl⟩⟩
    | cons seat rest =>
      exact ⟨32, _, by simp [Line.seatsText_cons_cons], Or.inr ⟨List.cons_ne_nil _ _, rfl, rfl⟩⟩
  induction seats generalizing seats' with
  | nil => exact absurd rfl hne
  | cons seat seats ih =>
    obtain ⟨⟨x', y'⟩, seats', rfl⟩ := List.exists_cons_of_ne_nil hne'
    obtain ⟨x, y⟩ := seat
    obtain ⟨c, v, heq, hc⟩ := hsplit x y seats t
    obtain ⟨c', v', heq', hc'⟩ := hsplit x' y' seats' t'
    rw [heq, heq'] at h
    obtain ⟨hx, -, h⟩ := Number.sep_unique (by decide) (by decide) (List.cons.inj h).2
    obtain ⟨hy, -, h⟩ := Number.sep_unique (by decide) (by decide) h
    obtain ⟨hcc, hv⟩ := List.cons.inj h
    rcases hc with ⟨rfl, rfl, rfl⟩ | ⟨hrest, rfl, rfl⟩
    · rcases hc' with ⟨rfl, -, rfl⟩ | ⟨-, rfl, -⟩
      · exact ⟨by rw [hx, hy], hv⟩
      · cases hcc
    · rcases hc' with ⟨-, rfl, -⟩ | ⟨hrest', -, rfl⟩
      · cases hcc
      · obtain ⟨hseats, ht⟩ := ih hrest hrest' hv
        exact ⟨by rw [hx, hy, hseats], ht⟩

/-- The command of a line with arguments. -/
def Line.command {ν : Type} : Line ν → Command
  | .create .. => .create
  | .reserve .. => .reserve
  | .showEvent .. => .showEvent
  | .wait .. => .wait
  | _ => .empty

theorem run_getNext_text {l : Line Number} (hl : l.HasArguments true) (t : List UInt8) :
    (getNext true).run (l.text Number.digits ++ t) =
      some (l.command, (l.text Number.digits ++ t).drop l.command.text.length) := by
  cases l with
  | create a b c => rfl
  | reserve a seats => rfl
  | showEvent a => rfl
  | wait d threadId => cases threadId <;> rfl
  | listEvents => exact hl.elim
  | barrier => exact hl.elim
  | help => exact hl.elim
  | comment text => exact hl.elim
  | blank => exact hl.elim

/-- A file begins with the text of one line with arguments at most. -/
theorem text_unique {barrier : Bool} {l l' : Line Number} {e e' : Ending}
    (hl : l.HasArguments true) (hl' : l'.HasArguments true) (hvalid : l.Valid barrier)
    (hvalid' : l'.Valid barrier)
    (h : l.text Number.digits ++ e.bytes = l'.text Number.digits ++ e'.bytes) :
    l = l' ∧ e = e' := by
  -- both begin with the keyword that `get_next` finds
  have hcommand : l.command = l'.command := by
    have hrun := run_getNext_text hl e.bytes
    rw [h, run_getNext_text hl' e'.bytes] at hrun
    exact (Prod.mk.inj (Option.some.inj hrun)).1.symm
  cases l with
  | create a b c =>
    cases l' with
    | create a' b' c' =>
      simp only [Line.text, List.append_assoc, List.cons_append, List.append_cancel_left_eq] at h
      obtain ⟨ha, -, h⟩ := Number.sep_unique (by decide) (by decide) h
      obtain ⟨hb, -, h⟩ := Number.sep_unique (by decide) (by decide) h
      obtain ⟨hc, he⟩ := Number.end_unique h
      exact ⟨by rw [ha, hb, hc], he⟩
    | _ => cases hcommand
  | reserve a seats =>
    cases l' with
    | reserve a' seats' =>
      simp only [Line.text, List.append_assoc, List.cons_append, List.append_cancel_left_eq] at h
      obtain ⟨ha, -, h⟩ := Number.sep_unique (by decide) (by decide) h
      obtain ⟨hseats, he⟩ := Line.seatsText_unique hvalid.1 hvalid'.1 (List.cons.inj h).2
      exact ⟨by rw [ha, hseats], Ending.bytes_injective he⟩
    | _ => cases hcommand
  | showEvent a =>
    cases l' with
    | showEvent a' =>
      simp only [Line.text, List.append_assoc, List.append_cancel_left_eq] at h
      obtain ⟨ha, he⟩ := Number.end_unique h
      exact ⟨by rw [ha], he⟩
    | _ => cases hcommand
  | wait d threadId =>
    cases l' with
    | wait d' threadId' =>
      cases threadId with
      | none =>
        cases threadId' with
        | none =>
          simp only [Line.text, List.append_assoc, List.append_cancel_left_eq] at h
          obtain ⟨hd, he⟩ := Number.end_unique h
          exact ⟨by rw [hd], he⟩
        | some t' =>
          simp only [Line.text, List.append_assoc, List.cons_append,
            List.append_cancel_left_eq] at h
          -- one has a second number and the other has none
          exact absurd h Number.end_ne_sep
      | some t =>
        cases threadId' with
        | none =>
          simp only [Line.text, List.append_assoc, List.cons_append,
            List.append_cancel_left_eq] at h
          exact absurd h.symm Number.end_ne_sep
        | some t' =>
          simp only [Line.text, List.append_assoc, List.cons_append,
            List.append_cancel_left_eq] at h
          obtain ⟨hd, -, h⟩ := Number.sep_unique (by decide) (by decide) h
          obtain ⟨ht, he⟩ := Number.end_unique h
          exact ⟨by rw [hd, ht], he⟩
    | _ => cases hcommand
  | listEvents => exact hl.elim
  | barrier => exact hl.elim
  | help => exact hl.elim
  | comment text => exact hl.elim
  | blank => exact hl.elim

/-! ## Only the grammar -/

/-- What the parsers accept at the beginning of the file is one line of the documented
form, with the values that its digits have. -/
def OnlyGrammar (barrier : Bool) (junk s : List UInt8) : Prop :=
  ∀ d s', (next barrier true junk).run s = some (d, s') → d.HasArguments →
    ∃ (l : Line Number) (tail : Tail), l.WellFormed barrier ∧
      s = l.text Number.digits ++ tail.bytes ∧ s' = tail.rest ∧ d = l.decoded true Number.value

/-- No number of the line is missing and a newline ends it; or the file does, and then it
is refused (a `RESERVE`, or because of the number that the digits in the buffer make), or
the buffer adds nothing to its last number. -/
def Line.Clean (junk : List UInt8) (l : Line Number) : Ending → Prop
  | .newline _ => ∀ n ∈ l.numbers, n.digits ≠ []
  | .nul _ => False
  | .eof => ∀ n, l.lastNumber true = some n → n.buffered junk ≤ uintMax →
      n.Quiet junk ∧ ∀ m ∈ l.numbers, m.digits ≠ []

namespace Line

theorem hasArguments_of_decoded {ν : Type} {value : ν → UInt32} {l : Line ν}
    (h : (l.decoded true value).HasArguments) : l.HasArguments true := by
  cases l with
  | wait d threadId =>
    cases threadId with
    | none => exact trivial
    | some t => exact rfl
  | _ => exact h

theorem read_hasArguments {junk : List UInt8} {e : Ending} {l : Line Number} {d : Decoded}
    (hl : l.HasArguments true) (h : l.read true junk e = some d) : d.HasArguments := by
  cases l with
  | create a b c =>
    obtain ⟨v, -, rfl⟩ := Option.map_eq_some_iff.mp h
    exact trivial
  | reserve a seats =>
    rw [read] at h
    split at h
    · cases h; exact trivial
    · cases h
  | showEvent a =>
    obtain ⟨v, -, rfl⟩ := Option.map_eq_some_iff.mp h
    exact trivial
  | wait d threadId =>
    cases threadId with
    | none =>
      obtain ⟨v, -, rfl⟩ := Option.map_eq_some_iff.mp h
      exact trivial
    | some t =>
      rw [read, if_pos rfl] at h
      obtain ⟨v, -, rfl⟩ := Option.map_eq_some_iff.mp h
      exact trivial
  | listEvents => exact hl.elim
  | barrier => exact hl.elim
  | help => exact hl.elim
  | comment text => exact hl.elim
  | blank => exact hl.elim

/-- At the end of the file a line is read exactly when its last number is. -/
theorem read_eof_some_iff {junk : List UInt8} {l : Line Number} (hl : l.HasArguments true) :
    (∃ d, l.read true junk .eof = some d) ↔
      ∃ n, l.lastNumber true = some n ∧ n.buffered junk ≤ uintMax := by
  have hlast : ∀ n : Number, (∃ v, n.last junk .eof = some v) ↔ n.buffered junk ≤ uintMax := by
    intro n
    unfold Number.last
    by_cases h : uintMax < n.buffered junk
    · simp [if_pos h]
      omega
    · simp [if_neg h]
      omega
  cases l with
  | create a b c => simp [read, lastNumber, ← hlast, ← Option.isSome_iff_exists]
  | reserve a seats => simp [read, lastNumber, Ending.seen]
  | showEvent a => simp [read, lastNumber, ← hlast, ← Option.isSome_iff_exists]
  | wait d threadId =>
    cases threadId with
    | none => simp [read, lastNumber, ← hlast, ← Option.isSome_iff_exists]
    | some t => simp [read, lastNumber, ← hlast, ← Option.isSome_iff_exists]
  | listEvents => exact hl.elim
  | barrier => exact hl.elim
  | help => exact hl.elim
  | comment text => exact hl.elim
  | blank => exact hl.elim

end Line

/-- The line that the file begins with. -/
theorem clean_of_onlyGrammar {barrier : Bool} {junk s : List UInt8}
    (h : OnlyGrammar barrier junk s) {l : Line Number} {e : Ending} (hvalid : l.Valid barrier)
    (hargs : l.HasArguments true) (hs : s = l.text Number.digits ++ e.bytes) :
    l.Clean junk e := by
  -- a line that is read is the line of the grammar that the file begins with
  have hread : ∀ d, l.read true junk e = some d →
      (∃ tail, e = Ending.ofTail tail) ∧ l.WellFormed barrier ∧ d = l.decoded true Number.value := by
    intro d hd
    have hrun := run_line_arguments junk hvalid hargs e
    rw [hd, Option.getD_some, ← hs] at hrun
    obtain ⟨l', tail, hwf, htext, -, hdec⟩ := h d e.rest hrun (Line.read_hasArguments hargs hd)
    have hargs' : l'.HasArguments true := by
      have hd' := Line.read_hasArguments hargs hd
      rw [hdec] at hd'
      exact Line.hasArguments_of_decoded hd'
    have htext' : l.text Number.digits ++ e.bytes =
        l'.text Number.digits ++ (Ending.ofTail tail).bytes := by
      rw [← hs, htext, Ending.ofTail_bytes]
    obtain ⟨rfl, he⟩ := text_unique hargs hargs' hvalid hwf.valid htext'
    exact ⟨⟨tail, he⟩, hwf, hdec⟩
  cases e with
  | newline rest => exact (hread _ (l.read_newline rest)).2.1.complete
  | nul rest =>
    obtain ⟨⟨tail, htail⟩, -⟩ := hread _
      (Line.read_eq_decoded_iff.mpr ⟨fun _ => rfl, fun _ _ => rfl⟩)
    cases tail <;> cases htail
  | eof =>
    intro n hn hle
    obtain ⟨d, hd⟩ := (Line.read_eof_some_iff hargs).mpr ⟨n, hn, hle⟩
    obtain ⟨-, hwf, rfl⟩ := hread d hd
    have hlast := (Line.read_eq_decoded_iff.mp hd).2 n hn
    exact ⟨(Number.last_eof_iff (hwf.complete n (Line.lastNumber_mem hn))).mp hlast, hwf.complete⟩

/-- **Exactly then** a parser that accepts has seen one line of the documented form and
returns its numbers: every line that the file may begin with is clean. -/
theorem onlyGrammar_iff {barrier : Bool} {junk s : List UInt8} :
    OnlyGrammar barrier junk s ↔ ∀ (l : Line Number) (e : Ending), l.Valid barrier →
      l.HasArguments true → s = l.text Number.digits ++ e.bytes → l.Clean junk e := by
  constructor
  · intro h l e hvalid hargs hs
    exact clean_of_onlyGrammar h hvalid hargs hs
  · intro h d s' hrun hd
    obtain ⟨l, e, hvalid, hargs, hs, he, hread⟩ := next_some hd hrun
    have hclean := h l e hvalid hargs hs
    cases e with
    | newline rest =>
      rw [l.read_newline] at hread
      exact ⟨l, some rest, ⟨hvalid, hclean⟩, hs, he.symm, (Option.some.inj hread).symm⟩
    | nul rest => exact hclean.elim
    | eof =>
      -- accepted at the end of the file: the last number has fitted with what is behind it
      obtain ⟨n, hn, hle⟩ := (Line.read_eof_some_iff hargs).mp ⟨d, hread⟩
      obtain ⟨hquiet, hcomplete⟩ := hclean n hn hle
      have hlast : ∀ m, l.lastNumber true = some m → m.last junk .eof = some m.value := by
        intro m hm
        rw [hn] at hm
        cases hm
        exact (Number.last_eof_iff (hcomplete n (Line.lastNumber_mem hn))).mpr hquiet
      have hreserve : l.isReserve = false := by
        cases l with
        | reserve a seats => cases hn
        | _ => rfl
      have hdecoded := Line.read_eq_decoded_iff.mpr ⟨by simp [hreserve], hlast⟩
      rw [hdecoded] at hread
      exact ⟨l, none, ⟨hvalid, hcomplete⟩, hs, he.symm, (Option.some.inj hread).symm⟩

/-- No digits at all. -/
def Number.missing : Number := ⟨[], nofun, Nat.zero_le _, Nat.zero_le _⟩

/-- `SHOW` without its argument shows the event 0, in both parsers. -/
theorem show_nothing_accepted :
    (next true true []).run (bytes "SHOW \n") = some (.showEvent 0, []) ∧
    (next false true []).run (bytes "SHOW \n") = some (.showEvent 0, []) ∧
    ¬ OnlyGrammar true [] (bytes "SHOW \n") ∧ ¬ OnlyGrammar false [] (bytes "SHOW \n") := by
  have hnot : ∀ barrier, ¬ OnlyGrammar barrier [] (bytes "SHOW \n") := by
    intro barrier h
    have hclean := clean_of_onlyGrammar h (l := .showEvent .missing) (e := .newline []) trivial
      trivial (by decide)
    exact hclean .missing (List.mem_singleton_self _) rfl
  exact ⟨by decide, by decide, hnot true, hnot false⟩

end Ems.Parse
