import Mathlib.Data.List.Nodup
import Ems.Parse.Commands

/-!
# Where a command parser stops

The parsers take a line apart with a fixed number of reads, and every error exit
calls `cleanup`, which skips to the next newline. That is right as long as the
newline of the current line has not been read yet. It has been when the line ends
where the parser still expects something: the newline then is the byte that does
not fit, and `cleanup` skips the *next* line. A NUL is taken for the end of the
file, also in the middle of a line; what follows it stays unread.

A `Shape` says both of a kind of text: `cut` holds of the texts that end too
early, `stops a r` says that a parser is content with `a` up to a NUL and leaves
`r`. The combinators follow the parsers' own (`field`, `byte`), and `Handles p S`
is the judgement that the parser `p` behaves as the shape `S` says, on every text
and whatever follows the line. `Shape.line` is the shape of a whole line.
-/

namespace Ems.Parse

open Base

/-- Which texts end too early for a parser, and which it leaves at a NUL. -/
structure Shape where
  cut : List UInt8 → Prop
  stops : List UInt8 → List UInt8 → Prop

namespace Shape

/-- The rest of the line does not matter. -/
def skip : Shape := ⟨fun _ => False, fun _ _ => False⟩

/-- An integer, the byte `sep`, and then `S`. -/
def field (sep : UInt8) (S : Shape) : Shape where
  cut a := Numeral a ∨ ∃ ds r, Fits ds ∧ a = ds ++ sep :: r ∧ S.cut r
  stops a s := ∃ ds r, Fits ds ∧ a = ds ++ sep :: r ∧ S.stops r s

/-- An integer at the end of the line. -/
def lastField : Shape where
  cut a := Numeral a ∧ ¬ Fits a
  stops a s := ∃ ds, Fits ds ∧ a = ds ++ 0 :: s

/-- A byte, and then what `branch` says of it; no other byte is accepted. -/
def byte (branch : UInt8 → Option Shape) : Shape where
  cut a := a = [] ∨ ∃ c r S, branch c = some S ∧ a = c :: r ∧ S.cut r
  stops a s := ∃ c r S, branch c = some S ∧ a = c :: r ∧ S.stops r s

/-- The end of the line. -/
def finish : Shape := ⟨fun _ => False, fun a s => a = 0 :: s⟩

/-- `CREATE`'s arguments. -/
def create : Shape := field 32 (field 32 lastField)

/-- The seats of a `RESERVE` from a `(` on, `left` more of them allowed; the last
one allowed is refused. -/
def coords : Nat → Shape
  | 0 => skip
  | left + 1 =>
    byte fun ch => if ch = 40 then some (field 44 (field 41 (byte fun ch =>
      if ch = 32 then some (coords left)
      else if ch = 93 then some (if left = 0 then skip else finish)
      else none))) else none

/-- `RESERVE`'s arguments. -/
def reserve : Shape :=
  field 32 (byte fun ch => if ch = 91 then some (coords maxReservationSize) else none)

/-- `WAIT`'s arguments, with or without a thread id. -/
def wait (target : Bool) : Shape where
  cut a := lastField.cut a ∨ (target = true ∧ ∃ ds r, Fits ds ∧ a = ds ++ 32 :: r ∧ lastField.cut r)
  stops a s := lastField.stops a s ∨
    (target = true ∧ ∃ ds r, Fits ds ∧ a = ds ++ 32 :: r ∧ lastField.stops r s)

/-- The fixed text `t`, and then `S`. -/
def text (t : List UInt8) (S : Shape) : Shape where
  cut a := a.length < t.length ∨ ∃ r, a = t ++ r ∧ S.cut r
  stops a s := ∃ r, a = t ++ r ∧ S.stops r s

/-- The keywords of the parsers and what follows them. -/
def keywords (barrier target : Bool) : List (List UInt8 × Shape) :=
  [(bytes "CREATE ", create), (bytes "RESERVE ", reserve), (bytes "SHOW ", lastField),
    (bytes "LIST", skip), (bytes "WAIT ", wait target), (bytes "HELP", skip)] ++
    if barrier then [(bytes "BARRIER", skip)] else []

/-- A whole line. It ends too early when it has a keyword's first byte and fewer
bytes than the keyword, or when the arguments do. -/
def line (barrier target : Bool) : Shape where
  cut a := ∃ k ∈ keywords barrier target, a.head? = k.1.head? ∧ (text k.1 k.2).cut a
  stops a s := ∃ k ∈ keywords barrier target, (text k.1 k.2).stops a s

end Shape

/-- The reading has gone past the beginning of the next line, unless there is
none. -/
def Overran (tail : Tail) (pos : List UInt8) : Prop :=
  pos.length < tail.rest.length ∨ (pos = [] ∧ tail.rest = [])

/-- The position `pos` after a text `a` is the one the shape says. -/
structure StopsAt (S : Shape) (a : List UInt8) (tail : Tail) (pos : List UInt8) : Prop where
  cut : S.cut a → Overran tail pos
  stops : ∀ r, S.stops a r → pos = r ++ tail.bytes
  clean : ¬ S.cut a → (∀ r, ¬ S.stops a r) → pos = tail.rest

/-- The parser `p` stops where the shape `S` says. -/
def Handles {α : Type} (p : Reading α) (S : Shape) : Prop :=
  ∀ a tail, nl ∉ a → ShortNumerals a →
    ∃ x pos, p.run (a ++ tail.bytes) = some (x, pos) ∧ StopsAt S a tail pos

/-! ## The ways a parser stops -/

/-- At the beginning of the next line. -/
theorem StopsAt.of_clean {S : Shape} {a : List UInt8} {tail : Tail} (hc : ¬ S.cut a)
    (hs : ∀ r, ¬ S.stops a r) : StopsAt S a tail tail.rest :=
  ⟨fun h => absurd h hc, fun r h => absurd h (hs r), fun _ _ => rfl⟩

/-- Past it, after reading the newline. -/
theorem StopsAt.of_cut {S : Shape} {a : List UInt8} {tail : Tail} {pos : List UInt8}
    (hc : S.cut a) (hs : ∀ r, ¬ S.stops a r) (ho : Overran tail pos) : StopsAt S a tail pos :=
  ⟨fun _ => ho, fun r h => absurd h (hs r), fun h => absurd hc h⟩

theorem overran_dropLine (tail : Tail) : Overran tail (dropLine tail.rest) := by
  by_cases h : tail.rest = []
  · rw [h]
    exact Or.inr ⟨rfl, h⟩
  · exact Or.inl (dropLine_length_lt h)

/-- `cleanup` with the newline still to come. -/
theorem run_fail {β : Type} {r : List UInt8} (h : nl ∉ r) (tail : Tail) :
    (fail : Reading (Option β)).run (r ++ tail.bytes) = some (none, tail.rest) := by
  simp [fail, dropLine_line h]

/-- `cleanup` with the newline already read. -/
theorem run_fail_rest {β : Type} (tail : Tail) :
    (fail : Reading (Option β)).run tail.rest = some (none, dropLine tail.rest) := by
  simp [fail]

/-- What is behind a byte of the line. -/
theorem notMem_suffix {a b s : List UInt8} {c : UInt8} (h : nl ∉ a) (ha : a = b ++ c :: s) :
    nl ∉ s ∧ c ≠ nl := by
  subst ha
  refine ⟨fun hm => h (by simp [hm]), fun hc => h (by simp [hc])⟩

/-- The reader at the end of a line: it reads the newline, or the end of the
file. -/
theorem run_readUint_end {ds : List UInt8} (junk : List UInt8) (hd : Numeral ds)
    (hlen : ds.length ≤ 15) (tail : Tail) :
    ∃ v c, (readUint junk).run (ds ++ tail.bytes) = some ((v, c), tail.rest) ∧
      (c = nl ∨ c = 0) ∧ (tail ≠ none → c = nl ∧
        v = if uintMax < decimal ds then none else some (UInt32.ofNat (decimal ds))) := by
  cases tail with
  | none =>
    obtain ⟨v, hv⟩ : ∃ v, (readUint junk).run ds = some ((v, 0), []) :=
      ⟨_, run_readUint_last junk hd hlen⟩
    refine ⟨v, 0, ?_, Or.inr rfl, fun h => absurd rfl h⟩
    simp only [Tail.bytes, List.append_nil]
    exact hv
  | some more =>
    exact ⟨_, nl, run_readUint junk more hd hlen (by decide), Or.inl rfl, fun _ => ⟨rfl, rfl⟩⟩

theorem ofNat_of_fits {ds : List UInt8} (h : Fits ds) :
    (if uintMax < decimal ds then none else some (UInt32.ofNat (decimal ds))) =
      some (UInt32.ofNat (decimal ds)) := if_neg (Nat.not_lt.mpr h.2)

theorem none_of_not_fits {ds : List UInt8} (hd : Numeral ds) (h : ¬ Fits ds) :
    (if uintMax < decimal ds then none else some (UInt32.ofNat (decimal ds))) = none :=
  if_pos (Nat.lt_of_not_le fun hle => h ⟨hd, hle⟩)

/-! ## The combinators -/

/-- An integer that has to be followed by `sep`. -/
theorem handles_field {β : Type} {junk : List UInt8} {sep : UInt8} {accept : UInt8 → Bool}
    {next : UInt32 → Reading (Option β)} {S : Shape} (hacc : ∀ ch, accept ch = true ↔ ch = sep)
    (hsep : isDigit sep = false) (hnl : sep ≠ nl) (hnul : sep ≠ 0)
    (hnext : ∀ v, Handles (next v) S) : Handles (field junk accept next) (Shape.field sep S) := by
  have hreject : ∀ ch, ch ≠ sep → accept ch = false := by
    intro ch h
    cases hb : accept ch with
    | false => rfl
    | true => exact absurd ((hacc ch).mp hb) h
  intro a tail hline hshort
  rcases split_numeral a with hnum | ⟨ds, c, r, hd, hc, ha⟩
  · -- the line ends with the integer
    have hlen : a.length ≤ 15 := by
      have hshort' : ShortNumerals (a ++ []) := by rw [List.append_nil]; exact hshort
      exact hshort'.head hnum
    obtain ⟨v, ch, hrun, hch, -⟩ := run_readUint_end junk hnum hlen tail
    have hne : ch ≠ sep := by
      rcases hch with h | h
      · rw [h]; exact Ne.symm hnl
      · rw [h]; exact Ne.symm hnul
    refine ⟨none, dropLine tail.rest, ?_, .of_cut (Or.inl hnum) ?_ (overran_dropLine tail)⟩
    · unfold field
      rw [Reading.run_bind, hrun, Option.bind_some]
      cases v with
      | none => exact run_fail_rest tail
      | some v => simp only [hreject ch hne, Bool.not_false, if_true]; exact run_fail_rest tail
    · intro s hs
      obtain ⟨ds, r, -, ha, -⟩ := hs
      exact numeral_no_end hnum hsep ha
  · -- a byte ends the integer
    obtain ⟨hr, hcnl⟩ := notMem_suffix hline ha
    subst ha
    have hlen := hshort.head hd
    have hrun := run_readUint junk (r ++ tail.bytes) hd hlen hc
    have happ : ds ++ c :: r ++ tail.bytes = ds ++ c :: (r ++ tail.bytes) := by simp
    have hsplit : ∀ ds' r', Fits ds' → ds ++ c :: r = ds' ++ sep :: r' →
        ds = ds' ∧ c = sep ∧ r = r' := fun ds' r' hf h => split_unique hd hf.1 hc hsep h
    have hnotnum : ¬ Numeral (ds ++ c :: r) := fun h => numeral_no_end h hc rfl
    by_cases hgo : Fits ds ∧ c = sep
    · obtain ⟨hfit, rfl⟩ := hgo
      obtain ⟨x, pos, hx, hstop⟩ := hnext (UInt32.ofNat (decimal ds)) r tail hr
        (ShortNumerals.suffix (by rw [List.append_cons] at hshort; exact hshort))
      refine ⟨x, pos, ?_, ⟨fun hcut => ?_, fun s hs => ?_, fun hcut hs => ?_⟩⟩
      · unfold field
        rw [happ, Reading.run_bind, hrun, ofNat_of_fits hfit, Option.bind_some]
        simp only [(hacc c).mpr rfl, Bool.not_true, Bool.false_eq_true, if_false]
        exact hx
      · rcases hcut with hnum | ⟨ds', r', hf, h, hcut⟩
        · exact absurd hnum hnotnum
        · obtain ⟨-, -, rfl⟩ := hsplit ds' r' hf h
          exact hstop.cut hcut
      · obtain ⟨ds', r', hf, h, hs⟩ := hs
        obtain ⟨-, -, rfl⟩ := hsplit ds' r' hf h
        exact hstop.stops s hs
      · exact hstop.clean (fun h => hcut (Or.inr ⟨ds, r, hfit, rfl, h⟩))
          fun s h => hs s ⟨ds, r, hfit, rfl, h⟩
    · -- refused, and the newline is still to come
      refine ⟨none, tail.rest, ?_, .of_clean ?_ ?_⟩
      · unfold field
        rw [happ, Reading.run_bind, hrun, Option.bind_some]
        by_cases hfit : Fits ds
        · rw [ofNat_of_fits hfit]
          simp only [hreject c fun h => hgo ⟨hfit, h⟩, Bool.not_false, if_true]
          exact run_fail hr tail
        · rw [none_of_not_fits hd hfit]
          exact run_fail hr tail
      · rintro (hnum | ⟨ds', r', hf, h, -⟩)
        · exact hnotnum hnum
        · obtain ⟨rfl, rfl, -⟩ := hsplit ds' r' hf h
          exact hgo ⟨hf, rfl⟩
      · rintro s ⟨ds', r', hf, h, -⟩
        obtain ⟨rfl, rfl, -⟩ := hsplit ds' r' hf h
        exact hgo ⟨hf, rfl⟩

/-- An integer that ends the line. -/
theorem handles_lastField {β : Type} {junk : List UInt8} (value : UInt32 → Option β) :
    Handles (field junk isEnd fun v => pure (value v)) Shape.lastField := by
  intro a tail hline hshort
  rcases split_numeral a with hnum | ⟨ds, c, r, hd, hc, ha⟩
  · have hlen : a.length ≤ 15 := by
      have hshort' : ShortNumerals (a ++ []) := by rw [List.append_nil]; exact hshort
      exact hshort'.head hnum
    obtain ⟨v, ch, hrun, hch, hv⟩ := run_readUint_end junk hnum hlen tail
    have hend : isEnd ch = true := by rcases hch with rfl | rfl <;> decide
    have hstops : ∀ r, ¬ Shape.lastField.stops a r := by
      intro s hs
      obtain ⟨ds, -, ha⟩ := hs
      exact numeral_no_end hnum isDigit_zero ha
    cases tail with
    | none =>
      -- whatever comes out, the file is over
      cases v with
      | none =>
        refine ⟨none, [], ?_, fun _ => Or.inr ⟨rfl, rfl⟩, fun r h => absurd h (hstops r),
          fun _ _ => rfl⟩
        unfold field
        rw [Reading.run_bind, hrun, Option.bind_some]
        exact run_fail_rest none
      | some v =>
        refine ⟨value v, [], ?_, fun _ => Or.inr ⟨rfl, rfl⟩, fun r h => absurd h (hstops r),
          fun _ _ => rfl⟩
        unfold field
        rw [Reading.run_bind, hrun, Option.bind_some]
        simp only [hend, Bool.not_true, Bool.false_eq_true, if_false, Reading.run_pure, Tail.rest]
    | some more =>
      obtain ⟨-, hv⟩ := hv (by simp)
      by_cases hfit : Fits a
      · refine ⟨value (UInt32.ofNat (decimal a)), more, ?_, .of_clean (fun h => h.2 hfit) hstops⟩
        unfold field
        rw [Reading.run_bind, hrun, hv, ofNat_of_fits hfit, Option.bind_some]
        simp only [hend, Bool.not_true, Bool.false_eq_true, if_false, Reading.run_pure, Tail.rest]
      · -- refused after the newline
        refine ⟨none, dropLine more, ?_, .of_cut ⟨hnum, hfit⟩ hstops (overran_dropLine (some more))⟩
        unfold field
        rw [Reading.run_bind, hrun, hv, none_of_not_fits hnum hfit, Option.bind_some]
        exact run_fail_rest (some more)
  · obtain ⟨hr, hcnl⟩ := notMem_suffix hline ha
    subst ha
    have hrun := run_readUint junk (r ++ tail.bytes) hd (hshort.head hd) hc
    have happ : ds ++ c :: r ++ tail.bytes = ds ++ c :: (r ++ tail.bytes) := by simp
    have hcut : ¬ Shape.lastField.cut (ds ++ c :: r) := fun h => numeral_no_end h.1 hc rfl
    have hsplit : ∀ s, Shape.lastField.stops (ds ++ c :: r) s → Fits ds ∧ c = 0 ∧ r = s := by
      intro s hs
      obtain ⟨ds', hf, h⟩ := hs
      obtain ⟨rfl, rfl, rfl⟩ := split_unique hd hf.1 hc isDigit_zero h
      exact ⟨hf, rfl, rfl⟩
    by_cases hfit : Fits ds
    · by_cases hnul : c = 0
      · subst hnul
        refine ⟨value (UInt32.ofNat (decimal ds)), r ++ tail.bytes, ?_, fun h => absurd h hcut,
          fun s hs => ?_, fun _ h => absurd ⟨ds, hfit, rfl⟩ (h r)⟩
        · unfold field
          rw [happ, Reading.run_bind, hrun, ofNat_of_fits hfit, Option.bind_some]
          rfl
        · obtain ⟨-, -, rfl⟩ := hsplit s hs
          rfl
      · refine ⟨none, tail.rest, ?_, .of_clean hcut fun s hs => hnul (hsplit s hs).2.1⟩
        unfold field
        rw [happ, Reading.run_bind, hrun, ofNat_of_fits hfit, Option.bind_some]
        have hend : isEnd c = false := by simp [isEnd, hcnl, hnul]
        simp only [hend, Bool.not_false, if_true]
        exact run_fail hr tail
    · refine ⟨none, tail.rest, ?_, .of_clean hcut fun s hs => hfit (hsplit s hs).1⟩
      unfold field
      rw [happ, Reading.run_bind, hrun, none_of_not_fits hd hfit, Option.bind_some]
      exact run_fail hr tail

/-- A byte that has to be there. -/
theorem handles_byte {β : Type} {accept : UInt8 → Bool} {next : UInt8 → Reading (Option β)}
    {branch : UInt8 → Option Shape} (hacc : ∀ ch, accept ch = (branch ch).isSome)
    (hnl : branch nl = none) (hnext : ∀ ch S, branch ch = some S → Handles (next ch) S) :
    Handles (Parse.byte accept next) (Shape.byte branch) := by
  intro a tail hline hshort
  cases a with
  | nil =>
    -- the newline, or nothing, instead of the byte
    refine ⟨none, dropLine tail.rest, ?_, .of_cut (Or.inl rfl) ?_ (overran_dropLine tail)⟩
    · unfold byte
      cases tail with
      | none => rfl
      | some more =>
        have hrej : accept nl = false := by rw [hacc, hnl]; rfl
        simp only [Tail.bytes, List.nil_append, Reading.run_bind, Reading.run_readBytes,
          List.take_succ_cons, List.take_zero, List.drop_succ_cons, List.drop_zero,
          Option.bind_some, hrej, Bool.not_false, if_true]
        exact run_fail_rest (some more)
    · intro r h
      obtain ⟨c, s, S, -, h, -⟩ := h
      cases h
  | cons b r =>
    obtain ⟨hr, -⟩ := notMem_suffix hline (show b :: r = [] ++ b :: r from rfl)
    have hrun : ∀ k : List UInt8 → Reading (Option β),
        (Reading.readBytes 1 >>= k).run (b :: r ++ tail.bytes) = (k [b]).run (r ++ tail.bytes) := by
      intro k
      simp
    unfold byte
    rw [hrun]
    dsimp only
    rw [hacc b]
    cases hb : branch b with
    | none =>
      refine ⟨none, tail.rest, run_fail hr tail, .of_clean ?_ ?_⟩
      · intro h
        rcases h with h | ⟨c, s, S, hS, h, -⟩
        · cases h
        · cases h; rw [hb] at hS; cases hS
      · intro s h
        obtain ⟨c, r', S, hS, h, -⟩ := h
        cases h; rw [hb] at hS; cases hS
    | some S =>
      obtain ⟨x, pos, hx, hstop⟩ := hnext b S hb r tail hr (ShortNumerals.suffix (a := [b]) hshort)
      refine ⟨x, pos, hx, fun h => ?_, fun s h => ?_, fun h hs => ?_⟩
      · rcases h with h | ⟨c, s, S', hS, h, hcut⟩
        · cases h
        · cases h; rw [hb] at hS; cases hS; exact hstop.cut hcut
      · obtain ⟨c, r', S', hS, h, hst⟩ := h
        cases h; rw [hb] at hS; cases hS; exact hstop.stops s hst
      · exact hstop.clean (fun hc => h (Or.inr ⟨b, r, S, hb, rfl, hc⟩))
          fun s hst => hs s ⟨b, r, S, hb, rfl, hst⟩

theorem handles_fail {β : Type} : Handles (fail : Reading (Option β)) Shape.skip := by
  intro a tail hline _
  exact ⟨none, tail.rest, run_fail hline tail, .of_clean (fun h => h) fun _ h => h⟩

/-! ## The parsers -/

/-- The result does not matter. -/
theorem Handles.bind {α β : Type} {p : Reading α} {S : Shape} (h : Handles p S) {f : α → Reading β}
    (hf : ∀ x, ∃ y, f x = pure y) : Handles (p >>= f) S := by
  intro a tail hline hshort
  obtain ⟨x, pos, hrun, hstop⟩ := h a tail hline hshort
  obtain ⟨y, hy⟩ := hf x
  refine ⟨y, pos, ?_, hstop⟩
  rw [Reading.run_bind, hrun, Option.bind_some, hy]
  rfl

theorem handles_create (junk : List UInt8) : Handles (parseCreate junk) Shape.create :=
  handles_field (by simp [is]; rfl) (by decide) (by decide) (by decide) fun _ =>
  handles_field (by simp [is]; rfl) (by decide) (by decide) (by decide) fun _ =>
  handles_lastField _

theorem handles_show (junk : List UInt8) : Handles (parseShow junk) Shape.lastField :=
  handles_lastField _

theorem handles_finish {max : Nat} {eventId : UInt32} {coords : List (UInt64 × UInt64)} :
    Handles (finishReserve max eventId coords)
      (if coords.length = max then Shape.skip else Shape.finish) := by
  unfold finishReserve
  split
  next => exact handles_fail
  next =>
    intro a tail hline _
    have hcut : ∀ b, ¬ Shape.finish.cut b := fun _ h => h
    cases a with
    | nil =>
      cases tail with
      | none =>
        exact ⟨none, [], rfl, .of_clean (hcut _) fun r h => by cases h⟩
      | some more =>
        exact ⟨some (eventId, coords), more, rfl, .of_clean (hcut _) fun r h => by cases h⟩
    | cons b r =>
      obtain ⟨hr, hbnl⟩ := notMem_suffix hline (show b :: r = [] ++ b :: r from rfl)
      by_cases hb : b = 0
      · subst hb
        refine ⟨some (eventId, coords), r ++ tail.bytes, rfl, fun h => absurd h (hcut _), ?_, ?_⟩
        · intro s h
          cases h
          rfl
        · intro _ h
          exact absurd rfl (h r)
      · refine ⟨none, tail.rest, ?_, .of_clean (hcut _) ?_⟩
        · have hend : isEnd b = false := by simp [isEnd, hbnl, hb]
          simp only [byte, Reading.run_bind, Reading.run_readBytes, List.cons_append,
            List.take_succ_cons, List.take_zero, List.drop_succ_cons, List.drop_zero,
            Option.bind_some, hend, Bool.not_false, if_true]
          exact run_fail hr tail
        · intro s h
          cases h
          exact hb rfl

/-- The loop, by induction on the seats it may still take. -/
theorem handles_coords (junk : List UInt8) {max : Nat} (eventId : UInt32) {left : Nat}
    {coords : List (UInt64 × UInt64)} (hleft : coords.length + left = max) :
    Handles (parseCoords junk max eventId left coords) (Shape.coords left) := by
  induction left generalizing coords with
  | zero =>
    have h := @handles_finish max eventId coords
    rw [if_pos (by omega)] at h
    exact h
  | succ left ih =>
    refine handles_byte (fun ch => ?_) (if_neg (by decide)) fun ch S hS => ?_
    · by_cases h : ch = 40
      · subst h; rfl
      · rw [if_neg h]; simp [is]; exact h
    split at hS
    next =>
      cases hS
      refine handles_field (by simp [is]; rfl) (by decide) (by decide) (by decide) fun x => ?_
      refine handles_field (by simp [is]; rfl) (by decide) (by decide) (by decide) fun y => ?_
      refine handles_byte (fun ch => ?_) (by rfl) fun ch S hS => ?_
      · by_cases h : ch = 32
        · subst h; rfl
        · by_cases h' : ch = 93
          · subst h'; rfl
          · rw [if_neg h, if_neg h']; simp [is]; exact ⟨h, h'⟩
      split at hS
      next hch =>
        -- another seat
        cases hS; subst hch
        exact ih (by simp; omega)
      next =>
        split at hS
        next hch =>
          -- the closing bracket
          cases hS; subst hch
          have h := @handles_finish max eventId (coords ++ [(x.toUInt64, y.toUInt64)])
          rw [List.length_append, List.length_singleton] at h
          by_cases h0 : left = 0
          · rw [if_pos (by omega)] at h
            rw [if_pos h0]
            exact h
          · rw [if_neg (by omega)] at h
            rw [if_neg h0]
            exact h
        next => cases hS
    next => cases hS

theorem handles_reserve (junk : List UInt8) :
    Handles (parseReserve junk maxReservationSize) Shape.reserve := by
  refine handles_field (by simp [is]; rfl) (by decide) (by decide) (by decide) fun _ => ?_
  refine handles_byte (fun ch => ?_) (by decide) fun ch S hS => ?_
  · by_cases h : ch = 91
    · subst h; rfl
    · rw [if_neg h]; simp [is]; exact h
  split at hS
  next =>
    cases hS
    exact handles_coords junk _ (by simp)
  next => cases hS

/-- A delay that a space does not follow is read like any last integer; behind
the space there is a thread id, or nothing of interest. -/
theorem handles_wait (junk : List UInt8) (target : Bool) :
    Handles (parseWait junk target) (Shape.wait target) := by
  intro a tail hline hshort
  by_cases hsp : ∃ ds r, Fits ds ∧ a = ds ++ 32 :: r
  · obtain ⟨ds, r, hfit, rfl⟩ := hsp
    obtain ⟨hr, -⟩ := notMem_suffix hline rfl
    have hrun := run_readUint junk (r ++ tail.bytes) hfit.1 (hshort.head hfit.1)
      (show isDigit 32 = false by decide)
    have happ : ds ++ 32 :: r ++ tail.bytes = ds ++ 32 :: (r ++ tail.bytes) := by simp
    have hcut : ¬ Shape.lastField.cut (ds ++ 32 :: r) := fun h =>
      numeral_no_end h.1 (by decide) rfl
    have hstops : ∀ s, ¬ Shape.lastField.stops (ds ++ 32 :: r) s := by
      intro s hs
      obtain ⟨ds', hf, h⟩ := hs
      have := (split_unique hfit.1 hf.1 (by decide) isDigit_zero h).2.1
      exact absurd this (by decide)
    have hsplit : ∀ ds' r', Fits ds' → ds ++ 32 :: r = ds' ++ 32 :: r' → r = r' := fun ds' r' hf h =>
      (split_unique hfit.1 hf.1 (by decide) (by decide) h).2.2
    unfold parseWait
    rw [happ, Reading.run_bind, hrun, ofNat_of_fits hfit, Option.bind_some]
    cases target with
    | true =>
      have hlast : Handles (field junk isEnd fun threadId =>
          pure (some (UInt32.ofNat (decimal ds), some threadId))) Shape.lastField :=
        handles_lastField _
      obtain ⟨x, pos, hx, hstop⟩ := hlast r tail hr
        (ShortNumerals.suffix (by rw [List.append_cons] at hshort; exact hshort))
      refine ⟨x, pos, hx, fun h => ?_, fun s h => ?_, fun h hs => ?_⟩
      · rcases h with h | ⟨-, ds', r', hf, h, hc⟩
        · exact absurd h hcut
        · rw [← hsplit ds' r' hf h] at hc
          exact hstop.cut hc
      · rcases h with h | ⟨-, ds', r', hf, h, hs⟩
        · exact absurd h (hstops s)
        · rw [← hsplit ds' r' hf h] at hs
          exact hstop.stops s hs
      · exact hstop.clean (fun hc => h (Or.inr ⟨rfl, ds, r, hfit, rfl, hc⟩))
          fun s hst => hs s (Or.inr ⟨rfl, ds, r, hfit, rfl, hst⟩)
    | false =>
      refine ⟨some (UInt32.ofNat (decimal ds), none), tail.rest, ?_, .of_clean ?_ ?_⟩
      · have hskip := dropLine_line hr tail
        dsimp only
        rw [if_pos (show (32 : UInt8) = ' '.toUInt8 by decide)]
        simp [hskip]
      · intro h
        rcases h with h | ⟨h, -⟩
        · exact hcut h
        · cases h
      · intro s h
        rcases h with h | ⟨h, -⟩
        · exact hstops s h
        · cases h
  · have hread : ∃ v c pos, (readUint junk).run (a ++ tail.bytes) = some ((v, c), pos) ∧
        (v = none ∨ c ≠ 32) := by
      rcases split_numeral a with hnum | ⟨ds, c, r, hd, hc, rfl⟩
      · have hlen : a.length ≤ 15 := by
          have hshort' : ShortNumerals (a ++ []) := by rw [List.append_nil]; exact hshort
          exact hshort'.head hnum
        obtain ⟨v, c, hrun, hc, -⟩ := run_readUint_end junk hnum hlen tail
        refine ⟨v, c, tail.rest, hrun, Or.inr ?_⟩
        rcases hc with rfl | rfl <;> decide
      · have hrun := run_readUint junk (r ++ tail.bytes) hd (hshort.head hd) hc
        rw [List.append_assoc, List.cons_append]
        by_cases hfit : Fits ds
        · exact ⟨_, c, _, hrun, Or.inr fun h => hsp ⟨ds, r, hfit, by rw [h]⟩⟩
        · exact ⟨_, c, _, hrun, Or.inl (none_of_not_fits hd hfit)⟩
    have hlast : Handles (field junk isEnd fun delay =>
        pure (some (delay, (none : Option UInt32)))) Shape.lastField := handles_lastField _
    obtain ⟨x, pos, hx, hstop⟩ := hlast a tail hline hshort
    refine ⟨x, pos, ?_, fun h => ?_, fun s h => ?_, fun h hs => ?_⟩
    · -- the two readers do the same here
      obtain ⟨v, c, pos', hrun, hvc⟩ := hread
      unfold field at hx
      unfold parseWait
      rw [Reading.run_bind, hrun, Option.bind_some] at hx ⊢
      rcases hvc with rfl | hc
      · exact hx
      · cases v with
        | none => exact hx
        | some v =>
          have hc' : ¬ c = ' '.toUInt8 := hc
          simp only [if_neg hc']
          by_cases hend : isEnd c
          · simp only [hend, Bool.not_true, Bool.false_eq_true, if_false] at hx
            simp only [hend, if_true]
            exact hx
          · simp only [Bool.not_eq_true] at hend
            simp only [hend, Bool.not_false, if_true] at hx
            simp only [hend, Bool.false_eq_true, if_false]
            exact hx
    · rcases h with h | ⟨-, ds, r, hf, h, -⟩
      · exact hstop.cut h
      · exact absurd ⟨ds, r, hf, h⟩ hsp
    · rcases h with h | ⟨-, ds, r, hf, h, -⟩
      · exact hstop.stops s h
      · exact absurd ⟨ds, r, hf, h⟩ hsp
    · exact hstop.clean (fun hc => h (Or.inl hc)) fun s hst => hs s (Or.inl hst)

/-! ## Whole lines -/

theorem run_invalidLine {f : Command → Reading Decoded} (hf : f .invalid = pure .invalid)
    (s : List UInt8) : (invalidLine >>= f).run s = some (.invalid, dropLine s) := by
  simp [invalidLine, hf]

/-- The read of a keyword's remaining bytes. When fewer are left it takes the
newline too. -/
theorem handles_keyword {text : List UInt8} {command : Command} {S : Shape}
    {f : Command → Reading Decoded} (htext : nl ∉ text.tail) (hf : f .invalid = pure .invalid)
    (hnext : Handles (f command) S) :
    Handles (keyword text command >>= f) (Shape.text text.tail S) := by
  intro a tail hline hshort
  have hread : (keyword text command >>= f).run (a ++ tail.bytes) =
      ((if (a ++ tail.bytes).take text.tail.length ≠ text.tail then invalidLine
        else pure command) >>= f).run ((a ++ tail.bytes).drop text.tail.length) := by
    simp [keyword]
  by_cases hcut : a.length < text.tail.length
  · -- too short
    refine ⟨.invalid, dropLine ((a ++ tail.bytes).drop text.tail.length), ?_,
      .of_cut (Or.inl hcut) ?_ ?_⟩
    · have hne : (a ++ tail.bytes).take text.tail.length ≠ text.tail := by
        intro h
        cases tail with
        | none =>
          have := congrArg List.length h
          simp [Tail.bytes] at this
          simp at hcut
          omega
        | some more =>
          refine htext ?_
          rw [← h]
          obtain ⟨k, hk⟩ : ∃ k, text.tail.length = a.length + (k + 1) :=
            ⟨text.tail.length - a.length - 1, by omega⟩
          rw [hk, List.take_length_add_append]
          simp [Tail.bytes]
      rw [hread, if_pos hne]
      exact run_invalidLine hf _
    · rintro r ⟨s, rfl, -⟩
      simp only [List.length_append] at hcut
      omega
    · obtain ⟨k, hk⟩ : ∃ k, text.tail.length = a.length + (k + 1) :=
        ⟨text.tail.length - a.length - 1, by omega⟩
      rw [hk, List.drop_length_add_append]
      cases tail with
      | none => exact Or.inr ⟨by simp [Tail.bytes, dropLine], rfl⟩
      | some more =>
        simp only [Tail.bytes, List.drop_succ_cons]
        by_cases hmore : more = []
        · exact Or.inr ⟨by simp [hmore, dropLine], hmore⟩
        · refine Or.inl ?_
          have hpos : 0 < more.length := List.length_pos_iff.mpr hmore
          by_cases hd : more.drop k = []
          · rw [hd]; exact hpos
          · calc (dropLine (more.drop k)).length < (more.drop k).length := dropLine_length_lt hd
              _ ≤ more.length := by simp
  · have htake : (a ++ tail.bytes).take text.tail.length = a.take text.tail.length :=
      List.take_append_of_le_length (by omega)
    have hdrop : (a ++ tail.bytes).drop text.tail.length = a.drop text.tail.length ++ tail.bytes :=
      List.drop_append_of_le_length (by omega)
    have hmem : nl ∉ a.drop text.tail.length := fun h => hline (List.mem_of_mem_drop h)
    by_cases heq : a.take text.tail.length = text.tail
    · have ha : a = text.tail ++ a.drop text.tail.length := by
        conv_lhs => rw [← List.take_append_drop text.tail.length a]
        rw [heq]
      obtain ⟨x, pos, hx, hstop⟩ := hnext (a.drop text.tail.length) tail hmem
        (ShortNumerals.suffix (by rw [← ha]; exact hshort))
      have hrest : ∀ r, a = text.tail ++ r → r = a.drop text.tail.length := by
        intro r h
        rw [ha] at h
        exact (List.append_cancel_left h).symm
      refine ⟨x, pos, ?_, fun h => ?_, fun s h => ?_, fun h hs => ?_⟩
      · rw [hread, htake, hdrop, if_neg (not_not.mpr heq)]
        exact hx
      · rcases h with h | ⟨r, h, hc⟩
        · exact absurd h hcut
        · rw [hrest r h] at hc
          exact hstop.cut hc
      · obtain ⟨r, h, hst⟩ := h
        rw [hrest r h] at hst
        exact hstop.stops s hst
      · exact hstop.clean (fun hc => h (Or.inr ⟨_, ha, hc⟩)) fun s hst => hs s ⟨_, ha, hst⟩
    · -- another word
      have hno : ∀ r, a ≠ text.tail ++ r := by
        intro r h
        exact heq (by rw [h]; simp)
      refine ⟨.invalid, tail.rest, ?_, .of_clean ?_ ?_⟩
      · rw [hread, htake, hdrop, if_pos heq, run_invalidLine hf, dropLine_line hmem]
      · rintro (h | ⟨r, h, -⟩)
        · exact hcut h
        · exact hno r h
      · rintro s ⟨r, h, -⟩
        exact hno r h

/-- Only the run counts. -/
theorem Handles.congr {α : Type} {p q : Reading α} {S : Shape} (h : Handles q S)
    (hrun : ∀ s, p.run s = q.run s) : Handles p S := by
  intro a tail hline hshort
  rw [hrun]
  exact h a tail hline hshort

/-- The byte behind a keyword with nothing else in its line. -/
def onlyNewline (d : Decoded) (invalid : Reading Decoded) : List UInt8 → Reading Decoded
  | [] => pure d
  | c :: _ => if c ≠ nl then invalid else pure d

theorem handles_bareKeyword {text : List UInt8} {command : Command} {f : Command → Reading Decoded}
    (htext : nl ∉ text.tail) (hf : f .invalid = pure .invalid) (hcommand : command ≠ .invalid)
    {d : Decoded} (hd : f command = pure d) :
    Handles (bareKeyword text command >>= f) (Shape.text text.tail Shape.skip) := by
  -- the keyword, and then one more byte
  let last : Command → Reading Decoded := fun c =>
    if c = .invalid then pure .invalid
    else Reading.readBytes 1 >>= onlyNewline d (invalidLine >>= f)
  have hlast : Handles (last command) Shape.skip := by
    intro a tail hline _
    simp only [last, if_neg hcommand, Reading.run_bind, Reading.run_readBytes, Option.bind_some]
    cases a with
    | nil =>
      refine ⟨d, tail.rest, ?_, .of_clean (fun h => h) fun _ h => h⟩
      cases tail <;> simp [onlyNewline, Tail.bytes, Tail.rest]
    | cons b r =>
      obtain ⟨hr, hbnl⟩ := notMem_suffix hline (show b :: r = [] ++ b :: r from rfl)
      refine ⟨.invalid, tail.rest, ?_, .of_clean (fun h => h) fun _ h => h⟩
      simp [onlyNewline, hbnl, invalidLine, hf, dropLine_line hr]
  refine (handles_keyword htext (f := last) (if_pos rfl) hlast).congr fun s => ?_
  simp only [keyword, bareKeyword, Reading.run_bind, Reading.run_readBytes, Option.bind_some]
  by_cases h : s.take (text.length - 1) = text.tail
  -- behind the whole keyword both read one more byte
  · simp only [h, ne_eq, not_true_eq_false, if_false, Reading.run_pure, Option.bind_some, last,
      if_neg hcommand, Reading.run_bind, Reading.run_readBytes]
    cases s.drop (text.length - 1) with
    | nil => simp [onlyNewline, hd]
    | cons b r =>
      by_cases hb : b = nl
      · simp [onlyNewline, hb, hd]
      · simp [onlyNewline, hb, invalidLine, hf]
  · simp [h, invalidLine, hf, last]

/-- What the rest of a program has to do with a command, for its decoder to be
one of the two here. -/
structure Arguments (f : Command → Reading Decoded) (target : Bool) : Prop where
  notEoc : ∀ {c s d s'}, c ≠ .eoc → (f c).run s = some (d, s') → d ≠ .eoc
  invalid : f .invalid = pure .invalid
  empty : f .empty = pure .empty
  eoc : f .eoc = pure .eoc
  listEvents : f .listEvents = pure .listEvents
  barrier : f .barrier = pure .barrier
  help : f .help = pure .help
  create : Handles (f .create) Shape.create
  reserve : Handles (f .reserve) Shape.reserve
  showEvent : Handles (f .showEvent) Shape.lastField
  wait : Handles (f .wait) (Shape.wait target)

/-- No two keywords begin alike. -/
theorem keywords_nodup (barrier target : Bool) :
    ((Shape.keywords barrier target).map fun k => k.1.head?).Nodup := by
  cases barrier <;> cases target <;> decide

theorem keywords_ne_nil (barrier target : Bool) :
    ∀ k ∈ Shape.keywords barrier target, k.1 ≠ [] := by
  cases barrier <;> cases target <;> decide

/-- A line that begins with a keyword's first byte. -/
theorem StopsAt.of_keyword {barrier target : Bool} {c : UInt8} {text : List UInt8} {S : Shape}
    (hk : (text, S) ∈ Shape.keywords barrier target) (hc : text.head? = some c) {s : List UInt8}
    {tail : Tail} {pos : List UInt8} (h : StopsAt (Shape.text text.tail S) s tail pos) :
    StopsAt (Shape.line barrier target) (c :: s) tail pos := by
  obtain ⟨t, rfl⟩ : ∃ t, text = c :: t := by
    cases text with
    | nil => cases hc
    | cons b t => cases hc; exact ⟨t, rfl⟩
  have hcut : ∀ t S, (Shape.text (c :: t) S).cut (c :: s) ↔ (Shape.text t S).cut s := by
    intro t S
    simp [Shape.text]
  have hstops : ∀ t S r, (Shape.text (c :: t) S).stops (c :: s) r ↔ (Shape.text t S).stops s r := by
    intro t S r
    simp [Shape.text]
  -- of all the keywords only this one may be meant
  have huniq : ∀ k ∈ Shape.keywords barrier target, (c :: s).head? = k.1.head? → k = (c :: t, S) :=
    fun k hk' hhead => List.inj_on_of_nodup_map (keywords_nodup barrier target) hk' hk hhead.symm
  refine ⟨fun hc => ?_, fun r hs => ?_, fun hc hs => ?_⟩
  · obtain ⟨k, hk', hhead, hc⟩ := hc
    rw [huniq k hk' hhead] at hc
    exact h.cut ((hcut t S).mp hc)
  · obtain ⟨k, hk', hs⟩ := hs
    have hhead : (c :: s).head? = k.1.head? := by
      obtain ⟨r', ha, -⟩ := hs
      rw [ha, List.head?_append_of_ne_nil _ (keywords_ne_nil barrier target k hk')]
    rw [huniq k hk' hhead] at hs
    exact h.stops r ((hstops t S r).mp hs)
  · exact h.clean (fun hc' => hc ⟨_, hk, rfl, (hcut t S).mpr hc'⟩)
      fun r hs' => hs r ⟨_, hk, (hstops t S r).mpr hs'⟩

/-- A line that begins with no keyword's first byte. -/
theorem StopsAt.of_other {barrier target : Bool} {a : List UInt8}
    (h : ∀ k ∈ Shape.keywords barrier target, a.head? ≠ k.1.head?) (tail : Tail) :
    StopsAt (Shape.line barrier target) a tail tail.rest := by
  refine .of_clean (fun hc => ?_) fun r hs => ?_
  · obtain ⟨k, hk, hhead, -⟩ := hc
    exact h k hk hhead
  · obtain ⟨k, hk, r', ha, -⟩ := hs
    refine h k hk ?_
    rw [ha, List.head?_append_of_ne_nil _ (keywords_ne_nil barrier target k hk)]

theorem keywords_heads (barrier target : Bool) :
    (Shape.keywords barrier target).map (fun k => k.1.head?) =
      ['C', 'R', 'S', 'L', 'W', 'H'].map (fun c => some c.toUInt8) ++
        if barrier then [some 'B'.toUInt8] else [] := by
  cases barrier <;> cases target <;> decide

/-- A whole line, one case for each first byte. -/
theorem handles_line {barrier target : Bool} {f : Command → Reading Decoded}
    (h : Arguments f target) : Handles (getNext barrier >>= f) (Shape.line barrier target) := by
  intro a tail hline hshort
  cases a with
  | nil =>
    have hother : ∀ k ∈ Shape.keywords barrier target, ([] : List UInt8).head? ≠ k.1.head? := by
      intro k hk hhead
      exact keywords_ne_nil barrier target k hk (List.head?_eq_none_iff.mp hhead.symm)
    have hstop := StopsAt.of_other hother tail
    cases tail with
    | none => exact ⟨.eoc, [], by simp [getNext, Tail.bytes, h.eoc], hstop⟩
    | some more =>
      refine ⟨.empty, more, ?_, hstop⟩
      have hnl : ∀ c ∈ ['C', 'R', 'S', 'L', 'B', 'W', 'H', '#'], ¬ nl = c.toUInt8 := by
        intro c hc
        simp only [List.mem_cons, List.not_mem_nil, or_false] at hc
        rcases hc with rfl | rfl | rfl | rfl | rfl | rfl | rfl | rfl <;> decide
      simp [getNext, Tail.bytes, h.empty, hnl]
  | cons c s =>
    obtain ⟨hs, hcnl⟩ := notMem_suffix hline (show c :: s = [] ++ c :: s from rfl)
    have hshort' : ShortNumerals s := ShortNumerals.suffix (a := [c]) hshort
    -- the byte has chosen the keyword: the rest is up to its case
    have hkeyword : ∀ {text S} {p : Reading Decoded}, (text, S) ∈ Shape.keywords barrier target →
        text.head? = some c → Handles p (Shape.text text.tail S) →
        ∃ x pos, p.run (s ++ tail.bytes) = some (x, pos) ∧
          StopsAt (Shape.line barrier target) (c :: s) tail pos := by
      intro text S p hk hc hp
      obtain ⟨x, pos, hx, hstop⟩ := hp s tail hs hshort'
      exact ⟨x, pos, hx, hstop.of_keyword hk hc⟩
    have hrun : ∀ k : List UInt8 → Reading Command,
        (Reading.readBytes 1 >>= k >>= f).run (c :: s ++ tail.bytes) =
          (k [c] >>= f).run (s ++ tail.bytes) := by
      intro k
      simp
    unfold getNext
    rw [hrun]
    dsimp only
    split
    next hc =>
      exact hkeyword (by simp [Shape.keywords]) (by rw [hc]; decide)
        (handles_keyword (by decide) h.invalid h.create)
    split
    next hc =>
      exact hkeyword (by simp [Shape.keywords]) (by rw [hc]; decide)
        (handles_keyword (by decide) h.invalid h.reserve)
    split
    next hc =>
      exact hkeyword (by simp [Shape.keywords]) (by rw [hc]; decide)
        (handles_keyword (by decide) h.invalid h.showEvent)
    split
    next hc =>
      exact hkeyword (by simp [Shape.keywords]) (by rw [hc]; decide)
        (handles_bareKeyword (by decide) h.invalid (by decide) h.listEvents)
    split
    next hc =>
      exact hkeyword (by simp [Shape.keywords, hc.1]) (by rw [hc.2]; decide)
        (handles_bareKeyword (by decide) h.invalid (by decide) h.barrier)
    split
    next hc =>
      exact hkeyword (by simp [Shape.keywords]) (by rw [hc]; decide)
        (handles_keyword (by decide) h.invalid h.wait)
    split
    next hc =>
      exact hkeyword (by simp [Shape.keywords]) (by rw [hc]; decide)
        (handles_bareKeyword (by decide) h.invalid (by decide) h.help)
    -- no keyword: a comment is dropped without an error, anything else with one
    next hC hR hS hL hB hW hH =>
      have hother : ∀ k ∈ Shape.keywords barrier target, (c :: s).head? ≠ k.1.head? := by
        intro k hk hhead
        have hmem := List.mem_map_of_mem (f := fun k : List UInt8 × Shape => k.1.head?) hk
        rw [keywords_heads, ← hhead, List.head?_cons] at hmem
        cases barrier with
        | false => simp [hC, hR, hS, hL, hW, hH] at hmem
        | true =>
          have hB' : ¬ c = 'B'.toUInt8 := fun hb => hB ⟨rfl, hb⟩
          simp [hC, hR, hS, hL, hW, hH, hB'] at hmem
      have hskip : dropLine (s ++ tail.bytes) = tail.rest := dropLine_line hs tail
      split
      next => exact ⟨.empty, tail.rest, by simp [h.empty, hskip], .of_other hother tail⟩
      next =>
        refine ⟨.invalid, tail.rest, ?_, .of_other hother tail⟩
        rw [run_invalidLine h.invalid, hskip]

end Ems.Parse
