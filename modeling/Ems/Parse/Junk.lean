import Ems.Parse.Files

/-!
# Commands do not depend on what was on the stack

`read_uint` leaves its buffer without a terminator at the end of the file, and only
there. As long as a newline is still to come, every integer is followed by a byte,
and the result is the same whatever the buffer held before. `JunkFree` is this
property; the lemmas follow the parsers as those of `Lines` do, and `decode_junk`
is the outcome.
-/

namespace Ems.Parse

open Base

variable {α β : Type}

/-- With a newline ahead the old contents of the buffers do not matter. -/
def JunkFree (p : List UInt8 → Reading α) : Prop :=
  ∀ s, nl ∈ s → ShortNumerals s → ∀ j j', (p j).run s = (p j').run s

/-- What the readers do with a newline ahead. -/
theorem run_readUint_ahead {s : List UInt8} (hs : nl ∈ s) (hshort : ShortNumerals s) :
    ∃ v c r, (∀ j, (readUint j).run s = some ((v, c), r)) ∧ (c ≠ nl → nl ∈ r) ∧
      ShortNumerals r := by
  rcases split_numeral s with hnum | ⟨ds, c, r, hd, hc, rfl⟩
  · exact absurd (hnum nl hs) (by decide)
  · refine ⟨_, c, r, fun j => run_readUint j r hd (hshort.head hd) hc, fun hne => ?_, ?_⟩
    · rcases List.mem_append.mp hs with h | h
      · exact absurd (hd nl h) (by decide)
      · exact (List.mem_cons.mp h).resolve_left (Ne.symm hne)
    · exact ShortNumerals.suffix (by rw [List.append_cons] at hshort; exact hshort)

theorem junkFree_const (p : Reading α) : JunkFree fun _ => p := fun _ _ _ _ _ => rfl

theorem junkFree_field {accept : UInt8 → Bool} {next : List UInt8 → UInt32 → Reading (Option β)}
    (hacc : accept nl = false) (hnext : ∀ v, JunkFree fun j => next j v) :
    JunkFree fun j => field j accept (next j) := by
  intro s hs hshort j j'
  obtain ⟨v, c, r, hrun, hr, hr'⟩ := run_readUint_ahead hs hshort
  unfold field
  rw [Reading.run_bind, Reading.run_bind, hrun, hrun, Option.bind_some, Option.bind_some]
  cases v with
  | none => rfl
  | some v =>
    dsimp only
    by_cases hc : accept c = true
    · have hne : c ≠ nl := by
        intro hn
        rw [hn, hacc] at hc
        cases hc
      simp only [hc, Bool.not_true, Bool.false_eq_true, if_false]
      exact hnext v r (hr hne) hr' j j'
    · simp only [Bool.not_eq_true] at hc
      simp only [hc, Bool.not_false, if_true]

/-- Behind the last integer nothing is read. -/
theorem junkFree_lastField {accept : UInt8 → Bool} (next : UInt32 → Reading (Option β)) :
    JunkFree fun j => field j accept next := by
  intro s hs hshort j j'
  obtain ⟨v, c, r, hrun, -⟩ := run_readUint_ahead hs hshort
  unfold field
  rw [Reading.run_bind, Reading.run_bind, hrun, hrun]

theorem junkFree_byte {accept : UInt8 → Bool} {next : List UInt8 → UInt8 → Reading (Option β)}
    (hnext : ∀ c, accept c = true → (c ≠ nl ∧ JunkFree fun j => next j c) ∨
      ∀ j j', next j c = next j' c) :
    JunkFree fun j => byte accept (next j) := by
  intro s hs hshort j j'
  cases s with
  | nil => cases hs
  | cons c s =>
    have hshort' : ShortNumerals s := ShortNumerals.suffix (a := [c]) hshort
    simp only [byte, Reading.run_bind, Reading.run_readBytes, List.take_succ_cons, List.take_zero,
      List.drop_succ_cons, List.drop_zero, Option.bind_some]
    by_cases hc : accept c = true
    · simp only [hc, Bool.not_true, Bool.false_eq_true, if_false]
      rcases hnext c hc with ⟨hne, h⟩ | h
      · exact h s ((List.mem_cons.mp hs).resolve_left (Ne.symm hne)) hshort' j j'
      · rw [h j j']
    · simp only [Bool.not_eq_true] at hc
      simp only [hc, Bool.not_false, if_true]

theorem JunkFree.bind {p : List UInt8 → Reading α} (h : JunkFree p) (f : α → Reading β) :
    JunkFree fun j => p j >>= f := by
  intro s hs hshort j j'
  show (p j >>= f).run s = (p j' >>= f).run s
  rw [Reading.run_bind, Reading.run_bind, h s hs hshort j j']

/-! ## The parsers -/

theorem junkFree_create : JunkFree parseCreate :=
  junkFree_field (by decide) fun _ => junkFree_field (by decide) fun _ => junkFree_lastField _

theorem junkFree_show : JunkFree parseShow := junkFree_lastField _

theorem junkFree_coords {max : Nat} (eventId : UInt32) {left : Nat}
    (coords : List (UInt64 × UInt64)) :
    JunkFree fun j => parseCoords j max eventId left coords := by
  induction left generalizing coords with
  | zero => exact junkFree_const _
  | succ left ih =>
    refine junkFree_byte fun c hc => Or.inl ⟨?_, ?_⟩
    · intro hn
      rw [hn] at hc
      cases hc
    refine junkFree_field (by decide) fun x => ?_
    refine junkFree_field (by decide) fun y => ?_
    refine junkFree_byte fun c hc => ?_
    -- the list is closed, or there is another pair
    by_cases hend : is ']' c = true
    · right
      intro j j'
      simp only [hend, if_true]
    · left
      refine ⟨?_, ?_⟩
      · intro hn
        rw [hn] at hc
        cases hc
      · simp only [hend]
        exact ih _

theorem junkFree_reserve {max : Nat} : JunkFree fun j => parseReserve j max := by
  refine junkFree_field (by decide) fun x => ?_
  refine junkFree_byte fun c hc => Or.inl ⟨?_, junkFree_coords x []⟩
  intro hn
  rw [hn] at hc
  cases hc

theorem junkFree_wait (target : Bool) : JunkFree fun j => parseWait j target := by
  intro s hs hshort j j'
  obtain ⟨v, c, r, hrun, hr, hr'⟩ := run_readUint_ahead hs hshort
  unfold parseWait
  rw [Reading.run_bind, Reading.run_bind, hrun, hrun, Option.bind_some, Option.bind_some]
  cases v with
  | none => rfl
  | some v =>
    dsimp only
    split
    next hsp =>
      have hne : c ≠ nl := by rw [hsp]; decide
      cases target with
      | false => rfl
      | true => exact junkFree_lastField _ r (hr hne) hr' j j'
    next => rfl

/-! ## Commands -/

/-- A keyword has no newline in it, so the one ahead is still ahead. -/
theorem junkFree_keyword {text : List UInt8} {command : Command}
    {f : List UInt8 → Command → Reading Decoded} (htext : nl ∉ text.tail)
    (hf : ∀ j, f j .invalid = pure .invalid) (hnext : JunkFree fun j => f j command) :
    JunkFree fun j => keyword text command >>= f j := by
  intro s hs hshort j j'
  have hread : ∀ j, (keyword text command >>= f j).run s =
      ((if s.take text.tail.length ≠ text.tail then invalidLine
        else pure command) >>= f j).run (s.drop text.tail.length) := by
    intro j
    simp [keyword]
  show (keyword text command >>= f j).run s = (keyword text command >>= f j').run s
  rw [hread j, hread j']
  by_cases h : s.take text.tail.length = text.tail
  · have hsplit : s = text.tail ++ s.drop text.tail.length := by
      conv_lhs => rw [← List.take_append_drop text.tail.length s]
      rw [h]
    have hmem : nl ∈ s.drop text.tail.length := by
      rw [hsplit] at hs
      exact (List.mem_append.mp hs).resolve_left htext
    rw [if_neg (not_not.mpr h)]
    exact hnext _ hmem (ShortNumerals.suffix (by rw [← hsplit]; exact hshort)) j j'
  · rw [if_pos h, run_invalidLine (hf j), run_invalidLine (hf j')]

/-- What the rest of a program has to do with a command for its decoder not to
depend on the stack. -/
structure JunkFreeArguments (f : List UInt8 → Command → Reading Decoded) : Prop where
  invalid : ∀ j, f j .invalid = pure .invalid
  bare : ∀ c, c = .listEvents ∨ c = .barrier ∨ c = .help ∨ c = .empty ∨ c = .invalid →
    ∀ j j', f j c = f j' c
  create : JunkFree fun j => f j .create
  reserve : JunkFree fun j => f j .reserve
  showEvent : JunkFree fun j => f j .showEvent
  wait : JunkFree fun j => f j .wait

/-- One case for each first byte, as in `handles_line`. -/
theorem junkFree_line {barrier : Bool} {f : List UInt8 → Command → Reading Decoded}
    (h : JunkFreeArguments f) : JunkFree fun j => getNext barrier >>= f j := by
  intro s hs hshort j j'
  cases s with
  | nil => cases hs
  | cons c s =>
    have hshort' : ShortNumerals s := ShortNumerals.suffix (a := [c]) hshort
    -- behind a first byte that is no newline there still is one
    have hahead : ∀ b : UInt8, c = b → b ≠ nl → nl ∈ s := by
      intro b hb hne
      refine (List.mem_cons.mp hs).resolve_left fun hn => hne ?_
      rw [← hb, ← hn]
    have hkeyword : ∀ {text command}, text.head? = some c → text.head? ≠ some nl →
        nl ∉ text.tail → (JunkFree fun j => f j command) →
        (keyword text command >>= f j).run s = (keyword text command >>= f j').run s := by
      intro text command hc hne htext hnext
      exact junkFree_keyword htext h.invalid hnext s (hahead c rfl fun hn => hne (by rw [hc, hn]))
        hshort' j j'
    -- these read no number at all
    have hbare : ∀ {text command}, command = .listEvents ∨ command = .barrier ∨ command = .help →
        (bareKeyword text command >>= f j).run s = (bareKeyword text command >>= f j').run s := by
      intro text command hc
      rw [Reading.run_bind, Reading.run_bind]
      cases hr : (bareKeyword text command).run s with
      | none => rfl
      | some r =>
        rw [Option.bind_some, Option.bind_some]
        rcases run_bareKeyword_cases hr with hcmd | hcmd
        · rw [hcmd, h.bare command (by rcases hc with hc | hc | hc <;> simp [hc]) j j']
        · rw [hcmd, h.bare .invalid (by simp) j j']
    have hrun : ∀ (k : List UInt8 → Reading Command) j,
        (Reading.readBytes 1 >>= k >>= f j).run (c :: s) = (k [c] >>= f j).run s := by
      intro k j
      simp
    show (getNext barrier >>= f j).run (c :: s) = (getNext barrier >>= f j').run (c :: s)
    unfold getNext
    rw [hrun, hrun]
    dsimp only
    split
    next hc => exact hkeyword (by rw [hc]; decide) (by decide) (by decide) h.create
    split
    next hc => exact hkeyword (by rw [hc]; decide) (by decide) (by decide) h.reserve
    split
    next hc => exact hkeyword (by rw [hc]; decide) (by decide) (by decide) h.showEvent
    split
    next => exact hbare (Or.inl rfl)
    split
    next => exact hbare (Or.inr (Or.inl rfl))
    split
    next hc => exact hkeyword (by rw [hc]; decide) (by decide) (by decide) h.wait
    split
    next => exact hbare (Or.inr (Or.inr rfl))
    split
    next => simp [h.bare .empty (by simp) j j']
    split
    next => simp [h.bare .empty (by simp) j j']
    next => rw [run_invalidLine (h.invalid j), run_invalidLine (h.invalid j')]

/-- The job runner's decoder, with a newline ahead. -/
theorem decode_junk {s : List UInt8} (hs : nl ∈ s) (hshort : ShortNumerals s) (j j' : List UInt8) :
    (Jobs.decode j).run s = (Jobs.decode j').run s := by
  have hargs : JunkFreeArguments Jobs.arguments := by
    refine ⟨fun _ => rfl, ?_, junkFree_create.bind _, junkFree_reserve.bind _, junkFree_show.bind _,
      (junkFree_wait true).bind _⟩
    rintro c (rfl | rfl | rfl | rfl | rfl) _ _ <;> rfl
  exact junkFree_line hargs s hs hshort j j'

/-! ## Whole files -/

/-- The file has a newline at its end. -/
def Terminated (s : List UInt8) : Prop := s = [] ∨ s.getLast? = some nl

theorem Terminated.suffix {s s' : List UInt8} (h : Terminated s) (hs : s' <:+ s) :
    Terminated s' := by
  obtain ⟨a, rfl⟩ := hs
  by_cases hs' : s' = []
  · exact Or.inl hs'
  · rcases h with h | h
    · exact Or.inl (List.append_eq_nil_iff.mp h).2
    · right
      rw [List.getLast?_append_of_ne_nil _ hs'] at h
      exact h

/-- One command of a terminated file. -/
theorem Terminated.decode_junk {s : List UInt8} (h : Terminated s) (hshort : ShortNumerals s)
    (j j' : List UInt8) : (Jobs.decode j).run s = (Jobs.decode j').run s := by
  rcases h with rfl | h
  · rw [(jobs_decoder j).eoc, (jobs_decoder j').eoc]
  · exact Parse.decode_junk (List.mem_of_getLast? h) hshort j j'

/-- All of them. By induction on what is left of the file. -/
theorem Terminated.decodeAll_junk {s : List UInt8} (h : Terminated s) (hshort : ShortNumerals s)
    (j j' : List UInt8) : decodeAll (Jobs.decode j) s = decodeAll (Jobs.decode j') s := by
  induction hn : s.length using Nat.strongRecOn generalizing s with
  | ind n ih =>
    obtain ⟨d, s', hrun, hsuf⟩ := decode_total (jobs_handles j) hshort
    have hrun' := hrun
    rw [h.decode_junk hshort j j'] at hrun'
    rw [decodeAll_listed (jobs_decoder j) hrun, decodeAll_listed (jobs_decoder j') hrun']
    by_cases hs : s = []
    · subst hs
      have hs' : s' = [] := List.suffix_nil.mp hsuf
      rw [hs', decodeAll_nil (jobs_decoder j), decodeAll_nil (jobs_decoder j')]
    · have hlt := ((jobs_decoder j).progress hs hrun).2
      rw [ih s'.length (by omega) (h.suffix hsuf) (hshort.of_infix hsuf.isInfix) rfl]

end Ems.Parse
