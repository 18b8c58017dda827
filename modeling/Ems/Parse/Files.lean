import Ems.Parse.Lines
import Ems.Jobs.Parser
import Ems.Client.Parser

/-!
# Files of commands

What a decoder makes of a whole file, one command after the other. `line_local` is
the main result, for both parsers: after a command the decoder is at the beginning
of the next line exactly when its line does not end too early and no NUL in it is
taken for its end (`Shape.Exact`). When all lines so far are like that, turning one
of them into a comment changes nothing else. A keyword on a line of its own is the
counterexample: `SHOW` swallows the next line.
-/

namespace Ems.Parse

open Base

/-- The commands of a file, up to its end; `fuel` bounds how many there are. -/
def decodeUpTo (decode : Reading Decoded) : Nat → List UInt8 → Option (List Decoded)
  | 0, _ => none
  | fuel + 1, s =>
    match decode.run s with
    | none => none
    | some (.eoc, _) => some []
    | some (d, s') => (decodeUpTo decode fuel s').map (d :: ·)

/-- The commands of a file: there are no more than it has bytes. -/
def decodeAll (decode : Reading Decoded) (s : List UInt8) : Option (List Decoded) :=
  decodeUpTo decode (s.length + 1) s

/-- A decoder ends at the end of the file, and gets on before that. -/
structure Decoder (decode : Reading Decoded) : Prop where
  eoc : decode.run [] = some (.eoc, [])
  progress : ∀ {s d s'}, s ≠ [] → decode.run s = some (d, s') →
    d ≠ .eoc ∧ s'.length < s.length

section
variable {decode : Reading Decoded} (hdec : Decoder decode)
include hdec

/-- More fuel than bytes is enough. -/
theorem decodeUpTo_enough {fuel : Nat} {s : List UInt8} (h : s.length < fuel) :
    decodeUpTo decode fuel s = decodeAll decode s := by
  suffices hgen : ∀ n m s, s.length < n → s.length < m →
      decodeUpTo decode n s = decodeUpTo decode m s from hgen _ _ _ h (Nat.lt_succ_self _)
  intro n
  induction n with
  | zero => intro m s hn; omega
  | succ n ih =>
    intro m s hn hm
    obtain ⟨m, rfl⟩ : ∃ k, m = k + 1 := ⟨m - 1, by omega⟩
    unfold decodeUpTo
    split
    next => rfl
    next => rfl
    next d s' hd heq =>
      have hs : s ≠ [] := by
        intro hs
        rw [hs, hdec.eoc] at heq
        cases heq
        exact hd rfl
      have := (hdec.progress hs heq).2
      rw [ih m s' (by omega) (by omega)]

/-- An empty file has no commands. -/
theorem decodeAll_nil : decodeAll decode [] = some [] := by
  simp [decodeAll, decodeUpTo, hdec.eoc]

/-- The first command of a file and the others. -/
theorem decodeAll_step {s s' : List UInt8} {d : Decoded} (hs : s ≠ [])
    (h : decode.run s = some (d, s')) :
    decodeAll decode s = (decodeAll decode s').map (d :: ·) := by
  obtain ⟨hd, hlt⟩ := hdec.progress hs h
  rw [← decodeUpTo_enough hdec hlt]
  show decodeUpTo decode (s.length + 1) s = _
  rw [decodeUpTo, h]
  cases d with
  | eoc => exact absurd rfl hd
  | _ => rfl

/-- The same at the end of the file too. -/
theorem decodeAll_listed {s s' : List UInt8} {d : Decoded} (h : decode.run s = some (d, s')) :
    decodeAll decode s = (decodeAll decode s').map (d.listed ++ ·) := by
  by_cases hs : s = []
  · rw [hs, hdec.eoc] at h
    cases h
    simp [hs, decodeAll_nil hdec, Decoded.listed]
  · rw [decodeAll_step hdec hs h]
    have hd := (hdec.progress hs h).1
    cases d with
    | eoc => exact absurd rfl hd
    | _ => rfl

end

/-! ## The two decoders -/

/-- A command that has its arguments read is no end of the file. -/
theorem bind_ne_eoc {α : Type} {p : Reading α} {f : α → Reading Decoded}
    (hf : ∀ x, ∃ y, f x = pure y ∧ y ≠ .eoc) {s s' : List UInt8} {d : Decoded}
    (h : (p >>= f).run s = some (d, s')) : d ≠ .eoc := by
  rw [Reading.run_bind, Option.bind_eq_some_iff] at h
  obtain ⟨x, -, hx⟩ := h
  obtain ⟨y, hy, hne⟩ := hf x.1
  rw [hy] at hx
  cases hx
  exact hne

/-- The arguments as part 1 reads them. -/
theorem jobs_arguments (junk : List UInt8) : Arguments (Jobs.arguments junk) true where
  notEoc := by
    intro c s d s' hc h
    cases c with
    | eoc => exact absurd rfl hc
    | create => exact bind_ne_eoc (fun x => by cases x <;> exact ⟨_, rfl, by simp⟩) h
    | reserve => exact bind_ne_eoc (fun x => by cases x <;> exact ⟨_, rfl, by simp⟩) h
    | showEvent => exact bind_ne_eoc (fun x => by cases x <;> exact ⟨_, rfl, by simp⟩) h
    | wait =>
      refine bind_ne_eoc (fun x => ?_) h
      match x with
      | none => exact ⟨_, rfl, by simp⟩
      | some (delay, threadId) =>
        dsimp only
        split
        · exact ⟨_, rfl, by simp⟩
        · exact ⟨_, rfl, by simp⟩
    | _ => cases h; simp
  invalid := rfl
  empty := rfl
  eoc := rfl
  listEvents := rfl
  barrier := rfl
  help := rfl
  create := (handles_create junk).bind fun x => by cases x <;> exact ⟨_, rfl⟩
  reserve := (handles_reserve junk).bind fun x => by cases x <;> exact ⟨_, rfl⟩
  showEvent := (handles_show junk).bind fun x => by cases x <;> exact ⟨_, rfl⟩
  wait := (handles_wait junk true).bind fun x => by
    match x with
    | none => exact ⟨_, rfl⟩
    | some (delay, threadId) =>
      dsimp only
      split
      · exact ⟨_, rfl⟩
      · exact ⟨_, rfl⟩

/-- The arguments with their buffer. -/
theorem arguments_arguments (junk : List UInt8) (target : Bool) :
    Arguments (arguments junk target) target where
  notEoc := by
    intro c s d s' hc h
    cases c with
    | eoc => exact absurd rfl hc
    | create => exact bind_ne_eoc (fun x => by cases x <;> exact ⟨_, rfl, by simp⟩) h
    | reserve => exact bind_ne_eoc (fun x => by cases x <;> exact ⟨_, rfl, by simp⟩) h
    | showEvent => exact bind_ne_eoc (fun x => by cases x <;> exact ⟨_, rfl, by simp⟩) h
    | wait => exact bind_ne_eoc (fun x => by cases x <;> exact ⟨_, rfl, by simp⟩) h
    | _ => cases h; simp
  invalid := rfl
  empty := rfl
  eoc := rfl
  listEvents := rfl
  barrier := rfl
  help := rfl
  create := (handles_create junk).bind fun x => by cases x <;> exact ⟨_, rfl⟩
  reserve := (handles_reserve junk).bind fun x => by cases x <;> exact ⟨_, rfl⟩
  showEvent := (handles_show junk).bind fun x => by cases x <;> exact ⟨_, rfl⟩
  wait := (handles_wait junk target).bind fun x => by cases x <;> exact ⟨_, rfl⟩

/-- The client does nothing else with the arguments. -/
theorem client_arguments_eq (junk : List UInt8) : Client.arguments junk = arguments junk false := by
  funext command
  cases command <;> rfl

/-- The arguments as the client reads them. -/
theorem client_arguments (junk : List UInt8) : Arguments (Client.arguments junk) false := by
  rw [client_arguments_eq]
  exact arguments_arguments junk false

/-- A keyword is its command or none. -/
theorem run_keyword_cases {text s s' : List UInt8} {command c : Command}
    (h : (keyword text command).run s = some (c, s')) : c = command ∨ c = .invalid := by
  unfold keyword at h
  simp only [Reading.run_bind, Reading.run_readBytes, Option.bind_some] at h
  split at h
  · exact Or.inr (by simp [invalidLine] at h; exact h.1.symm)
  · cases h; exact Or.inl rfl

/-- A keyword without arguments is its command or none. -/
theorem run_bareKeyword_cases {text s s' : List UInt8} {command c : Command}
    (h : (bareKeyword text command).run s = some (c, s')) : c = command ∨ c = .invalid := by
  unfold bareKeyword at h
  simp only [Reading.run_bind, Reading.run_readBytes, Option.bind_some] at h
  split at h
  · exact Or.inr (by simp [invalidLine] at h; exact h.1.symm)
  · simp only [Reading.run_bind, Reading.run_readBytes, Option.bind_some] at h
    split at h
    · cases h; exact Or.inl rfl
    · split at h
      · exact Or.inr (by simp [invalidLine] at h; exact h.1.symm)
      · cases h; exact Or.inl rfl

/-- `CMD_EOC` is for the end of the file only. -/
theorem getNext_ne_eoc {barrier : Bool} {b : UInt8} {s s' : List UInt8} {c : Command}
    (h : (getNext barrier).run (b :: s) = some (c, s')) : c ≠ .eoc := by
  have hkey : ∀ {text} {command : Command} {t}, command ≠ .eoc →
      (keyword text command).run t = some (c, s') → c ≠ .eoc := by
    intro text command t hne hk
    rcases run_keyword_cases hk with h | h <;> rw [h]
    · exact hne
    · simp
  have hbare : ∀ {text} {command : Command} {t}, command ≠ .eoc →
      (bareKeyword text command).run t = some (c, s') → c ≠ .eoc := by
    intro text command t hne hk
    rcases run_bareKeyword_cases hk with h | h <;> rw [h]
    · exact hne
    · simp
  unfold getNext at h
  simp only [Reading.run_bind, Reading.run_readBytes, Option.bind_some, List.take_succ_cons,
    List.take_zero, List.drop_succ_cons, List.drop_zero] at h
  split at h
  · exact hkey (by simp) h
  split at h
  · exact hkey (by simp) h
  split at h
  · exact hkey (by simp) h
  split at h
  · exact hbare (by simp) h
  split at h
  · exact hbare (by simp) h
  split at h
  · exact hkey (by simp) h
  split at h
  · exact hbare (by simp) h
  split at h
  · simp at h; rw [← h.1]; simp
  split at h
  · cases h; simp
  · simp [invalidLine] at h; rw [← h.1]; simp

/-- A command and its arguments decode a file. -/
theorem decoder_of_arguments {barrier target : Bool} {f : Command → Reading Decoded}
    (h : Arguments f target) : Decoder (getNext barrier >>= f) where
  eoc := by simp [getNext, h.eoc]
  progress := by
    intro s d s' hs hrun
    cases s with
    | nil => exact absurd rfl hs
    | cons b s =>
      have hrun' := hrun
      rw [Reading.run_bind, Option.bind_eq_some_iff] at hrun'
      obtain ⟨⟨c, r⟩, hc, hf⟩ := hrun'
      refine ⟨h.notEoc (getNext_ne_eoc hc) hf, ?_⟩
      -- the first byte is read in any case
      have hone : ∀ {p : List UInt8 → Reading Command}, (Reading.readBytes 1 >>= p).run (b :: s) =
          some (c, r) → r <:+ s := by
        intro p hp
        simp only [Reading.run_bind, Reading.run_readBytes, Option.bind_some, List.drop_succ_cons,
          List.drop_zero] at hp
        exact Reading.run_suffix hp
      have hr : r <:+ s := hone hc
      calc s'.length ≤ r.length := (Reading.run_suffix hf).length_le
        _ ≤ s.length := hr.length_le
        _ < (b :: s).length := Nat.lt_succ_self _

/-- Part 1 decodes a file. -/
theorem jobs_decoder (junk : List UInt8) : Decoder (Jobs.decode junk) :=
  decoder_of_arguments (jobs_arguments junk)

/-- The client decodes a file. -/
theorem client_decoder (junk : List UInt8) : Decoder (Client.decode junk) :=
  decoder_of_arguments (client_arguments junk)

/-- Both do, with the buffer of the numbers. -/
theorem next_decoder (barrier target : Bool) (junk : List UInt8) :
    Decoder (next barrier target junk) :=
  decoder_of_arguments (arguments_arguments junk target)

/-- The lines part 1 can handle. -/
theorem jobs_handles (junk : List UInt8) : Handles (Jobs.decode junk) (Shape.line true true) :=
  handles_line (jobs_arguments junk)

/-- The lines the client can handle. -/
theorem client_handles (junk : List UInt8) : Handles (Client.decode junk) (Shape.line false false) :=
  handles_line (client_arguments junk)

/-! ## What the callers do with the arguments -/

/-- The client is the parser without BARRIER and without threads. -/
theorem client_decode_eq (junk : List UInt8) : Client.decode junk = next false false junk := by
  unfold Client.decode next
  rw [client_arguments_eq]
  rfl

/-- A delay of 0 counts as a mistake. -/
def Decoded.refuseZero : Decoded → Decoded
  | .wait delay threadId => if delay = 0 then .invalid else .wait delay threadId
  | d => d

/-- `process_commands` refuses a `WAIT` of 0. -/
theorem jobs_decode_run (junk s : List UInt8) :
    (Jobs.decode junk).run s =
      ((next true true junk).run s).map fun r => (r.1.refuseZero, r.2) := by
  have harguments : ∀ command t, (Jobs.arguments junk command).run t =
      ((arguments junk true command).run t).map fun r => (r.1.refuseZero, r.2) := by
    intro command t
    cases command with
    | create => exact Reading.run_bind_map (fun x _ => by cases x <;> rfl) _ t
    | reserve => exact Reading.run_bind_map (fun x _ => by cases x <;> rfl) _ t
    | showEvent => exact Reading.run_bind_map (fun x _ => by cases x <;> rfl) _ t
    | wait =>
      refine Reading.run_bind_map (fun x t => ?_) _ t
      match x with
      | none => rfl
      | some (delay, threadId) =>
        by_cases h : delay = 0
        · simp [Decoded.refuseZero, h]
        · simp [Decoded.refuseZero, h]
    | _ => rfl
  exact Reading.run_bind_map harguments (getNext true) s

/-! ## Line by line -/

/-- The line has what its command expects, and no NUL ends it early. -/
def Shape.Plain (S : Shape) (a : List UInt8) : Prop := ¬ S.cut a ∧ ∀ r, ¬ S.stops a r

/-- The same for a line in its file: at the end of the file nothing is lost. -/
def Shape.Exact (S : Shape) (a : List UInt8) (tail : Tail) : Prop :=
  (S.cut a → tail.rest = []) ∧ ∀ r, S.stops a r → r = [] ∧ tail = none

/-- The command of the line `a` leaves the file at the beginning of the next line. -/
def StopsAtNextLine (decode : Reading Decoded) (a : List UInt8) (tail : Tail) : Prop :=
  ∃ d, decode.run (a ++ tail.bytes) = some (d, tail.rest)

/-- Lines, each with its newline. -/
def joined (lines : List (List UInt8)) : List UInt8 := lines.flatMap (· ++ [nl])

/-- The commands of the other lines are the same when the line `a` becomes a
comment. -/
def CommentNeutral (decode : Reading Decoded) (before : List (List UInt8)) (a : List UInt8)
    (tail : Tail) : Prop :=
  ∀ comment, nl ∉ comment → ∃ D d E, D.length = before.length ∧
    decodeAll decode (joined before ++ (a ++ tail.bytes)) = some (D ++ d :: E) ∧
    decodeAll decode (joined before ++ ('#'.toUInt8 :: comment ++ tail.bytes)) =
      some (D ++ .empty :: E)

/-- A plain line ends at any tail. -/
theorem Shape.Plain.exact {S : Shape} {a : List UInt8} (h : S.Plain a) (tail : Tail) :
    S.Exact a tail :=
  ⟨fun hc => absurd hc h.1, fun r hs => absurd hs (h.2 r)⟩

/-- A line that ends with a newline is plain. -/
theorem Shape.Exact.plain {S : Shape} {a s : List UInt8} {c : UInt8}
    (h : S.Exact a (some (c :: s))) : S.Plain a :=
  ⟨fun hc => List.cons_ne_nil c s (h.1 hc), fun r hs => nomatch (h.2 r hs).2⟩

/-- `StopsAt` in the terms of the file. -/
theorem StopsAt.eq_rest_iff {S : Shape} {a : List UInt8} {tail : Tail} {pos : List UInt8}
    (h : StopsAt S a tail pos) : pos = tail.rest ↔ S.Exact a tail := by
  constructor
  · intro hpos
    refine ⟨fun hc => ?_, fun r hs => ?_⟩
    · rcases h.cut hc with hlt | ⟨-, hr⟩
      · rw [hpos] at hlt
        exact absurd hlt (Nat.lt_irrefl _)
      · exact hr
    · have hr := congrArg List.length ((h.stops r hs).symm.trans hpos)
      cases tail with
      | none => simp [Tail.bytes, Tail.rest] at hr; exact ⟨hr, rfl⟩
      | some more => simp [Tail.bytes, Tail.rest] at hr; omega
  · intro hex
    by_cases hc : S.cut a
    · have hr := hex.1 hc
      rcases h.cut hc with hlt | ⟨hp, -⟩
      · rw [hr] at hlt; cases hlt
      · rw [hp, hr]
    · by_cases hs : ∃ r, S.stops a r
      · obtain ⟨r, hs⟩ := hs
        obtain ⟨rfl, rfl⟩ := hex.2 r hs
        exact h.stops [] hs
      · exact h.clean hc fun r hr => hs ⟨r, hr⟩

section
variable {decode : Reading Decoded} {S : Shape} (hand : Handles decode S)
include hand

/-- The reader is at the next line exactly when the line has the shape. -/
theorem stopsAtNextLine_iff {a : List UInt8} {tail : Tail} (hline : nl ∉ a)
    (hshort : ShortNumerals a) : StopsAtNextLine decode a tail ↔ S.Exact a tail := by
  obtain ⟨d, pos, hrun, hstop⟩ := hand a tail hline hshort
  rw [← hstop.eq_rest_iff]
  constructor
  · intro h
    obtain ⟨d', h⟩ := h
    rw [hrun] at h
    exact (Prod.mk.inj (Option.some.inj h)).2
  · intro h
    exact ⟨d, by rw [hrun, h]⟩

/-- Short numerals are all it takes for a defined behaviour. -/
theorem decode_total {s : List UInt8} (hshort : ShortNumerals s) :
    ∃ d s', decode.run s = some (d, s') ∧ s' <:+ s := by
  obtain ⟨a, tail, hline, rfl⟩ := exists_line s
  obtain ⟨d, pos, hrun, -⟩ :=
    hand a tail hline (hshort.of_infix (List.prefix_append a _).isInfix)
  exact ⟨d, pos, hrun, Reading.run_suffix hrun⟩

/-- Every file is decoded to its end. -/
theorem decodeAll_total (hdec : Decoder decode) {s : List UInt8} (hshort : ShortNumerals s) :
    ∃ ds, decodeAll decode s = some ds := by
  induction hn : s.length using Nat.strongRecOn generalizing s with
  | ind n ih =>
    by_cases hs : s = []
    · exact ⟨[], by rw [hs]; exact decodeAll_nil hdec⟩
    · obtain ⟨d, s', hrun, hsuf⟩ := decode_total hand hshort
      have hlt := (hdec.progress hs hrun).2
      obtain ⟨ds, hds⟩ := ih s'.length (by omega) (hshort.of_infix hsuf.isInfix) rfl
      exact ⟨d :: ds, by rw [decodeAll_step hdec hs hrun, hds]; rfl⟩

/-- The lines at the beginning of a file are decoded one by one, whatever comes
after them. By induction on the lines. -/
theorem decodeAll_joined (hdec : Decoder decode) {lines : List (List UInt8)}
    (hline : ∀ l ∈ lines, nl ∉ l) (hshort : ∀ l ∈ lines, ShortNumerals l)
    (hplain : ∀ l ∈ lines, S.Plain l) :
    ∃ D : List Decoded, D.length = lines.length ∧ ∀ s, s ≠ [] →
      decodeAll decode (joined lines ++ s) = (decodeAll decode s).map (D ++ ·) := by
  induction lines with
  | nil => exact ⟨[], rfl, fun s _ => by simp [joined]⟩
  | cons l lines ih =>
    obtain ⟨D, hlen, hD⟩ := ih (fun x hx => hline x (List.mem_cons_of_mem _ hx))
      (fun x hx => hshort x (List.mem_cons_of_mem _ hx))
      (fun x hx => hplain x (List.mem_cons_of_mem _ hx))
    have hl := List.mem_cons_self (a := l) (l := lines)
    -- what the line gives when anything at all follows it, and so whatever follows it
    have hstop : StopsAtNextLine decode l (some [0]) :=
      (stopsAtNextLine_iff hand (hline l hl) (hshort l hl)).mpr ((hplain l hl).exact _)
    obtain ⟨d, hd⟩ := hstop
    have hrun : ∀ w, decode.run (l ++ [nl] ++ w) = some (d, w) := by
      intro w
      refine Reading.run_append (v := [0]) ?_ (by simp) w
      rw [List.append_assoc]
      exact hd
    refine ⟨d :: D, by simp [hlen], fun s hs => ?_⟩
    have hsplit : joined (l :: lines) ++ s = l ++ [nl] ++ (joined lines ++ s) := by simp [joined]
    rw [hsplit, decodeAll_step hdec (by simp) (hrun _), hD s hs, Option.map_map]
    rfl

/-- A comment changes nothing about the commands around it. -/
theorem comment_neutral (hdec : Decoder decode) {before : List (List UInt8)} {a : List UInt8}
    {tail : Tail} (hbefore : ∀ l ∈ before, nl ∉ l) (hline : nl ∉ a)
    (hshort : ShortNumerals (joined before ++ (a ++ tail.bytes)))
    (hcomment : ∀ c t, decode.run ('#'.toUInt8 :: (c ++ t)) = some (.empty, dropLine (c ++ t)))
    (hplain : ∀ l ∈ before, S.Plain l) (hex : S.Exact a tail) (hne : a ++ tail.bytes ≠ []) :
    CommentNeutral decode before a tail := by
  have hmem : ∀ l ∈ before, ShortNumerals l := by
    intro l hl
    refine hshort.of_infix (List.IsInfix.trans ?_ (List.prefix_append _ _).isInfix)
    obtain ⟨u, v, rfl⟩ := List.append_of_mem hl
    exact ⟨joined u, [nl] ++ joined v, by simp [joined]⟩
  have hshort' : ShortNumerals (a ++ tail.bytes) := hshort.suffix
  obtain ⟨D, hlen, hD⟩ := decodeAll_joined hand hdec hbefore hmem hplain
  obtain ⟨d, hd⟩ := (stopsAtNextLine_iff hand hline
    (hshort'.of_infix (List.prefix_append a _).isInfix)).mpr hex
  have hrest : ShortNumerals tail.rest :=
    hshort'.of_infix (Reading.run_suffix hd).isInfix
  obtain ⟨E, hE⟩ := decodeAll_total hand hdec hrest
  intro comment hc
  refine ⟨D, d, E, hlen, ?_, ?_⟩
  · rw [hD _ hne, decodeAll_step hdec hne hd, hE]
    rfl
  · have hrun := hcomment comment tail.bytes
    rw [dropLine_line hc] at hrun
    have hstep := decodeAll_step hdec (List.cons_ne_nil _ _) hrun
    rw [List.cons_append, hD _ (List.cons_ne_nil _ _), hstep, hE]
    rfl

end

/-- A comment is read up to its newline. -/
theorem run_comment {barrier target : Bool} {f : Command → Reading Decoded} (h : Arguments f target)
    (c t : List UInt8) :
    (getNext barrier >>= f).run ('#'.toUInt8 :: (c ++ t)) = some (.empty, dropLine (c ++ t)) := by
  have hother : ∀ c ∈ ['C', 'R', 'S', 'L', 'B', 'W', 'H'], ¬ '#'.toUInt8 = c.toUInt8 := by
    intro c hc
    simp only [List.mem_cons, List.not_mem_nil, or_false] at hc
    rcases hc with rfl | rfl | rfl | rfl | rfl | rfl | rfl <;> decide
  simp [getNext, hother, h.empty]

/-- Both parsers, for a line in the middle of any file: after its command the file
is at the next line exactly when the line is `Exact`; and then, the lines before it
being like that too, only its own command goes when it becomes a comment. -/
theorem line_local {before : List (List UInt8)} {a : List UInt8} {tail : Tail} (junk : List UInt8)
    (hbefore : ∀ l ∈ before, nl ∉ l) (hline : nl ∉ a)
    (hshort : ShortNumerals (joined before ++ (a ++ tail.bytes))) :
    ((StopsAtNextLine (Jobs.decode junk) a tail ↔ (Shape.line true true).Exact a tail) ∧
      (StopsAtNextLine (Client.decode junk) a tail ↔ (Shape.line false false).Exact a tail)) ∧
    (a ++ tail.bytes ≠ [] →
      ((∀ l ∈ before, (Shape.line true true).Plain l) → (Shape.line true true).Exact a tail →
        CommentNeutral (Jobs.decode junk) before a tail) ∧
      ((∀ l ∈ before, (Shape.line false false).Plain l) → (Shape.line false false).Exact a tail →
        CommentNeutral (Client.decode junk) before a tail)) := by
  have hshort' : ShortNumerals a :=
    hshort.suffix.of_infix (List.prefix_append a _).isInfix
  refine ⟨⟨stopsAtNextLine_iff (jobs_handles junk) hline hshort',
    stopsAtNextLine_iff (client_handles junk) hline hshort'⟩, fun hne => ⟨?_, ?_⟩⟩
  · intro hplain hex
    exact comment_neutral (jobs_handles junk) (jobs_decoder junk) hbefore hline hshort
      (run_comment (jobs_arguments junk)) hplain hex hne
  · intro hplain hex
    exact comment_neutral (client_handles junk) (client_decoder junk) hbefore hline hshort
      (run_comment (client_arguments junk)) hplain hex hne

/-- A `SHOW` with its argument is such a line. -/
theorem line_local_show :
    CommentNeutral (Jobs.decode []) [bytes "#"] (bytes "SHOW 1") (some (bytes "LIST\n")) := by
  have hcomment := @line_local [] (bytes "#") (some [0]) [] (by simp) (by decide)
    (shortNumerals_of_length (by decide))
  have hplain := (hcomment.1.1.mp ⟨.empty, by decide⟩).plain
  have hshow := @line_local [bytes "#"] (bytes "SHOW 1") (some (bytes "LIST\n")) [] (by decide)
    (by decide) (shortNumerals_of_length (by decide))
  have hex := hshow.1.1.mp ⟨.showEvent 1, by decide⟩
  exact (hshow.2 (by decide)).1 (by simpa using hplain) hex

/-- A `SHOW` without one takes the next line with it, in both parsers. As a comment
it would have left it alone. -/
theorem show_swallows_next_line :
    (nl ∉ bytes "SHOW" ∧ ShortNumerals (bytes "SHOW\nLIST\n")) ∧
    (Jobs.decode []).run (bytes "SHOW\nLIST\n") = some (.invalid, []) ∧
    (Client.decode []).run (bytes "SHOW\nLIST\n") = some (.invalid, []) ∧
    ¬ StopsAtNextLine (Jobs.decode []) (bytes "SHOW") (some (bytes "LIST\n")) ∧
    ¬ StopsAtNextLine (Client.decode []) (bytes "SHOW") (some (bytes "LIST\n")) ∧
    decodeAll (Jobs.decode []) (bytes "SHOW\nLIST\n") = some [.invalid] ∧
    decodeAll (Jobs.decode []) (bytes "#HOW\nLIST\n") = some [.empty, .listEvents] ∧
    decodeAll (Client.decode []) (bytes "SHOW\nLIST\n") = some [.invalid] ∧
    decodeAll (Client.decode []) (bytes "#HOW\nLIST\n") = some [.empty, .listEvents] := by
  have hfile : bytes "SHOW" ++ Tail.bytes (some (bytes "LIST\n")) = bytes "SHOW\nLIST\n" := by decide
  have hjobs : (Jobs.decode []).run (bytes "SHOW\nLIST\n") = some (.invalid, []) := by decide
  have hclient : (Client.decode []).run (bytes "SHOW\nLIST\n") = some (.invalid, []) := by decide
  refine ⟨⟨by decide, shortNumerals_of_length (by decide)⟩, hjobs, hclient, ?_, ?_, by decide,
    by decide, by decide, by decide⟩
  · intro h
    obtain ⟨d, hd⟩ := h
    rw [hfile, hjobs] at hd
    exact absurd (Prod.mk.inj (Option.some.inj hd)).2 (by decide)
  · intro h
    obtain ⟨d, hd⟩ := h
    rw [hfile, hclient] at hd
    exact absurd (Prod.mk.inj (Option.some.inj hd)).2 (by decide)

end Ems.Parse
