import Mathlib.Data.List.Basic

/-!
# Programs that talk over pipes

A program at one end of a pair of pipes, as a tree: it writes some bytes, it waits
for some, it does something else (`ask`) and goes on with the answer. The loops of
`safe_write` and `safe_read` are in the nodes: a `send` holds the bytes not yet
written, a `recv` those it has and the number it still wants, so one `write()` or
`read()` of any size is one step (`io`).

The rest of the file is about the two halves of a conversation. `flush p` is what a
program will write before it waits again, `feed p w` is where it will be once it has
read `w`. Neither changes when the bytes move in smaller pieces (`flush_io`,
`feed_io`), which is what makes the pieces irrelevant. `hear` is the other way to
run a program: alone, on a pipe whose writer has left.
-/

namespace Wire

/-- A program at one end of two pipes. -/
inductive Talk (E R α : Type) where
  | done (a : α)
  | send (bytes : List UInt8) (next : Talk E R α)
  | recv (want : Nat) (got : List UInt8) (next : List UInt8 → Talk E R α)
  | ask (e : E) (next : R → Talk E R α)

namespace Talk

variable {E R α β : Type}

def bind : Talk E R α → (α → Talk E R β) → Talk E R β
  | .done a, f => f a
  | .send bytes next, f => .send bytes (next.bind f)
  | .recv want got next, f => .recv want got fun bs => (next bs).bind f
  | .ask e next, f => .ask e fun r => (next r).bind f

instance : Monad (Talk E R) where
  pure := .done
  bind := .bind

/-- `safe_write`. -/
def write (bytes : List UInt8) : Talk E R Unit := .send bytes (.done ())

/-- `safe_read`: the bytes that were read, fewer than asked for at the end of the
file. -/
def readBytes (n : Nat) : Talk E R (List UInt8) := .recv n [] .done

def act (e : E) : Talk E R R := .ask e .done

/-- Up to the next system call: the loops on no bytes are over at once. -/
def settle : Talk E R α → Talk E R α
  | .send [] next => settle next
  | .recv 0 got next => settle (next got)
  | p => p

/-- One `write()` or `read()` of `k` bytes: the program, what is left in its inbox,
and what it has written. -/
def io : Talk E R α → Nat → List UInt8 → Option (Talk E R α × List UInt8 × List UInt8)
  | .send bytes next, k, inbox =>
    if 0 < k ∧ k ≤ bytes.length then
      some (settle (.send (bytes.drop k) next), inbox, bytes.take k)
    else none
  | .recv want got next, k, inbox =>
    if 0 < k ∧ k ≤ want ∧ k ≤ inbox.length then
      some (settle (.recv (want - k) (got ++ inbox.take k) next), inbox.drop k, [])
    else none
  | _, _, _ => none

/-- What the program will write before it waits or asks, and where it will be then. -/
def flush : Talk E R α → List UInt8 × Talk E R α
  | .send bytes next => (bytes ++ (flush next).1, (flush next).2)
  | .recv 0 got next => flush (next got)
  | p => ([], p)

/-- Where the program will be when it has read `w` and has got the answers of `pass`
on the way: what it has asked, the program, and what is left of `w`. -/
def feed (pass : E → Option R) : Talk E R α → List UInt8 → List E × Talk E R α × List UInt8
  | .recv want got next, w =>
    if want ≤ w.length then feed pass (next (got ++ w.take want)) (w.drop want)
    else ([], .recv (want - w.length) (got ++ w) next, [])
  | .send [] next, w => feed pass next w
  | .ask e next, w =>
    match pass e with
    | some r => (e :: (feed pass (next r) w).1, (feed pass (next r) w).2)
    | none => ([], .ask e next, w)
  | p, w => ([], p, w)

/-- The program is at a system call, or at its end. -/
def AtCall : Talk E R α → Prop
  | .send bytes _ => bytes ≠ []
  | .recv want _ _ => want ≠ 0
  | _ => True

/-! ## Sequencing -/

@[simp] theorem readBytes_bind (n : Nat) (f : List UInt8 → Talk E R β) :
    (readBytes n >>= f) = .recv n [] f := rfl

@[simp] theorem act_bind (e : E) (f : R → Talk E R β) : (act e >>= f) = .ask e f := rfl

/-! ## System calls -/

theorem settle_atCall (p : Talk E R α) : (settle p).AtCall := by
  induction p with
  | done a => trivial
  | send bytes next ih =>
    cases bytes with
    | nil => exact ih
    | cons b bs => exact List.cons_ne_nil b bs
  | recv want got next ih =>
    cases want with
    | zero => exact ih got
    | succ n => exact Nat.succ_ne_zero n
  | ask e next => trivial

@[simp] theorem flush_settle (p : Talk E R α) : flush (settle p) = flush p := by
  induction p with
  | done a => rfl
  | send bytes next ih =>
    cases bytes with
    | nil => exact ih
    | cons b bs => rfl
  | recv want got next ih =>
    cases want with
    | zero => exact ih got
    | succ n => rfl
  | ask e next => rfl

@[simp] theorem feed_settle (pass : E → Option R) (p : Talk E R α) (w : List UInt8) :
    feed pass (settle p) w = feed pass p w := by
  induction p generalizing w with
  | done a => rfl
  | send bytes next ih =>
    cases bytes with
    | nil => exact ih w
    | cons b bs => rfl
  | recv want got next ih =>
    cases want with
    | zero =>
      have hfeed : feed pass (.recv 0 got next) w = feed pass (next got) w := by simp [feed]
      rw [hfeed]
      exact ih got w
    | succ n => rfl
  | ask e next => rfl

/-- A program that has nothing to write is where `flush` says. -/
theorem flush_nil {p : Talk E R α} (hp : p.AtCall) (h : (flush p).1 = []) : (flush p).2 = p := by
  cases p with
  | done a => rfl
  | send bytes next =>
    have hb : bytes = [] := (List.append_eq_nil_iff.mp h).1
    exact absurd hb hp
  | recv want got next =>
    cases want with
    | zero => exact absurd rfl hp
    | succ n => rfl
  | ask e next => rfl

/-- A system call writes or reads. -/
theorem io_cases {p p' : Talk E R α} {k : Nat} {inbox inbox' out : List UInt8}
    (h : p.io k inbox = some (p', inbox', out)) :
    (∃ bytes next, p = .send bytes next ∧ 0 < k ∧ k ≤ bytes.length ∧
      p' = settle (.send (bytes.drop k) next) ∧ inbox' = inbox ∧ out = bytes.take k) ∨
    (∃ want got next, p = .recv want got next ∧ 0 < k ∧ k ≤ want ∧ k ≤ inbox.length ∧
      p' = settle (.recv (want - k) (got ++ inbox.take k) next) ∧ inbox' = inbox.drop k ∧
      out = []) := by
  unfold io at h
  split at h
  next bytes next =>
    split at h
    next hk => cases h; exact Or.inl ⟨bytes, next, rfl, hk.1, hk.2, rfl, rfl, rfl⟩
    next => cases h
  next want got next =>
    split at h
    next hk => cases h; exact Or.inr ⟨want, got, next, rfl, hk.1, hk.2.1, hk.2.2, rfl, rfl, rfl⟩
    next => cases h
  next => cases h

/-- A `write()` takes a piece off what is to be written. -/
theorem flush_send {bytes : List UInt8} {next : Talk E R α} (k : Nat) :
    (flush (.send bytes next)).1 = bytes.take k ++ (flush (.send (bytes.drop k) next)).1 ∧
      (flush (.send (bytes.drop k) next)).2 = (flush (.send bytes next)).2 := by
  refine ⟨?_, rfl⟩
  simp only [flush]
  rw [← List.append_assoc, List.take_append_drop]

/-- A `read()` takes a piece off what is to be read, and nothing changes of where the
program will be in the end. -/
theorem feed_recv (pass : E → Option R) {want : Nat} {got piece : List UInt8}
    (next : List UInt8 → Talk E R α) (hpiece : piece.length ≤ want) (w : List UInt8) :
    feed pass (.recv (want - piece.length) (got ++ piece) next) w =
      feed pass (.recv want got next) (piece ++ w) := by
  have hlen : (piece ++ w).length = piece.length + w.length := List.length_append
  simp only [feed]
  by_cases hw : want ≤ (piece ++ w).length
  · have htake : (piece ++ w).take want = piece ++ w.take (want - piece.length) := by
      rw [List.take_append, List.take_of_length_le hpiece]
    have hdrop : (piece ++ w).drop want = w.drop (want - piece.length) := by
      rw [List.drop_append, List.drop_of_length_le hpiece, List.nil_append]
    rw [if_pos hw, if_pos (by omega), htake, hdrop, List.append_assoc]
  · have hsub : want - piece.length - w.length = want - (piece ++ w).length := by omega
    rw [if_neg hw, if_neg (by omega), hsub, List.append_assoc]

/-- All that is wanted is there. -/
theorem feed_recv_all (pass : E → Option R) {x : List UInt8} (next : List UInt8 → Talk E R α)
    (w : List UInt8) : feed pass (.recv x.length [] next) (x ++ w) = feed pass (next x) w := by
  simp [feed]

/-- The same for a read of a known size. -/
theorem feed_readBytes (pass : E → Option R) {n : Nat} {x : List UInt8} (hlen : x.length = n)
    (f : List UInt8 → Talk E R β) (w : List UInt8) :
    feed pass (readBytes n >>= f) (x ++ w) = feed pass (f x) w := by
  subst hlen
  exact feed_recv_all pass f w

/-- The program is at its end or does something else than reading and writing. -/
def Rests : Talk E R α → Prop
  | .done _ => True
  | .ask _ _ => True
  | _ => False

/-- A system call of a program that has something to write is a `write()` of a part of
it. -/
theorem io_write {p p' q : Talk E R α} {k : Nat} {inbox inbox' out u : List UInt8}
    (h : p.io k inbox = some (p', inbox', out)) (hp : p.AtCall) (hflush : flush p = (u, q))
    (hu : u ≠ []) :
    inbox' = inbox ∧ p'.AtCall ∧ 0 < out.length ∧ ∃ u', u = out ++ u' ∧ flush p' = (u', q) := by
  rcases io_cases h with ⟨bytes, next, rfl, hk, hle, rfl, rfl, rfl⟩ |
    ⟨want, got, next, rfl, hk, hle, -, rfl, rfl, rfl⟩
  · obtain ⟨h1, h2⟩ := @flush_send E R α bytes next k
    have hout : 0 < (bytes.take k).length := by rw [List.length_take]; omega
    rw [hflush] at h1 h2
    exact ⟨rfl, settle_atCall _, hout, _, h1, (flush_settle _).trans (Prod.ext rfl h2)⟩
  · cases want with
    | zero => exact absurd rfl hp
    | succ n => exact absurd (congrArg Prod.fst hflush).symm hu

/-- A system call of a program that will come to rest with what it reads is a `read()`,
and it will come to rest at the same place. -/
theorem io_read {pass : E → Option R} {p p' : Talk E R α} {k : Nat}
    {inbox inbox' out w : List UInt8} (h : p.io k inbox = some (p', inbox', out)) (hp : p.AtCall)
    (hr : (feed pass p (inbox ++ w)).2.1.Rests) :
    out = [] ∧ p'.AtCall ∧ inbox'.length < inbox.length ∧
      feed pass p' (inbox' ++ w) = feed pass p (inbox ++ w) := by
  rcases io_cases h with ⟨bytes, next, rfl, hk, hle, rfl, rfl, rfl⟩ |
    ⟨want, got, next, rfl, hk, hle, hin, rfl, rfl, rfl⟩
  · cases bytes with
    | nil => exact absurd rfl hp
    | cons b bs => exact absurd hr id
  · have hlen : (inbox.take k).length = k := by rw [List.length_take]; omega
    refine ⟨rfl, settle_atCall _, by rw [List.length_drop]; omega, ?_⟩
    have hpiece := @feed_recv E R α pass want got _ next (show (inbox.take k).length ≤ want by omega)
      (inbox.drop k ++ w)
    rw [hlen] at hpiece
    rw [feed_settle, hpiece, ← List.append_assoc, List.take_append_drop]

/-- There is nothing to read in an empty pipe. -/
theorem io_recv_nil {want k : Nat} {got : List UInt8} {next : List UInt8 → Talk E R α} :
    (Talk.recv want got next).io k [] = none :=
  if_neg fun h => absurd (Nat.lt_of_lt_of_le h.1 h.2.2) (Nat.lt_irrefl 0)

/-- A program with something to write can write. -/
theorem exists_write {p : Talk E R α} (hp : p.AtCall) (hw : (flush p).1 ≠ [])
    (inbox : List UInt8) : ∃ r, p.io 1 inbox = some r := by
  cases p with
  | done a => exact absurd rfl hw
  | send bytes next => exact ⟨_, if_pos ⟨Nat.one_pos, List.length_pos_iff.mpr hp⟩⟩
  | recv want got next =>
    cases want with
    | zero => exact absurd rfl hp
    | succ n => exact absurd rfl hw
  | ask e next => exact absurd rfl hw

/-- A program that will come to rest with its inbox has done so, or it can read. -/
theorem exists_read {pass : E → Option R} {p : Talk E R α} {inbox : List UInt8} (hp : p.AtCall)
    (hr : (feed pass p inbox).2.1.Rests) : p.Rests ∨ ∃ r, p.io 1 inbox = some r := by
  cases p with
  | done a => exact Or.inl trivial
  | send bytes next =>
    cases bytes with
    | nil => exact absurd rfl hp
    | cons b bs => exact absurd hr id
  | recv want got next =>
    have hwant : 1 ≤ want := Nat.one_le_iff_ne_zero.mpr hp
    by_cases hin : inbox = []
    · subst hin
      have hwait : ¬ want ≤ ([] : List UInt8).length := Nat.not_le.mpr hwant
      simp only [feed, if_neg hwait] at hr
      exact absurd hr id
    · exact Or.inr ⟨_, if_pos ⟨Nat.one_pos, hwant, List.length_pos_iff.mpr hin⟩⟩
  | ask e next => exact Or.inl trivial

/-! ## Alone -/

variable {σ : Type}

/-- The loop of `safe_read` when the writer has left: the `i`-th `read()` gives at
most `chunk i + 1` bytes, and none at the end of the file. The first argument bounds
the iterations; there are no more than bytes wanted. -/
def readLoop (chunk : Nat → Nat) :
    Nat → Nat → List UInt8 → List UInt8 → Nat → List UInt8 × List UInt8 × Nat
  | 0, _, got, inbox, i => (got, inbox, i)
  | fuel + 1, want, got, inbox, i =>
    if want = 0 then (got, inbox, i)
    else if inbox = [] then (got, inbox, i + 1)
    else
      let piece := inbox.take (min want (chunk i + 1))
      readLoop chunk fuel (want - piece.length) (got ++ piece) (inbox.drop piece.length) (i + 1)

/-- The program on a pipe that holds `inbox` and whose writer has left. Nobody keeps
it from writing; `answer` is what it gets for its questions. -/
def hear (chunk : Nat → Nat) (answer : σ → E → R × σ) :
    Talk E R α → List UInt8 → Nat → σ → α × List UInt8 × Nat × σ
  | .done a, inbox, i, x => (a, inbox, i, x)
  | .send _ next, inbox, i, x => hear chunk answer next inbox i x
  | .recv want got next, inbox, i, x =>
    let r := readLoop chunk want want got inbox i
    hear chunk answer (next r.1) r.2.1 r.2.2 x
  | .ask e next, inbox, i, x => hear chunk answer (next (answer x e).1) inbox i (answer x e).2

/-- The same with every read in one piece. -/
def hearAll (answer : σ → E → R × σ) :
    Talk E R α → List UInt8 → σ → α × List UInt8 × σ
  | .done a, inbox, x => (a, inbox, x)
  | .send _ next, inbox, x => hearAll answer next inbox x
  | .recv want got next, inbox, x =>
    hearAll answer (next (got ++ inbox.take want)) (inbox.drop want) x
  | .ask e next, inbox, x => hearAll answer (next (answer x e).1) inbox (answer x e).2

/-- All that is wanted is there. -/
theorem hearAll_readBytes (answer : σ → E → R × σ) {n : Nat} {bytes : List UInt8}
    (hlen : bytes.length = n) (f : List UInt8 → Talk E R β) (w : List UInt8) (x : σ) :
    hearAll answer (readBytes n >>= f) (bytes ++ w) x = hearAll answer (f bytes) w x := by
  rw [readBytes_bind]
  simp only [hearAll, List.nil_append]
  rw [List.take_left' hlen, List.drop_left' hlen]

theorem readLoop_eq (chunk : Nat → Nat) {fuel want : Nat} (got inbox : List UInt8) (i : Nat)
    (h : want ≤ fuel) : (readLoop chunk fuel want got inbox i).1 = got ++ inbox.take want ∧
      (readLoop chunk fuel want got inbox i).2.1 = inbox.drop want := by
  induction fuel generalizing want got inbox i with
  | zero =>
    obtain rfl : want = 0 := by omega
    simp [readLoop]
  | succ fuel ih =>
    unfold readLoop
    split
    next hw => subst hw; simp
    next hw =>
      split
      next hin => subst hin; simp
      next hin =>
        have hpos : 0 < inbox.length := List.length_pos_iff.mpr hin
        obtain ⟨n, hn, hpiece⟩ : ∃ n, (inbox.take (min want (chunk i + 1))).length = n ∧
            inbox.take (min want (chunk i + 1)) = inbox.take n :=
          ⟨_, rfl, by rw [List.length_take]; exact List.take_eq_take_min⟩
        -- something is there, so `read` returns at least one byte
        have hle : 0 < n ∧ n ≤ want := by
          rw [List.length_take] at hn
          omega
        have hwant : want = n + (want - n) := by omega
        obtain ⟨h1, h2⟩ := ih (got ++ inbox.take n) (inbox.drop n) (i + 1)
          (show want - n ≤ fuel by omega)
        dsimp only
        rw [hn, hpiece, h1, h2]
        constructor
        · conv_rhs => rw [hwant, List.take_add]
          rw [List.append_assoc]
        · rw [List.drop_drop, ← hwant]

/-- How the bytes arrive makes no difference. -/
theorem hear_eq (chunk : Nat → Nat) (answer : σ → E → R × σ) (p : Talk E R α)
    (inbox : List UInt8) (i : Nat) (x : σ) :
    (hear chunk answer p inbox i x).1 = (hearAll answer p inbox x).1 ∧
      (hear chunk answer p inbox i x).2.1 = (hearAll answer p inbox x).2.1 ∧
      (hear chunk answer p inbox i x).2.2.2 = (hearAll answer p inbox x).2.2 := by
  induction p generalizing inbox i x with
  | done a => exact ⟨rfl, rfl, rfl⟩
  | send bytes next ih => exact ih inbox i x
  | recv want got next ih =>
    obtain ⟨h1, h2⟩ := readLoop_eq chunk got inbox i (Nat.le_refl want)
    simp only [hear, hearAll]
    rw [h1, h2]
    exact ih _ _ _ x
  | ask e next ih => exact ih _ inbox i _

/-- What the program has read without asking anything has been read. -/
theorem hearAll_feed (answer : σ → E → R × σ) (p : Talk E R α) (w : List UInt8) (x : σ) :
    hearAll answer p w x =
      hearAll answer (feed (fun _ => none) p w).2.1 (feed (fun _ => none) p w).2.2 x := by
  induction p generalizing w with
  | done a => rfl
  | send bytes next ih =>
    cases bytes with
    | nil => exact ih w
    | cons b bs => rfl
  | recv want got next ih =>
    by_cases hw : want ≤ w.length
    · simp only [feed, if_pos hw, hearAll]
      exact ih _ _
    · have htake : w.take want = w := List.take_of_length_le (by omega)
      have hdrop : w.drop want = [] := List.drop_of_length_le (by omega)
      simp only [feed, if_neg hw, hearAll, htake, hdrop, List.take_nil, List.drop_nil,
        List.append_nil]
  | ask e next => rfl

end Talk

end Wire
