import Mathlib.Data.List.Basic

/-!
# Programs that read a file

A function that calls `read()` on one descriptor, as a tree: what it reads next,
and how it goes on for each answer. The file is not part of the tree. `run` feeds
it a file (the bytes from the current offset on) and gives the result and what is
left; `step` performs a single system call, for programs whose reads interleave
with something else. `step_run` is the bridge: a step changes neither the result
nor where the reading will end.

A file is regular: `read(fd, buf, n)` gives `n` bytes unless fewer are left. The
loop `while (read(fd, &ch, 1) == 1 && ch != '\n');` is a node of its own, since
no bound on it is known in advance.
-/

namespace Base

/-! ## Lines -/

/-- The newline. -/
abbrev nl : UInt8 := 10

/-- What is left of a file once the current line is skipped. -/
def dropLine : List UInt8 → List UInt8
  | [] => []
  | c :: s => if c = nl then s else dropLine s

/-- What is left is an end of the stream. -/
theorem dropLine_suffix (s : List UInt8) : dropLine s <:+ s := by
  induction s with
  | nil => exact List.suffix_rfl
  | cons c s ih =>
    unfold dropLine
    split
    · exact List.suffix_cons c s
    · exact ih.trans (List.suffix_cons c s)

/-- There is no line to skip only at the end of the file. -/
theorem dropLine_length_lt {s : List UInt8} (h : s ≠ []) : (dropLine s).length < s.length := by
  cases s with
  | nil => exact absurd rfl h
  | cons c s =>
    have := (dropLine_suffix s).length_le
    unfold dropLine
    split
    · simp
    · simp only [List.length_cons]; omega

/-- A line that ends in the first part is skipped there. -/
theorem dropLine_append {u : List UInt8} (h : nl ∈ u) (v : List UInt8) :
    dropLine (u ++ v) = dropLine u ++ v := by
  induction u with
  | nil => cases h
  | cons c u ih =>
    rw [List.cons_append, dropLine, dropLine]
    split
    next => rfl
    next hc =>
      exact ih ((List.mem_cons.mp h).resolve_left fun h => hc h.symm)

/-- A line that does not is skipped in the second one. -/
theorem dropLine_append_length_lt {u v : List UInt8} (h : nl ∉ u) (hv : v ≠ []) :
    (dropLine (u ++ v)).length < v.length := by
  induction u with
  | nil => exact dropLine_length_lt hv
  | cons c u ih =>
    rw [List.cons_append, dropLine, if_neg fun hc => h (by rw [hc]; exact List.mem_cons_self ..)]
    exact ih fun hm => h (List.mem_cons_of_mem _ hm)

/-- What follows a line in its file: nothing, or a newline and the next lines. -/
abbrev Tail := Option (List UInt8)

/-- The bytes that follow a line. -/
def Tail.bytes : Tail → List UInt8
  | none => []
  | some more => nl :: more

/-- The file from the beginning of the next line on. -/
def Tail.rest : Tail → List UInt8
  | none => []
  | some more => more

/-- Every file is a line and what follows it. -/
theorem exists_line (s : List UInt8) : ∃ a, ∃ tail : Tail, nl ∉ a ∧ s = a ++ tail.bytes := by
  induction s with
  | nil => exact ⟨[], none, by simp, rfl⟩
  | cons c s ih =>
    by_cases hc : c = nl
    · exact ⟨[], some s, by simp, by rw [hc]; rfl⟩
    · obtain ⟨a, tail, ha, hs⟩ := ih
      refine ⟨c :: a, tail, ?_, by rw [hs]; rfl⟩
      intro h
      rcases List.mem_cons.mp h with h | h
      · exact hc h.symm
      · exact ha h

/-- A line and its newline are skipped. -/
theorem dropLine_line {a : List UInt8} (h : nl ∉ a) (tail : Tail) :
    dropLine (a ++ tail.bytes) = tail.rest := by
  induction a with
  | nil =>
    cases tail with
    | none => rfl
    | some more => simp [Tail.bytes, Tail.rest, dropLine]
  | cons c a ih =>
    have hc : c ≠ nl := fun hc => h (by rw [hc]; exact List.mem_cons_self ..)
    rw [List.cons_append, dropLine, if_neg hc]
    exact ih fun hm => h (List.mem_cons_of_mem _ hm)

/-! ## Readings -/

/-- A computation that reads from one descriptor. -/
inductive Reading (α : Type) where
  /-- it is over -/
  | done (a : α)
  /-- `read(fd, buf, n)`, and what follows on the bytes it gives -/
  | read (n : Nat) (next : List UInt8 → Reading α)
  /-- discards the rest of a line, newline included -/
  | skip (next : Reading α)
  /-- an access outside of an object: the language says nothing from here on -/
  | undefined

namespace Reading

variable {α β : Type}

def bind : Reading α → (α → Reading β) → Reading β
  | .done a, f => f a
  | .read n next, f => .read n fun bs => (next bs).bind f
  | .skip next, f => .skip (next.bind f)
  | .undefined, _ => .undefined

instance : Monad Reading where
  pure := .done
  bind := .bind

/-- One call of `read`. -/
def readBytes (n : Nat) : Reading (List UInt8) := .read n .done

/-- The loop that skips to the end of the line. -/
def skipLine : Reading Unit := .skip (.done ())

/-- The result of the computation on a file, and what is left of the file;
`none` when the behaviour is undefined. -/
def run : Reading α → List UInt8 → Option (α × List UInt8)
  | .done a, s => some (a, s)
  | .read n next, s => (next (s.take n)).run (s.drop n)
  | .skip next, s => next.run (dropLine s)
  | .undefined, _ => none

/-- One system call. -/
def step : Reading α → List UInt8 → Option (Reading α × List UInt8)
  | .done _, _ => none
  | .read n next, s => some (next (s.take n), s.drop n)
  | .skip next, [] => some (next, [])
  | .skip next, c :: s => if c = nl then some (next, s) else some (.skip next, s)
  | .undefined, _ => none

/-! ## Running -/

/-- A reader that reads nothing. -/
@[simp] theorem run_pure (a : α) (s : List UInt8) : (pure a : Reading α).run s = some (a, s) := rfl

/-- Some bytes, or as many as there are. -/
@[simp] theorem run_readBytes (n : Nat) (s : List UInt8) :
    (readBytes n).run s = some (s.take n, s.drop n) := rfl

/-- The rest of a line. -/
@[simp] theorem run_skipLine (s : List UInt8) : skipLine.run s = some ((), dropLine s) := rfl

/-- The second reader goes on where the first one has stopped. -/
@[simp] theorem run_bind (p : Reading α) (f : α → Reading β) (s : List UInt8) :
    (p >>= f).run s = (p.run s).bind fun r => (f r.1).run r.2 := by
  show (p.bind f).run s = _
  induction p generalizing s with
  | done a => rfl
  | read n next ih => exact ih (s.take n) (s.drop n)
  | skip next ih => exact ih (dropLine s)
  | undefined => rfl

/-- Two ways to go on whose results correspond. -/
theorem run_bind_map {γ : Type} {f : α → Reading β} {g : α → Reading γ}
    {k : β × List UInt8 → γ × List UInt8} (h : ∀ a s, (g a).run s = ((f a).run s).map k)
    (p : Reading α) (s : List UInt8) : (p >>= g).run s = ((p >>= f).run s).map k := by
  rw [run_bind, run_bind, Option.map_bind]
  congr 1
  funext r
  exact h r.1 r.2

/-- A system call changes nothing of what will come out. -/
theorem step_run {p p' : Reading α} {s s' : List UInt8} (h : p.step s = some (p', s')) :
    p'.run s' = p.run s := by
  cases p with
  | done a => cases h
  | read n next => cases h; rfl
  | skip next =>
    cases s with
    | nil => cases h; rfl
    | cons c s =>
      simp only [step] at h
      split at h
      next hc => cases h; simp only [run, dropLine, if_pos hc]
      next hc => cases h; simp only [run, dropLine, if_neg hc]
  | undefined => cases h

/-- A step leaves an end of the stream. -/
theorem step_suffix {p p' : Reading α} {s s' : List UInt8} (h : p.step s = some (p', s')) :
    s' <:+ s := by
  cases p with
  | done a => cases h
  | read n next => cases h; exact List.drop_suffix n s
  | skip next =>
    cases s with
    | nil => cases h; exact List.suffix_rfl
    | cons c s =>
      simp only [step] at h
      split at h <;> cases h <;> exact List.suffix_cons ..
  | undefined => cases h

/-- What is left of a reading behind one call. -/
inductive Behind : Reading α → Reading α → Prop where
  | read {n next} (bs : List UInt8) : Behind (next bs) (.read n next)
  | skip {next} : Behind next (.skip next)

/-- A reader cannot go on for ever. -/
theorem behind_wellFounded : WellFounded (Behind : Reading α → Reading α → Prop) := by
  refine ⟨fun p => ?_⟩
  induction p with
  | done a => exact ⟨_, fun q h => by cases h⟩
  | read n next ih => exact ⟨_, fun q h => by cases h with | read bs => exact ih bs⟩
  | skip next ih => exact ⟨_, fun q h => by cases h; exact ih⟩
  | undefined => exact ⟨_, fun q h => by cases h⟩

/-- Every system call gets on, in the file or in the reading. -/
theorem step_behind {p p' : Reading α} {s s' : List UInt8} (h : p.step s = some (p', s')) :
    s'.length < s.length ∨ s'.length ≤ s.length ∧ p'.Behind p := by
  cases p with
  | done a => cases h
  | read n next =>
    cases h
    exact .inr ⟨(List.drop_suffix n s).length_le, .read _⟩
  | skip next =>
    cases s with
    | nil =>
      cases h
      exact .inr ⟨Nat.le_refl _, .skip⟩
    | cons c s =>
      simp only [step] at h
      split at h <;> cases h <;> exact .inl (Nat.lt_succ_self _)
  | undefined => cases h

/-- A reading never goes back. -/
theorem run_suffix {p : Reading α} {s s' : List UInt8} {a : α} (h : p.run s = some (a, s')) :
    s' <:+ s := by
  induction p generalizing s with
  | done b => cases h; exact List.suffix_rfl
  | read n next ih => exact (ih (s.take n) h).trans (List.drop_suffix n s)
  | skip next ih => exact (ih h).trans (dropLine_suffix s)
  | undefined => cases h

/-- Every result, whatever the file is, has the property. -/
def All (P : α → Prop) : Reading α → Prop
  | .done a => P a
  | .read _ next => ∀ bs, (next bs).All P
  | .skip next => next.All P
  | .undefined => True

/-- One reader behind the other. -/
theorem All.bind {P : β → Prop} {f : α → Reading β} (h : ∀ a, (f a).All P) (p : Reading α) :
    (p >>= f).All P := by
  show (p.bind f).All P
  induction p with
  | done a => exact h a
  | read n next ih => exact ih
  | skip next ih => exact ih
  | undefined => trivial

/-- A step keeps what holds of all results. -/
theorem All.step {P : α → Prop} {p p' : Reading α} {s s' : List UInt8} (h : p.All P)
    (hstep : p.step s = some (p', s')) : p'.All P := by
  cases p with
  | done a => cases hstep
  | read n next => cases hstep; exact h _
  | skip next =>
    cases s with
    | nil => cases hstep; exact h
    | cons c s =>
      simp only [Reading.step] at hstep
      split at hstep <;> cases hstep <;> exact h
  | undefined => cases hstep

/-- What a reading leaves unread, it does not depend on. A file that ends there
is different: a `read` that asked for more may have been cut short. -/
theorem run_append {p : Reading α} {u v : List UInt8} {a : α} (h : p.run (u ++ v) = some (a, v))
    (hv : v ≠ []) (w : List UInt8) : p.run (u ++ w) = some (a, w) := by
  have hpos : 0 < v.length := List.length_pos_iff.mpr hv
  induction p generalizing u with
  | done b =>
    obtain ⟨hb, huv⟩ := Prod.mk.inj (Option.some.inj h)
    have hu : u = [] := List.append_left_eq_self.mp huv
    rw [hu, hb]
    rfl
  | read n next ih =>
    simp only [run] at h ⊢
    by_cases hn : n ≤ u.length
    · rw [List.take_append_of_le_length hn, List.drop_append_of_le_length hn] at h ⊢
      exact ih _ h
    · -- it would have read into `v`
      have hle := (run_suffix h).length_le
      simp only [List.length_drop, List.length_append] at hle
      omega
  | skip next ih =>
    simp only [run] at h ⊢
    by_cases hu : nl ∈ u
    · have hdrop : ∀ x, dropLine (u ++ x) = dropLine u ++ x := dropLine_append hu
      rw [hdrop] at h ⊢
      exact ih h
    · have hle := (run_suffix h).length_le
      have := dropLine_append_length_lt hu hv
      omega
  | undefined => cases h

end Reading

end Base
