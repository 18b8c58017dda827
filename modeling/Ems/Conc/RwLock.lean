import Mathlib.Data.Finset.Basic
import Mathlib.Logic.Function.Basic

/-!
# Reader-writer locks

A `pthread_rwlock_t` as the set of its holders. That a writer excludes every
reader is a field, so a lock state that breaks it cannot be built; the lock
calls return `none` when the caller has to wait.
-/

namespace Conc

/-- The holders of a reader-writer lock. -/
structure RwLock (T : Type) where
  writer : Option T
  readers : Finset T
  excl : writer ≠ none → readers = ∅

namespace RwLock

variable {T : Type}

/-- A lock nobody holds. -/
def free : RwLock T := ⟨none, ∅, fun _ => rfl⟩

section Calls

variable [DecidableEq T]

/-- `pthread_rwlock_rdlock`: waits while there is a writer. -/
def rdlock (l : RwLock T) (t : T) : Option (RwLock T) :=
  if l.writer = none then some ⟨none, insert t l.readers, fun h => absurd rfl h⟩ else none

/-- `pthread_rwlock_wrlock`: waits while anybody holds the lock. -/
def wrlock (l : RwLock T) (t : T) : Option (RwLock T) :=
  if l.writer = none ∧ l.readers = ∅ then some ⟨some t, ∅, fun _ => rfl⟩ else none

/-- `pthread_rwlock_unlock` by the thread `t`. -/
def unlock (l : RwLock T) (t : T) : RwLock T :=
  if l.writer = some t then free
  else ⟨l.writer, l.readers.erase t, fun h => by rw [l.excl h]; rfl⟩

/-- A read lock is granted only when nobody writes, and adds one reader. -/
theorem rdlock_some {l l' : RwLock T} {t : T} (h : l.rdlock t = some l') :
    l.writer = none ∧ l'.writer = none ∧ l'.readers = insert t l.readers := by
  unfold rdlock at h
  split at h
  next hw => cases h; exact ⟨hw, rfl, rfl⟩
  next => cases h

/-- A write lock is granted only when nobody holds the lock. -/
theorem wrlock_some {l l' : RwLock T} {t : T} (h : l.wrlock t = some l') :
    l.writer = none ∧ l.readers = ∅ ∧ l'.writer = some t ∧ l'.readers = ∅ := by
  unfold wrlock at h
  split at h
  next hw => cases h; exact ⟨hw.1, hw.2, rfl, rfl⟩
  next => cases h

/-- What `unlock` leaves when the caller holds the lock for writing. -/
theorem unlock_writer {l : RwLock T} {t : T} (h : l.writer = some t) :
    (l.unlock t).writer = none ∧ (l.unlock t).readers = ∅ := by
  unfold unlock
  rw [if_pos h]
  exact ⟨rfl, rfl⟩

/-- What `unlock` leaves when the caller holds the lock for reading. -/
theorem unlock_reader {l : RwLock T} {t : T} (h : t ∈ l.readers) :
    (l.unlock t).writer = none ∧ (l.unlock t).readers = l.readers.erase t := by
  have hw : l.writer = none := by
    by_contra hne
    rw [l.excl hne] at h
    exact absurd h (Finset.notMem_empty t)
  unfold unlock
  rw [if_neg (by simp [hw])]
  exact ⟨hw, rfl⟩

/-- `unlock` makes nobody a writer. -/
theorem unlock_unwritten {l : RwLock T} (h : l.writer = none) (t : T) :
    (l.unlock t).writer = none := by
  unfold unlock
  rw [if_neg (by simp [h])]
  exact h

/-- A reader of a free lock leaves it free. -/
theorem rdlock_free (t : T) : ∃ l, (free : RwLock T).rdlock t = some l ∧ l.unlock t = free := by
  refine ⟨⟨none, {t}, fun h => absurd rfl h⟩, rfl, ?_⟩
  unfold unlock
  rw [if_neg nofun]
  simp [free]

/-- And so does a writer. -/
theorem wrlock_free (t : T) : ∃ l, (free : RwLock T).wrlock t = some l ∧ l.unlock t = free :=
  ⟨⟨some t, ∅, fun _ => rfl⟩, rfl, if_pos rfl⟩

end Calls

/-- The lock agrees with the places the threads are in: `rd t` and `wr t` say
that `t` is between its read (write) lock and its unlock. -/
structure Agrees (l : RwLock T) (rd wr : T → Prop) : Prop where
  reader : ∀ t, t ∈ l.readers ↔ rd t
  writer : ∀ t, l.writer = some t ↔ wr t

/-- A thread in its write section is alone. -/
theorem Agrees.alone {l : RwLock T} {rd wr : T → Prop} (h : l.Agrees rd wr) {t u : T}
    (ht : wr t) : ¬ rd u ∧ (wr u → u = t) := by
  have hw := (h.writer t).mpr ht
  constructor
  · intro hu
    have := (h.reader u).mpr hu
    rw [l.excl (by simp [hw])] at this
    exact absurd this (Finset.notMem_empty u)
  · intro hu
    have hwu := (h.writer u).mpr hu
    rw [hw] at hwu
    exact (Option.some.inj hwu).symm

/-! ## The lock calls keep the agreement

`rd'` and `wr'` are the sections after a move of `t`; every other thread is
where it was. -/

section Moves

variable {l l' : RwLock T} {rd wr rd' wr' : T → Prop} {t : T}

/-- A move that leaves the lock alone. -/
theorem Agrees.move (h : l.Agrees rd wr) (hr : ∀ u, rd' u ↔ rd u) (hw : ∀ u, wr' u ↔ wr u) :
    l.Agrees rd' wr' :=
  ⟨fun u => (h.reader u).trans (hr u).symm, fun u => (h.writer u).trans (hw u).symm⟩

variable [DecidableEq T]

/-- A thread enters its read section. -/
theorem Agrees.rdlock (h : l.Agrees rd wr) (hl : l.rdlock t = some l') (hrt : rd' t)
    (hwt : ¬ wr' t) (hr : ∀ u, u ≠ t → (rd' u ↔ rd u)) (hw : ∀ u, u ≠ t → (wr' u ↔ wr u)) :
    l'.Agrees rd' wr' := by
  obtain ⟨hfree, hlw, hlr⟩ := rdlock_some hl
  have hno : ∀ u, ¬ wr u := by
    intro u hu
    have := (h.writer u).mpr hu
    rw [hfree] at this
    cases this
  constructor
  · intro u
    rw [hlr, Finset.mem_insert]
    by_cases hu : u = t
    · subst hu; simp [hrt]
    · rw [hr u hu, ← h.reader u]; simp [hu]
  · intro u
    rw [hlw]
    by_cases hu : u = t
    · subst hu; simp [hwt]
    · simp [hw u hu, hno u]

/-- A thread enters its write section. -/
theorem Agrees.wrlock (h : l.Agrees rd wr) (hl : l.wrlock t = some l') (hrt : ¬ rd' t)
    (hwt : wr' t) (hr : ∀ u, u ≠ t → (rd' u ↔ rd u)) (hw : ∀ u, u ≠ t → (wr' u ↔ wr u)) :
    l'.Agrees rd' wr' := by
  obtain ⟨hfree, hempty, hlw, hlr⟩ := wrlock_some hl
  constructor
  · intro u
    rw [hlr, ← hempty]
    by_cases hu : u = t
    · subst hu; simp [hempty, hrt]
    · rw [hr u hu]; exact h.reader u
  · intro u
    rw [hlw]
    by_cases hu : u = t
    · subst hu; simp [hwt]
    · rw [hw u hu, ← h.writer u, hfree]; simp [Ne.symm hu]

/-- A thread leaves its section. -/
theorem Agrees.unlock (h : l.Agrees rd wr) (hin : rd t ∨ wr t) (hrt : ¬ rd' t)
    (hwt : ¬ wr' t) (hr : ∀ u, u ≠ t → (rd' u ↔ rd u)) (hw : ∀ u, u ≠ t → (wr' u ↔ wr u)) :
    (l.unlock t).Agrees rd' wr' := by
  rcases hin with hin | hin
  · obtain ⟨hlw, hlr⟩ := unlock_reader ((h.reader t).mpr hin)
    constructor
    · intro u
      rw [hlr, Finset.mem_erase]
      by_cases hu : u = t
      · subst hu; simp [hrt]
      · rw [hr u hu, ← h.reader u]; simp [hu]
    · intro u
      have hno : ¬ wr u := fun hu => (h.alone hu).1 hin
      rw [hlw]
      by_cases hu : u = t
      · subst hu; simp [hwt]
      · simp [hw u hu, hno]
  · obtain ⟨hlw, hlr⟩ := unlock_writer ((h.writer t).mpr hin)
    constructor
    · intro u
      have hno : ¬ rd u := (h.alone hin).1
      rw [hlr]
      by_cases hu : u = t
      · subst hu; simp [hrt]
      · simp [hr u hu, hno]
    · intro u
      rw [hlw]
      by_cases hu : u = t
      · subst hu; simp [hwt]
      · have hno : ¬ wr u := fun hu' => hu ((h.alone hin).2 hu')
        simp [hw u hu, hno]

end Moves

/-! ## Threads with places

A program whose threads stand in places `P`; `rd` and `wr` say which places are
inside a read or a write section. One thread moves at a time. -/

section Places

variable {P : Type} {l l' : RwLock T} {rd wr : P → Bool} {pc : T → P} {t : T} {p : P}

/-- The lock is held by the threads whose places are inside its sections. -/
def Follows (l : RwLock T) (rd wr : P → Bool) (pc : T → P) : Prop :=
  l.Agrees (fun t => rd (pc t) = true) (fun t => wr (pc t) = true)

/-- A free lock, and nobody in a section. -/
theorem follows_free {p : P} (hr : rd p = false) (hw : wr p = false) :
    (free : RwLock T).Follows rd wr fun _ => p :=
  ⟨fun t => by simp [free, hr], fun t => by simp [free, hw]⟩

/-- A thread in its write section is alone. -/
theorem Follows.alone (h : l.Follows rd wr pc) {u : T} (ht : wr (pc t) = true) (hu : u ≠ t) :
    rd (pc u) = false ∧ wr (pc u) = false := by
  obtain ⟨hr, hw⟩ := Agrees.alone h ht (u := u)
  exact ⟨Bool.eq_false_of_not_eq_true hr, Bool.eq_false_of_not_eq_true fun h => hu (hw h)⟩

variable [DecidableEq T]

theorem update_section (f : P → Bool) {u : T} (hu : u ≠ t) :
    f (Function.update pc t p u) = true ↔ f (pc u) = true := by
  rw [Function.update_of_ne hu]

/-- A thread moves within its section, or outside of all. -/
theorem Follows.goto (h : l.Follows rd wr pc) (hr : rd p = rd (pc t)) (hw : wr p = wr (pc t)) :
    l.Follows rd wr (Function.update pc t p) := by
  have hsame : ∀ f : P → Bool, f p = f (pc t) → ∀ u,
      f (Function.update pc t p u) = true ↔ f (pc u) = true := by
    intro f hf u
    by_cases hu : u = t
    · subst hu; rw [Function.update_self, hf]
    · exact update_section f hu
  exact h.move (hsame rd hr) (hsame wr hw)

/-- A thread enters its read section. -/
theorem Follows.rdlock (h : l.Follows rd wr pc) (hl : l.rdlock t = some l') (hr : rd p = true)
    (hw : wr p = false) : l'.Follows rd wr (Function.update pc t p) :=
  Agrees.rdlock h hl (by simp [hr]) (by simp [hw]) (fun _ hu => update_section rd hu)
    (fun _ hu => update_section wr hu)

/-- A thread enters its write section. -/
theorem Follows.wrlock (h : l.Follows rd wr pc) (hl : l.wrlock t = some l') (hr : rd p = false)
    (hw : wr p = true) : l'.Follows rd wr (Function.update pc t p) :=
  Agrees.wrlock h hl (by simp [hr]) (by simp [hw]) (fun _ hu => update_section rd hu)
    (fun _ hu => update_section wr hu)

/-- A thread leaves its section. -/
theorem Follows.unlock (h : l.Follows rd wr pc) (hin : rd (pc t) = true ∨ wr (pc t) = true)
    (hr : rd p = false) (hw : wr p = false) :
    (l.unlock t).Follows rd wr (Function.update pc t p) :=
  Agrees.unlock h hin (by simp [hr]) (by simp [hw]) (fun _ hu => update_section rd hu)
    (fun _ hu => update_section wr hu)

end Places

end RwLock

end Conc
