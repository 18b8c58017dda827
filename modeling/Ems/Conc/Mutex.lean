import Mathlib.Logic.Function.Basic

/-!
# Mutexes

A `pthread_mutex_t` as its owner. `Owned m inside` says that the mutex and the
threads agree: the owner is the thread inside the critical section, and nobody is
inside while there is no owner. Mutual exclusion (`Owned.unique`) is then a
matter of course; the rest of the file is how the agreement survives a move.
-/

namespace Conc

variable {T : Type}

/-- The owner of the mutex `m` is the thread in the critical section. -/
def Owned (m : Option T) (inside : T → Prop) : Prop := ∀ t, m = some t ↔ inside t

namespace Owned

variable {m : Option T} {inside inside' : T → Prop} {t u : T}

/-- Two threads inside are the same thread. -/
theorem unique (h : Owned m inside) (ht : inside t) (hu : inside u) : t = u := by
  have h1 := (h t).mpr ht
  rw [(h u).mpr hu] at h1
  exact (Option.some.inj h1).symm

/-- A move that neither enters nor leaves the section. -/
theorem move (h : Owned m inside) (hsame : ∀ u, inside' u ↔ inside u) : Owned m inside' :=
  fun u => (h u).trans (hsame u).symm

/-- A thread takes a free mutex and enters. -/
theorem lock (h : Owned m inside) (hfree : m = none) (ht : inside' t)
    (hother : ∀ u, u ≠ t → (inside' u ↔ inside u)) : Owned (some t) inside' := by
  intro u
  by_cases hu : u = t
  · subst hu; simp [ht]
  · have hout : ¬ inside u := fun hin => by
      have := (h u).mpr hin
      rw [hfree] at this
      cases this
    rw [hother u hu]
    simp [hout, Ne.symm hu]

/-- The thread inside leaves and gives the mutex back. -/
theorem unlock (h : Owned m inside) (hin : inside t) (ht : ¬ inside' t)
    (hother : ∀ u, u ≠ t → (inside' u ↔ inside u)) : Owned (none : Option T) inside' := by
  intro u
  by_cases hu : u = t
  · subst hu; simp [ht]
  · rw [hother u hu]
    simp only [reduceCtorEq, false_iff]
    exact fun hu' => hu (h.unique hu' hin)

end Owned

end Conc
