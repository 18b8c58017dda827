import Mathlib.Order.WellFounded
import Ems.Conc.RwLock

/-!
# Programs that take locks

What one thread does between a call and its return, as a tree: it asks for a lock, gives
one back, or does something else (`act`) and goes on with the answer. A tree knows
nothing of the other threads and nothing of the memory; whoever runs it decides what the
answers are.

`wp` is the logic of these trees. A `Spec` says of every kind of step what has to hold
of some watched value before it for something to hold of it afterwards; `wp S p post` is
then what has to hold before `p`. One tree is looked at with several specifications:
which locks it holds (`ordered`, here), what it writes, what it does to an object.

`Returns` is a single run of a tree on given answers.
-/

namespace Conc

/-- How a lock is taken; a mutex is taken for writing. -/
inductive Mode where
  | read
  | write
deriving DecidableEq, Repr

/-- A program with locks `L` and other actions `E`, whose answers are in `R`. -/
inductive Program (L E : Type) (R : E → Type) (α : Type) where
  | done (a : α)
  | lock (l : L) (mode : Mode) (next : Program L E R α)
  | unlock (l : L) (next : Program L E R α)
  | act (e : E) (next : R e → Program L E R α)
  /-- the language says nothing from here on -/
  | undefined

namespace Program

variable {L E α β μ : Type} {R : E → Type}

def bind : Program L E R α → (α → Program L E R β) → Program L E R β
  | .done a, f => f a
  | .lock l mode next, f => .lock l mode (next.bind f)
  | .unlock l next, f => .unlock l (next.bind f)
  | .act e next, f => .act e fun r => (next r).bind f
  | .undefined, _ => .undefined

instance : Monad (Program L E R) where
  pure := .done
  bind := .bind

/-- A lock call. -/
def acquire (l : L) (mode : Mode) : Program L E R Unit := .lock l mode (.done ())

/-- An unlock call. -/
def release (l : L) : Program L E R Unit := .unlock l (.done ())

/-- Any other action. -/
def perform (e : E) : Program L E R (R e) := .act e .done

/-- Nothing, and then something. -/
@[simp] theorem pure_bind (a : α) (f : α → Program L E R β) : (pure a >>= f) = f a := rfl

/-- A lock, and then something. -/
@[simp] theorem acquire_bind (l : L) (mode : Mode) (f : Unit → Program L E R β) :
    (acquire l mode >>= f) = .lock l mode (f ()) := rfl

/-- An unlock, and then something. -/
@[simp] theorem release_bind (l : L) (f : Unit → Program L E R β) :
    (release l >>= f) = .unlock l (f ()) := rfl

/-- An action, and then something that has its answer. -/
@[simp] theorem perform_bind (e : E) (f : R e → Program L E R β) :
    (perform e >>= f) = .act e f := rfl

/-! ## Preconditions -/

/-- What the steps of a program do to a watched value: each field turns what is to hold
after a step into what has to hold before it. -/
structure Spec (L E : Type) (R : E → Type) (μ : Type) where
  lock : L → Mode → (μ → Prop) → μ → Prop
  unlock : L → (μ → Prop) → μ → Prop
  act : (e : E) → (R e → μ → Prop) → μ → Prop
  /-- where undefined behaviour is all right -/
  undefined : μ → Prop
  lock_mono : ∀ {l mode Q Q' m}, (∀ m, Q m → Q' m) → lock l mode Q m → lock l mode Q' m
  unlock_mono : ∀ {l Q Q' m}, (∀ m, Q m → Q' m) → unlock l Q m → unlock l Q' m
  act_mono : ∀ {e Q Q' m}, (∀ r m, Q r m → Q' r m) → act e Q m → act e Q' m

/-- What has to hold of the watched value for `post` to hold in the end. -/
def wp (S : Spec L E R μ) : Program L E R α → (α → μ → Prop) → μ → Prop
  | .done a, post => post a
  | .lock l mode next, post => S.lock l mode (next.wp S post)
  | .unlock l next, post => S.unlock l (next.wp S post)
  | .act e next, post => S.act e fun r => (next r).wp S post
  | .undefined, _ => S.undefined

section Rules

variable {S : Spec L E R μ} {p : Program L E R α} {m : μ}

/-- A program that is over meets what holds now. -/
@[simp] theorem wp_pure (a : α) (post : α → μ → Prop) :
    (pure a : Program L E R α).wp S post m = post a m := rfl

/-- A lock, and the rest of the program. -/
@[simp] theorem wp_lock (l : L) (mode : Mode) (post : α → μ → Prop) :
    (Program.lock l mode p).wp S post m = S.lock l mode (p.wp S post) m := rfl

/-- An unlock, and the rest of the program. -/
@[simp] theorem wp_unlock (l : L) (post : α → μ → Prop) :
    (Program.unlock l p).wp S post m = S.unlock l (p.wp S post) m := rfl

/-- An action, and the rest of the program for every answer the steps allow. -/
@[simp] theorem wp_act (e : E) (next : R e → Program L E R α) (post : α → μ → Prop) :
    (Program.act e next).wp S post m = S.act e (fun r => (next r).wp S post) m := rfl

/-- Just a lock. -/
@[simp] theorem wp_acquire (l : L) (mode : Mode) (post : Unit → μ → Prop) :
    (acquire l mode : Program L E R Unit).wp S post m = S.lock l mode (post ()) m := rfl

/-- Just an unlock. -/
@[simp] theorem wp_release (l : L) (post : Unit → μ → Prop) :
    (release l : Program L E R Unit).wp S post m = S.unlock l (post ()) m := rfl

/-- Either branch under its own condition. -/
@[simp] theorem wp_ite {c : Prop} [Decidable c] {q : Program L E R α} (post : α → μ → Prop) :
    (if c then p else q).wp S post m ↔ (c → p.wp S post m) ∧ (¬ c → q.wp S post m) := by
  split
  next hc => simp [hc]
  next hc => simp [hc]

/-- The rule of consequence. -/
theorem wp_mono {post post' : α → μ → Prop} (hpost : ∀ a m, post a m → post' a m) :
    ∀ {m}, p.wp S post m → p.wp S post' m := by
  induction p with
  | done a => exact hpost a _
  | lock l mode next ih => exact S.lock_mono fun _ => ih
  | unlock l next ih => exact S.unlock_mono fun _ => ih
  | act e next ih => exact S.act_mono fun r _ => ih r
  | undefined => exact id

/-- The rule of composition. -/
theorem wp_bind (f : α → Program L E R β) (post : β → μ → Prop) :
    ∀ {m}, p.wp S (fun a => (f a).wp S post) m → (p >>= f).wp S post m := by
  show ∀ {m}, p.wp S (fun a => (f a).wp S post) m → (p.bind f).wp S post m
  induction p with
  | done a => exact id
  | lock l mode next ih => exact S.lock_mono fun _ => ih
  | unlock l next ih => exact S.unlock_mono fun _ => ih
  | act e next ih => exact S.act_mono fun r _ => ih r
  | undefined => exact id

end Rules

/-! ## Alone -/

section Alone

variable {σ : Type} (answer : (e : E) → σ → Option (R e × σ))

/-- The program with nobody else around: every lock is granted. -/
def exec : Program L E R α → σ → Option (α × σ)
  | .done a, s => some (a, s)
  | .lock _ _ next, s => next.exec s
  | .unlock _ next, s => next.exec s
  | .act e next, s => (answer e s).bind fun r => (next r.1).exec r.2
  | .undefined, _ => none

/-- A program and then another one. -/
theorem exec_bind (p : Program L E R α) (f : α → Program L E R β) :
    ∀ s, (p >>= f).exec answer s = (p.exec answer s).bind fun r => (f r.1).exec answer r.2 := by
  show ∀ s, (p.bind f).exec answer s = _
  induction p with
  | done a => exact fun s => rfl
  | lock l mode next ih => exact ih
  | unlock l next ih => exact ih
  | act e next ih =>
    intro s
    show (answer e s).bind _ = ((answer e s).bind _).bind _
    rw [Option.bind_assoc]
    exact congrArg _ (funext fun r => ih r.1 r.2)
  | undefined => exact fun s => rfl

/-- The steps of a program that nobody disturbs; none of them is missing. -/
def alone : Spec L E R σ where
  lock _ _ Q s := Q s
  unlock _ Q s := Q s
  act e Q s := ∃ r s', answer e s = some (r, s') ∧ Q r s'
  undefined _ := False
  lock_mono hQ h := hQ _ h
  unlock_mono hQ h := hQ _ h
  act_mono hQ h := by
    obtain ⟨r, s', hr, h⟩ := h
    exact ⟨r, s', hr, hQ r s' h⟩

variable {answer}

/-- Alone, a lock is granted. -/
@[simp] theorem alone_lock {l : L} {mode : Mode} {Q : σ → Prop} {s : σ} :
    (alone answer : Spec L E R σ).lock l mode Q s = Q s := rfl

/-- Alone, an unlock changes nothing. -/
@[simp] theorem alone_unlock {l : L} {Q : σ → Prop} {s : σ} :
    (alone answer : Spec L E R σ).unlock l Q s = Q s := rfl

/-- Alone, an action has to have an answer. -/
@[simp] theorem alone_act {e : E} {Q : R e → σ → Prop} {s : σ} :
    (alone answer : Spec L E R σ).act e Q s ↔ ∃ r s', answer e s = some (r, s') ∧ Q r s' := Iff.rfl

/-- Alone, no step may be undefined. -/
@[simp] theorem alone_undefined {s : σ} : ¬ (alone answer : Spec L E R σ).undefined s := id

/-- It comes to its end. -/
theorem exec_of_wp {p : Program L E R α} {post : α → σ → Prop} :
    ∀ {s}, p.wp (alone answer) post s → ∃ a s', p.exec answer s = some (a, s') ∧ post a s' := by
  induction p with
  | done a => exact fun h => ⟨a, _, rfl, h⟩
  | lock l mode next ih => exact fun h => ih h
  | unlock l next ih => exact fun h => ih h
  | act e next ih =>
    rintro s ⟨r, s', hr, h⟩
    obtain ⟨a, s'', hexec, hpost⟩ := ih r h
    exact ⟨a, s'', by rw [exec, hr]; exact hexec, hpost⟩
  | undefined => exact fun h => absurd h id

end Alone

/-! ## The order of the locks -/

/-- Which locks a thread holds, and how. -/
abbrev Held (L : Type) := L → Option Mode

/-- Nothing is held. -/
def Free {L : Type} (held : Held L) : Prop := ∀ l, held l = none

/-- The actions of a thread so far, with what they were answered. -/
abbrev Past (E : Type) (R : E → Type) := List ((e : E) × R e)

section Order

variable [DecidableEq L] {ρ : Type} [LT ρ]

/-- A lock is only taken above all locks that are held, and only given back when it is
held. -/
def ordered (rank : L → ρ) (undefined : Past E R → Prop) : Spec L E R (Held L × Past E R) where
  lock l mode Q m := (∀ k, m.1 k ≠ none → rank k < rank l) ∧
    Q (Function.update m.1 l (some mode), m.2)
  unlock l Q m := m.1 l ≠ none ∧ Q (Function.update m.1 l none, m.2)
  act e Q m := ∀ r, Q r (m.1, m.2 ++ [⟨e, r⟩])
  undefined m := undefined m.2
  lock_mono hQ h := ⟨h.1, hQ _ h.2⟩
  unlock_mono hQ h := ⟨h.1, hQ _ h.2⟩
  act_mono hQ h := fun r => hQ r _ (h r)

section

variable {rank : L → ρ} {undefined : Past E R → Prop} {m : Held L × Past E R}

/-- A lock comes behind those of smaller rank. -/
@[simp] theorem ordered_lock {l : L} {mode : Mode} {Q : Held L × Past E R → Prop} :
    (ordered rank undefined).lock l mode Q m ↔ (∀ k, m.1 k ≠ none → rank k < rank l) ∧
      Q (Function.update m.1 l (some mode), m.2) := Iff.rfl

/-- Only what is held is given back. -/
@[simp] theorem ordered_unlock {l : L} {Q : Held L × Past E R → Prop} :
    (ordered rank undefined).unlock l Q m ↔ m.1 l ≠ none ∧
      Q (Function.update m.1 l none, m.2) := Iff.rfl

/-- Every answer is put on record. -/
@[simp] theorem ordered_act {e : E} {Q : R e → Held L × Past E R → Prop} :
    (ordered rank undefined).act e Q m ↔ ∀ r, Q r (m.1, m.2 ++ [⟨e, r⟩]) := Iff.rfl

end

/-- A program that follows the order, and where it is undefined. It gives back all of its
locks exactly when its actions were answered in a `fair` way. -/
def Ordered (rank : L → ρ) (undefined fair : Past E R → Prop) (p : Program L E R α)
    (held : Held L) (past : Past E R) : Prop :=
  p.wp (ordered rank undefined)
    (fun _ m => (Free m.1 ↔ fair m.2) ∧ ¬ undefined m.2) (held, past)

end Order

section Runs

variable [DecidableEq L] (answers : Nat → (e : E) → R e)

/-- A run on the given answers, the first of them number `i`: every lock that is given
back is held, the program ends, and it holds nothing then. -/
def Returns : Program L E R α → Nat → Held L → Prop
  | .done _, _, held => Free held
  | .lock l mode next, i, held => next.Returns i (Function.update held l (some mode))
  | .unlock l next, i, held =>
    held l ≠ none ∧ next.Returns i (Function.update held l none)
  | .act e next, i, held => (next (answers i e)).Returns (i + 1) held
  | .undefined, _, _ => False

/-- The actions of the run. -/
def trace : Program L E R α → Nat → Past E R
  | .done _, _ => []
  | .lock _ _ next, i => next.trace i
  | .unlock _ next, i => next.trace i
  | .act e next, i => ⟨e, answers i e⟩ :: (next (answers i e)).trace (i + 1)
  | .undefined, _ => []

/-- What the run returns; `none` when it comes to undefined behaviour. -/
def result : Program L E R α → Nat → Option α
  | .done a, _ => some a
  | .lock _ _ next, i => next.result i
  | .unlock _ next, i => next.result i
  | .act e next, i => (next (answers i e)).result (i + 1)
  | .undefined, _ => none

variable {answers}

omit [DecidableEq L] in
/-- Every action is answered by one of the answers. -/
theorem eq_of_mem_trace {p : Program L E R α} {x : (e : E) × R e} :
    ∀ {i}, x ∈ p.trace answers i → ∃ k, x.2 = answers k x.1 := by
  induction p with
  | done a => exact fun h => absurd h List.not_mem_nil
  | lock l mode next ih => exact fun h => ih h
  | unlock l next ih => exact fun h => ih h
  | act e next ih =>
    intro i h
    rcases List.mem_cons.mp h with rfl | h
    · exact ⟨i, rfl⟩
    · exact ih _ h
  | undefined => exact fun h => absurd h List.not_mem_nil

/-- Whether a program returns with nothing can be told from what it was answered. -/
theorem Ordered.returns_iff {ρ : Type} [LT ρ] {rank : L → ρ} {undefined fair : Past E R → Prop}
    {p : Program L E R α} : ∀ {i held past}, Ordered rank undefined fair p held past →
      (p.Returns answers i held ↔
        fair (past ++ p.trace answers i) ∧ ¬ undefined (past ++ p.trace answers i)) := by
  induction p with
  | done a =>
    intro i held past h
    rw [trace, List.append_nil]
    exact ⟨fun hfree => ⟨h.1.mp hfree, h.2⟩, fun hfair => h.1.mpr hfair.1⟩
  | lock l mode next ih =>
    intro i held past h
    exact ih h.2
  | unlock l next ih =>
    intro i held past h
    exact (and_iff_right h.1).trans (ih h.2)
  | act e next ih =>
    intro i held past h
    have hnext := ih (answers i e) (i := i + 1) (h (answers i e))
    rwa [List.append_assoc, List.singleton_append] at hnext
  | undefined =>
    intro i held past h
    rw [trace, List.append_nil]
    exact iff_of_false id fun hdef => hdef.2 h

/-- And so can whether it comes to undefined behaviour. -/
theorem Ordered.result_eq_none {ρ : Type} [LT ρ] {rank : L → ρ} {undefined fair : Past E R → Prop}
    {p : Program L E R α} : ∀ {i held past}, Ordered rank undefined fair p held past →
      (p.result answers i = none ↔ undefined (past ++ p.trace answers i)) := by
  induction p with
  | done a =>
    intro i held past h
    rw [trace, List.append_nil]
    exact iff_of_false (Option.some_ne_none a) h.2
  | lock l mode next ih =>
    intro i held past h
    exact ih h.2
  | unlock l next ih =>
    intro i held past h
    exact ih h.2
  | act e next ih =>
    intro i held past h
    have hnext := ih (answers i e) (i := i + 1) (h (answers i e))
    rwa [List.append_assoc, List.singleton_append] at hnext
  | undefined =>
    intro i held past h
    rw [trace, List.append_nil]
    exact iff_of_true rfl h

end Runs

end Program

end Conc
