import Mathlib.Data.DFinsupp.WellFounded
import Ems.Conc.Crew

/-!
# Schedules that come to an end

A machine that gets closer to something with every step cannot be driven for ever,
whoever is chosen to move: no fairness is asked for. `ends` takes a measure of a run that
falls with every step, `ends_of` one that need not be a function of the run, and `reaches`
one that can always be made to fall. Of several parties one moves at a time, and
`descends_wellFounded` says that it is enough for each of them to get closer to its own
end. A program does so with every step (`behind_wellFounded`), however many answers an
action can have.
-/

namespace Conc

/-- One of the parties goes down, and the others stay where they are. -/
def Descends {ι P : Type} (r : P → P → Prop) (g f : ι → P) : Prop :=
  ∃ t, r (g t) (f t) ∧ ∀ u, u ≠ t → g u = f u

/-- Finitely many parties go down for finitely many steps only. -/
theorem descends_wellFounded {n : Nat} {P : Type} {r : P → P → Prop} (hr : WellFounded r) :
    WellFounded (Descends r : (Fin n → P) → (Fin n → P) → Prop) := by
  refine Subrelation.wf (fun {g f} h => ?_)
    (Pi.Lex.wellFounded (fun a b : Fin n => a < b) (fun _ : Fin n => hr))
  obtain ⟨t, hdown, hsame⟩ := h
  exact ⟨t, fun u hu => hsame u (Fin.ne_of_lt hu), hdown⟩

theorem descends_finite {ι P : Type} [Finite ι] {r : P → P → Prop} (hr : WellFounded r) :
    WellFounded (Descends r : (ι → P) → (ι → P) → Prop) := by
  obtain ⟨n, ⟨e⟩⟩ := Finite.exists_equiv_fin ι
  refine Subrelation.wf (fun {g f} h => ?_)
    (InvImage.wf (fun f : ι → P => f ∘ e.symm) (descends_wellFounded hr))
  obtain ⟨t, hdown, hsame⟩ := h
  refine ⟨e t, ?_, fun u hu => hsame _ fun heq => hu ?_⟩
  · show r (g (e.symm (e t))) (f (e.symm (e t)))
    rw [e.symm_apply_apply]
    exact hdown
  · rw [← heq, e.apply_symm_apply]

namespace Machine

variable {S A W : Type} (M : Machine S A)

/-- The first `k` actions of a schedule. -/
def first (acts : Nat → A) (k : Nat) : List A := (List.range k).map acts

/-- No schedule of such actions can be followed for ever. -/
def Ends (P : A → Prop) (s : S) : Prop :=
  ∀ acts : Nat → A, (∀ k, P (acts k)) → ∃ k, M.runFrom s (first acts k) = none

theorem first_succ (acts : Nat → A) (k : Nat) :
    first acts (k + 1) = acts 0 :: first (fun i => acts (i + 1)) k := by
  unfold first
  rw [List.range_succ_eq_map, List.map_cons, List.map_map]
  rfl

variable {M}

/-- What is left falls with every step of a run. -/
theorem ends_of {r : W → W → Prop} (hr : WellFounded r) {P : A → Prop}
    {I : W → List A → S → Prop}
    (hstep : ∀ w tr s a s', P a → I w tr s → M.step s a = some s' →
      ∃ w', r w' w ∧ I w' (tr ++ [a]) s') : ∀ {w tr s}, I w tr s → M.Ends P s := by
  intro w
  induction w using hr.induction with
  | h w ih =>
    intro tr s hi acts hacts
    cases hnext : M.step s (acts 0) with
    | none => exact ⟨1, by simp [first, runFrom, hnext]⟩
    | some s' =>
      obtain ⟨w', hdown, hi'⟩ := hstep w tr s (acts 0) s' (hacts 0) hi hnext
      obtain ⟨k, hk⟩ := ih w' hdown hi' (fun i => acts (i + 1)) fun i => hacts (i + 1)
      refine ⟨k + 1, ?_⟩
      rw [first_succ, runFrom_cons, hnext]
      exact hk

/-- A measure that falls with every step of a run. -/
theorem ends {r : W → W → Prop} (hr : WellFounded r) {P : A → Prop} {I : List A → S → Prop}
    (μ : List A → S → W)
    (hstep : ∀ tr s a s', P a → I tr s → M.step s a = some s' →
      I (tr ++ [a]) s' ∧ r (μ (tr ++ [a]) s') (μ tr s)) :
    ∀ {tr s}, I tr s → M.Ends P s := by
  intro tr s hi
  refine ends_of (I := fun w tr s => μ tr s = w ∧ I tr s) hr ?_ ⟨rfl, hi⟩
  rintro w tr s a s' ha ⟨rfl, hi⟩ h
  obtain ⟨hi', hdown⟩ := hstep tr s a s' ha hi h
  exact ⟨_, hdown, rfl, hi'⟩

/-- Where some step always makes it fall, the goal can be reached. -/
theorem reaches {r : W → W → Prop} (hr : WellFounded r) {I : List A → Prop} {G : S → Prop}
    (μ : List A → S → W)
    (hstep : ∀ tr s, M.run tr = some s → I tr → ¬ G s → ∃ a s', M.step s a = some s' ∧
      I (tr ++ [a]) ∧ r (μ (tr ++ [a]) s') (μ tr s)) :
    ∀ {tr s}, M.run tr = some s → I tr → ∃ tr' s', M.run tr' = some s' ∧ I tr' ∧ G s' := by
  suffices h : ∀ w tr s, μ tr s = w → M.run tr = some s → I tr →
      ∃ tr' s', M.run tr' = some s' ∧ I tr' ∧ G s' from fun {tr s} => h _ tr s rfl
  intro w
  induction w using hr.induction with
  | h w ih =>
    intro tr s hw hrun hi
    subst hw
    by_cases hg : G s
    · exact ⟨tr, s, hrun, hi, hg⟩
    · obtain ⟨a, s', h, hi', hdown⟩ := hstep tr s hrun hi hg
      exact ih _ hdown _ s' rfl (M.run_snoc.mpr ⟨s, hrun, h⟩) hi'

end Machine

/-! ## Programs -/

section Programs

variable {L E α : Type} {R : E → Type}

/-- What is left of a program behind one step. -/
inductive Program.Behind : Program L E R α → Program L E R α → Prop where
  | lock {l mode next} : Behind next (.lock l mode next)
  | unlock {l next} : Behind next (.unlock l next)
  | act {e next} (r : R e) : Behind (next r) (.act e next)

/-- A program is a tree of finite depth. -/
theorem Program.behind_wellFounded :
    WellFounded (Program.Behind : Program L E R α → Program L E R α → Prop) := by
  refine ⟨fun p => ?_⟩
  induction p with
  | done a => exact ⟨_, fun q h => by cases h⟩
  | lock l mode next ih => exact ⟨_, fun q h => by cases h; exact ih⟩
  | unlock l next ih => exact ⟨_, fun q h => by cases h; exact ih⟩
  | act e next ih => exact ⟨_, fun q h => by cases h with | act r => exact ih r⟩
  | undefined => exact ⟨_, fun q h => by cases h⟩

/-- A step in the middle of a call. -/
theorem Crew.Step.behind {T C σ H : Type} [DecidableEq T] [DecidableEq L]
    {sys : System L E R α C σ H} {s s' : Crew T L E R α C σ} {t : T} {x : H}
    (h : Crew.Step sys s (.step t x) s') :
    ∃ r r', s.thread t = some r ∧ s'.thread t = some r' ∧ r'.rest.Behind r.rest := by
  cases h
  case lock ht _ => exact ⟨_, _, ht, goto_self _, .lock⟩
  case unlock ht => exact ⟨_, _, ht, goto_self _, .unlock⟩
  case act ht _ => exact ⟨_, _, ht, goto_self _, .act _⟩

/-- A lock that is not granted is held. -/
theorem RwLock.exists_held {T : Type} [DecidableEq T] {k : RwLock T} {t : T} {mode : Mode}
    (h : k.take t mode = none) : ∃ u, k.held u ≠ none := by
  cases hw : k.writer with
  | some u => exact ⟨u, by simp [held, hw]⟩
  | none =>
    cases mode with
    | read => simp [take, rdlock, hw] at h
    | write =>
      have hne : k.readers ≠ ∅ := by simpa [take, wrlock, hw] using h
      obtain ⟨u, hu⟩ := Finset.nonempty_iff_ne_empty.mpr hne
      exact ⟨u, by simp [held, hw, hu]⟩

/-- In the middle of a call a thread can move, unless it waits for a lock that is held. -/
theorem Crew.moves_or_waits {T C σ H : Type} [DecidableEq T] [DecidableEq L]
    {sys : System L E R α C σ H} {s : Crew T L E R α C σ} {t : T}
    {r : Running L E R α C} {x : H} (h : s.thread t = some r) (hdef : r.rest ≠ .undefined)
    (hanswer : ∀ e next, r.rest = .act e next → (sys.answer x e s.store).isSome = true) :
    (∃ v, r.rest = .done v) ∨ (Crew.step sys s (.step t x)).isSome = true ∨
      ∃ l, s.Waits t l ∧ ∃ u, s.held u l ≠ none := by
  obtain ⟨n, c, p⟩ := r
  have hstep : Crew.step sys s (.step t x) = advance sys s t x ⟨n, c, p⟩ := by
    simp [Crew.step, h]
  rw [hstep]
  cases p with
  | done v => exact .inl ⟨v, rfl⟩
  | lock l mode next =>
    cases hk : (s.lock l).take t mode with
    | none => exact .inr (.inr ⟨l, ⟨n, c, mode, next, h⟩, RwLock.exists_held hk⟩)
    | some k => exact .inr (.inl (by simp [advance, hk]))
  | unlock l next => exact .inr (.inl rfl)
  | act e next =>
    obtain ⟨a, ha⟩ := Option.isSome_iff_exists.mp (hanswer e next rfl)
    exact .inr (.inl (by simp [advance, ha]))
  | undefined => exact absurd rfl hdef

end Programs

end Conc
