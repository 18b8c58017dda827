import Mathlib.Data.List.Induction

/-!
# Machines driven by a schedule

A concurrent program is modelled here as a *deterministic* partial step
function: everything the scheduler, the allocator or the kernel may choose is
part of the action, so a run is fixed by its list of actions. `step s a = none`
means that `a` cannot happen in `s` (the thread is blocked, or is somewhere
else). "For every interleaving" is then "for every list of actions that runs".

The file gives the rules the later proofs use and nothing more: a run splits at
every prefix (`runFrom_append`), an invariant is proved from one step
(`run_invariant`, and `run_invariant_of_meets` for runs whose steps all satisfy
a side condition), and `log` collects what the steps of a run make visible
without adding history variables to the state.
-/

namespace Conc

/-- A step function together with the state it starts from. -/
structure Machine (S A : Type) where
  init : S
  step : S → A → Option S

namespace Machine

variable {S A O : Type} (M : Machine S A)

/-- The state after a list of actions, `none` when one of them cannot happen. -/
def runFrom : S → List A → Option S
  | s, [] => some s
  | s, a :: as => (M.step s a).bind fun s' => runFrom s' as

/-- The state after a run from the initial state. -/
def run (tr : List A) : Option S := M.runFrom M.init tr

/-- What the steps of a run make visible, in order: `out s a` is what the
action `a` shows when it happens in `s`. -/
def logFrom (out : S → A → List O) : S → List A → List O
  | _, [] => []
  | s, a :: as =>
    match M.step s a with
    | none => []
    | some s' => out s a ++ logFrom out s' as

def log (out : S → A → List O) (tr : List A) : List O := M.logFrom out M.init tr

/-- From `s` to `s'` by doing `a` again and again. -/
def Repeats (a : A) (s s' : S) : Prop := ∃ n, M.runFrom s (List.replicate n a) = some s'

/-- Every step of the run `tr` is taken in a state that satisfies `C`. -/
def Meets (C : S → A → Prop) (tr : List A) : Prop :=
  ∀ before a after s, tr = before ++ a :: after → M.run before = some s → C s a

/-- No action. -/
@[simp] theorem runFrom_nil (s : S) : M.runFrom s [] = some s := rfl

/-- An action and the ones behind it. -/
theorem runFrom_cons (s : S) (a : A) (as : List A) :
    M.runFrom s (a :: as) = (M.step s a).bind fun s' => M.runFrom s' as := rfl

/-- Two runs, one behind the other. -/
theorem runFrom_append (s : S) (as bs : List A) :
    M.runFrom s (as ++ bs) = (M.runFrom s as).bind fun s' => M.runFrom s' bs := by
  induction as generalizing s with
  | nil => rfl
  | cons a as ih =>
    rw [List.cons_append, runFrom_cons, runFrom_cons, Option.bind_assoc]
    congr 1
    funext s'
    exact ih s'

/-- The last step of a run, split off. -/
theorem run_snoc {tr : List A} {a : A} {s' : S} :
    M.run (tr ++ [a]) = some s' ↔ ∃ s, M.run tr = some s ∧ M.step s a = some s' := by
  unfold run
  rw [runFrom_append]
  cases h : M.runFrom M.init tr with
  | none => simp
  | some s =>
    cases h2 : M.step s a with
    | none => simp [runFrom_cons, h2]
    | some s2 => simp [runFrom_cons, h2]

/-- A run goes on from the state it has reached. -/
theorem run_append {tr tr' : List A} {s : S} (h : M.run tr = some s) :
    M.run (tr ++ tr') = M.runFrom s tr' := by
  unfold run at h ⊢
  rw [runFrom_append, h]
  rfl

/-- The log of two runs, one behind the other. -/
theorem logFrom_append (out : S → A → List O) {s s' : S} {as : List A} (bs : List A)
    (h : M.runFrom s as = some s') :
    M.logFrom out s (as ++ bs) = M.logFrom out s as ++ M.logFrom out s' bs := by
  induction as generalizing s with
  | nil =>
    simp only [runFrom_nil, Option.some.injEq] at h
    subst h
    rfl
  | cons a as ih =>
    rw [runFrom_cons] at h
    cases h2 : M.step s a with
    | none => simp [h2] at h
    | some s2 =>
      rw [h2] at h
      simp only [List.cons_append, logFrom, h2, List.append_assoc]
      rw [ih h]

/-- The log of a run that goes on. -/
theorem log_append (out : S → A → List O) {tr : List A} {s : S} (tr' : List A)
    (h : M.run tr = some s) : M.log out (tr ++ tr') = M.log out tr ++ M.logFrom out s tr' :=
  M.logFrom_append out tr' h

/-- A step adds to the log what it makes visible. -/
theorem log_snoc (out : S → A → List O) {tr : List A} {a : A} {s s' : S}
    (h : M.run tr = some s) (hstep : M.step s a = some s') :
    M.log out (tr ++ [a]) = M.log out tr ++ out s a := by
  rw [M.log_append out [a] h]
  simp [logFrom, hstep]

/-- Logs that agree on every step. -/
theorem log_congr {out out' : S → A → List O} (tr : List A)
    (h : ∀ s a s', M.step s a = some s' → out s a = out' s a) :
    M.log out tr = M.log out' tr := by
  suffices hfrom : ∀ s, M.logFrom out s tr = M.logFrom out' s tr from hfrom _
  induction tr with
  | nil => exact fun _ => rfl
  | cons a as ih =>
    intro s
    rw [logFrom, logFrom]
    split
    next => rfl
    next s' hs => rw [h s a s' hs, ih]

/-- A log that is read through a function. -/
theorem log_map {O' : Type} (f : O → O') (out : S → A → List O) (tr : List A) :
    M.log (fun s a => (out s a).map f) tr = (M.log out tr).map f := by
  suffices hfrom : ∀ s, M.logFrom (fun s a => (out s a).map f) s tr =
      (M.logFrom out s tr).map f from hfrom _
  induction tr with
  | nil => exact fun _ => rfl
  | cons a as ih =>
    intro s
    rw [logFrom, logFrom]
    split
    next => rfl
    next s' _ => rw [ih, List.map_append]

/-- Not once. -/
theorem Repeats.refl {M : Machine S A} (a : A) (s : S) : M.Repeats a s s := ⟨0, rfl⟩

/-- Once more in front. -/
theorem Repeats.head {M : Machine S A} {a : A} {s s₁ s' : S} (h : M.step s a = some s₁)
    (h' : M.Repeats a s₁ s') : M.Repeats a s s' := by
  obtain ⟨n, hn⟩ := h'
  refine ⟨n + 1, ?_⟩
  rw [List.replicate_succ, runFrom_cons, h]
  exact hn

/-- Two rows of one action. -/
theorem Repeats.trans {M : Machine S A} {a : A} {s s₁ s' : S} (h : M.Repeats a s s₁)
    (h' : M.Repeats a s₁ s') : M.Repeats a s s' := by
  obtain ⟨m, hm⟩ := h
  obtain ⟨n, hn⟩ := h'
  refine ⟨m + n, ?_⟩
  rw [← List.replicate_append_replicate, runFrom_append, hm]
  exact hn

/-- Steps that show nothing. -/
theorem logFrom_eq_nil {out : S → A → List O} {tr : List A} (h : ∀ a ∈ tr, ∀ s, out s a = []) :
    ∀ s, M.logFrom out s tr = [] := by
  induction tr with
  | nil => intro s; rfl
  | cons a as ih =>
    intro s
    rw [logFrom]
    split
    next => rfl
    next s' _ =>
      rw [h a (List.mem_cons_self ..), ih fun b hb => h b (List.mem_cons_of_mem _ hb)]
      rfl

/-- What is silent once is silent again and again. -/
theorem logFrom_replicate {out : S → A → List O} {a : A} (h : ∀ s, out s a = []) (n : Nat) :
    ∀ s, M.logFrom out s (List.replicate n a) = [] :=
  M.logFrom_eq_nil fun b hb s => by rw [List.eq_of_mem_replicate hb]; exact h s

/-- The rule for invariants of every run: they hold at the start and each step
keeps them. The invariant may speak about the run so far. -/
theorem run_invariant {I : List A → S → Prop} (h0 : I [] M.init)
    (hstep : ∀ tr s a s', M.run tr = some s → I tr s → M.step s a = some s' →
      I (tr ++ [a]) s') :
    ∀ tr s, M.run tr = some s → I tr s := by
  intro tr
  induction tr using List.reverseRecOn with
  | nil =>
    intro s h
    simp only [run, runFrom_nil, Option.some.injEq] at h
    subst h
    exact h0
  | append_singleton tr a ih =>
    intro s' h
    obtain ⟨s, hs, ha⟩ := M.run_snoc.mp h
    exact hstep tr s a s' hs (ih s hs) ha

/-- A condition met by a run is met by its beginning. -/
theorem Meets.of_append {M : Machine S A} {C : S → A → Prop} {tr tr' : List A}
    (h : M.Meets C (tr ++ tr')) : M.Meets C tr := by
  intro before a after s htr hs
  exact h before a (after ++ tr') s (by rw [htr]; simp) hs

/-- It is met by the last step. -/
theorem Meets.last {M : Machine S A} {C : S → A → Prop} {tr : List A} {a : A} {s : S}
    (h : M.Meets C (tr ++ [a])) (hs : M.run tr = some s) : C s a :=
  h tr a [] s rfl hs

/-- It is met by one step more. -/
theorem Meets.snoc {M : Machine S A} {C : S → A → Prop} {tr : List A} {a : A} {s : S}
    (h : M.Meets C tr) (hs : M.run tr = some s) (ha : C s a) : M.Meets C (tr ++ [a]) := by
  intro before b after s' htr hs'
  rcases List.eq_nil_or_concat after with rfl | ⟨after', x, rfl⟩
  · obtain ⟨rfl, hb⟩ := List.append_inj' htr rfl
    cases hb
    rw [hs] at hs'
    cases hs'
    exact ha
  · refine h before b after' s' ?_ hs'
    rw [List.concat_eq_append, ← List.cons_append, ← List.append_assoc] at htr
    exact List.append_inj_left' htr rfl

/-- Steps that meet the condition anywhere may follow. -/
theorem Meets.append {M : Machine S A} {C : S → A → Prop} {tr tr' : List A} (h : M.Meets C tr)
    (hall : ∀ a ∈ tr', ∀ s, C s a) : M.Meets C (tr ++ tr') := by
  intro before a after s htr hs
  rcases List.append_eq_append_iff.mp htr with ⟨between, rfl, htail⟩ | ⟨between, hhead, htail⟩
  · exact hall a (by rw [htail]; simp) s
  · cases between with
    | nil => exact hall a (by rw [← List.nil_append tr', ← htail]; simp) s
    | cons b between =>
      obtain ⟨rfl, -⟩ := List.cons.inj htail
      exact h before a between s hhead hs

/-- A condition on the actions alone. -/
theorem meets_of_forall {P : A → Prop} {tr : List A} (h : ∀ a ∈ tr, P a) :
    M.Meets (fun _ a => P a) tr := by
  intro before a after s htr _
  exact h a (by rw [htr]; simp)

/-- A side condition checked position by position. -/
theorem meets_of_take {C : S → A → Prop} {tr : List A}
    (h : ∀ k (hk : k < tr.length) s, M.run (tr.take k) = some s → C s tr[k]) : M.Meets C tr := by
  rintro before a after s rfl hs
  have hhere := h before.length (by simp) s (by rw [List.take_left]; exact hs)
  simpa using hhere

/-- The same rule for the runs whose steps all meet a side condition. -/
theorem run_invariant_of_meets {C : S → A → Prop} {I : List A → S → Prop} (h0 : I [] M.init)
    (hstep : ∀ tr s a s', M.run tr = some s → C s a → I tr s → M.step s a = some s' →
      I (tr ++ [a]) s') :
    ∀ tr s, M.Meets C tr → M.run tr = some s → I tr s := by
  intro tr s hm h
  have key := M.run_invariant (I := fun tr s => M.Meets C tr → I tr s) (fun _ => h0)
    (fun tr s a s' hs ih ha hm =>
      hstep tr s a s' hs (hm.last hs) (ih hm.of_append) ha)
  exact key tr s h hm

/-- A thread that takes no part in a run stays where it started. -/
theorem run_absent {T P : Type} (who : A → T) (place : S → T → P)
    (hstep : ∀ s a s' u, M.step s a = some s' → who a ≠ u → place s' u = place s u)
    {u : T} {tr : List A} {s : S} (hall : ∀ a ∈ tr, who a ≠ u) (hrun : M.run tr = some s) :
    place s u = place M.init u := by
  refine M.run_invariant_of_meets (C := fun _ a => who a ≠ u)
    (I := fun _ s => place s u = place M.init u) rfl (fun _ s a s' _ ha hi h => ?_) tr s
    (M.meets_of_forall hall) hrun
  exact (hstep s a s' u h ha).trans hi

/-- A reflexive, transitive relation between the states of a run, from one
step; `I` is an invariant the step may use. -/
theorem runFrom_rel {I : S → Prop} {P : A → Prop} {R : S → S → Prop} (hrefl : ∀ s, R s s)
    (htrans : ∀ {a b c}, R a b → R b c → R a c)
    (hI : ∀ s a s', P a → I s → M.step s a = some s' → I s')
    (hR : ∀ s a s', P a → I s → M.step s a = some s' → R s s') :
    ∀ tr s s', (∀ a ∈ tr, P a) → I s → M.runFrom s tr = some s' → R s s' := by
  intro tr
  induction tr with
  | nil =>
    intro s s' _ _ h
    simp only [runFrom_nil, Option.some.injEq] at h
    subst h
    exact hrefl s
  | cons a as ih =>
    intro s s' hP hs h
    rw [runFrom_cons] at h
    obtain ⟨s1, h1, h2⟩ := Option.bind_eq_some_iff.mp h
    have ha : P a := hP a (List.mem_cons_self ..)
    exact htrans (hR s a s1 ha hs h1)
      (ih s1 s' (fun b hb => hP b (List.mem_cons_of_mem _ hb)) (hI s a s1 ha hs h1) h2)

end Machine

end Conc
