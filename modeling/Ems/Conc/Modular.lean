import Ems.Conc.Crew

/-!
# One thread among others

What is so of every thread of a crew, from a look at the code of one. A specification
watches a value `m` for each thread, and `sees m store` connects it with the store that the
threads share. Three things make the connection good for all of them (`Modular`): it is
there at every step of the thread itself, whatever the others do leaves it as it is, and
nobody breaks what all of them rely on (`good`).

`run_within` is the rule: code that is right about itself (`wp`) is right among others.
-/

namespace Conc

variable {T L E α C σ H μ : Type} {R : E → Type}

/-- A specification that holds among others. -/
structure Modular (sys : System L E R α C σ H) (S : Program.Spec L E R μ) (good : σ → Prop)
    (sees : μ → σ → Prop) : Prop where
  lock : ∀ {l mode Q m s}, sees m s → S.lock l mode Q m → ∃ m', sees m' s ∧ Q m'
  unlock : ∀ {l Q m s}, sees m s → S.unlock l Q m → ∃ m', sees m' s ∧ Q m'
  act : ∀ {x e Q m s r s'}, good s → sees m s → S.act e Q m → sys.answer x e s = some (r, s') →
    ∃ m', sees m' s' ∧ Q r m'
  /-- what the others see stays right -/
  stable : ∀ {x e Q m s r s' k}, good s → sees m s → S.act e Q m →
    sys.answer x e s = some (r, s') → sees k s → sees k s'
  kept : ∀ {x e Q m s r s'}, good s → sees m s → S.act e Q m → sys.answer x e s = some (r, s') →
    good s'

namespace Crew

/-- The store is good, and every thread is in the middle of code that is right about it. -/
structure Within (S : Program.Spec L E R μ) (good : σ → Prop) (sees : μ → σ → Prop)
    (post : C → α → μ → Prop) (s : Crew T L E R α C σ) : Prop where
  store : good s.store
  rest : ∀ t r, s.thread t = some r → ∃ m, sees m s.store ∧ r.rest.wp S (post r.call) m

variable [DecidableEq T] [DecidableEq L] {sys : System L E R α C σ H} {S : Program.Spec L E R μ}
  {good : σ → Prop} {sees : μ → σ → Prop} {post : C → α → μ → Prop}

section Steps

variable {s s' : Crew T L E R α C σ}

omit [DecidableEq L] in
/-- Thread `t` moves to code that is right about a store in which the others see what they
saw. -/
theorem Within.move (hi : Within S good sees post s) {t : T} {next : Option (Running L E R α C)}
    (hgood : good s'.store) (hthread : s'.thread = (s.goto t next).thread)
    (hstable : ∀ m, sees m s.store → sees m s'.store)
    (hnext : ∀ r, next = some r → ∃ m, sees m s'.store ∧ r.rest.wp S (post r.call) m) :
    Within S good sees post s' where
  store := hgood
  rest := by
    intro u r hu
    rw [hthread] at hu
    by_cases hut : u = t
    · rw [hut, goto_self] at hu
      exact hnext r hu
    · rw [goto_other hut] at hu
      obtain ⟨m, hm, hwp⟩ := hi.rest u r hu
      exact ⟨m, hstable m hm, hwp⟩

/-- One step. A call begins with code that is right about every good store. -/
theorem step_within (hmod : Modular sys S good sees) {a : Act T C H} (hs : Step sys s a s')
    (hcode : ∀ t c, a = .call t c → ∀ store, good store →
      ∃ m, sees m store ∧ (sys.code c).wp S (post c) m)
    (hi : Within S good sees post s) : Within S good sees post s' := by
  cases hs
  case call t c h =>
    exact hi.move hi.store rfl (fun _ => id) fun r hr => by
      cases hr
      exact hcode t c rfl _ hi.store
  case ret t n c a h => exact hi.move hi.store rfl (fun _ => id) fun r hr => by cases hr
  case lock t x n c l mode next k h hk =>
    obtain ⟨m, hm, hwp⟩ := hi.rest t _ h
    exact hi.move hi.store rfl (fun _ => id) fun r hr => by
      cases hr
      exact hmod.lock hm hwp
  case unlock t x n c l next h =>
    obtain ⟨m, hm, hwp⟩ := hi.rest t _ h
    exact hi.move hi.store rfl (fun _ => id) fun r hr => by
      cases hr
      exact hmod.unlock hm hwp
  case act t x n c e next v store h hv =>
    obtain ⟨m, hm, hwp⟩ := hi.rest t _ h
    exact hi.move (hmod.kept hi.store hm hwp hv) rfl (fun _ => hmod.stable hi.store hm hwp hv)
      fun r hr => by
        cases hr
        exact hmod.act hi.store hm hwp hv

end Steps

/-- **Every run** in which all that is called is right about itself. -/
theorem run_within (hmod : Modular sys S good sees) {store : σ} (hstart : good store)
    {calls : C → Prop} (hcode : ∀ c, calls c → ∀ store, good store →
      ∃ m, sees m store ∧ (sys.code c).wp S (post c) m)
    {tr : List (Act T C H)} {s : Crew T L E R α C σ} (hrun : (machine sys store).run tr = some s)
    (hcalls : ∀ t c, Act.call t c ∈ tr → calls c) : Within S good sees post s := by
  refine (machine sys store).run_invariant
    (I := fun tr s => (∀ t c, Act.call t c ∈ tr → calls c) → Within S good sees post s)
    (fun _ => ⟨hstart, fun t r hr => by cases hr⟩) (fun tr s a s' _ hi h hall => ?_) tr s hrun hcalls
  refine step_within hmod (step_cases h) (fun t c ha => hcode c (hall t c ?_))
    (hi fun t c ht => hall t c (List.mem_append_left _ ht))
  rw [ha]
  exact List.mem_append_right _ (List.mem_singleton_self _)

end Crew

end Conc
