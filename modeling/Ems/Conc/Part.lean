import Ems.Conc.Machine

/-!
# Machines that are a part of another one

A system is put together of machines that are known already, and a step of it moves some
of them. `Part` says that `N` is one of them: `view` is its state in the system, and `acts`
its step, if it makes one, when the system makes a step. Every run of the system is then a
run of the part (`Part.run`), what the part logs can be read off the system (`Part.log`), and a
condition on the steps of the system becomes one on those of the part (`Part.meets`). So
all that is known of the runs of `N` holds in the system.
-/

namespace Conc.Machine

variable {S A S' A' O : Type}

/-- `N` is a part of `M`. -/
structure Part (M : Machine S A) (N : Machine S' A') (view : S → S') (acts : S → A → Option A') :
    Prop where
  init : view M.init = N.init
  step : ∀ {s a s'}, M.step s a = some s' →
    N.runFrom (view s) (acts s a).toList = some (view s')

/-- The steps of the part. -/
def ofPart (M : Machine S A) (acts : S → A → Option A') (tr : List A) : List A' :=
  M.log (fun s a => (acts s a).toList) tr

theorem runFrom_one {M : Machine S A} {s s' : S} {a : A} (h : M.step s a = some s') :
    M.runFrom s [a] = some s' := by
  rw [runFrom_cons, h]
  rfl

namespace Part

variable {M : Machine S A} {N : Machine S' A'} {view : S → S'} {acts : S → A → Option A'}
  {tr : List A} {s s' : S} {a : A}

theorem run (h : Part M N view acts) (hrun : M.run tr = some s) :
    N.run (M.ofPart acts tr) = some (view s) := by
  refine M.run_invariant (I := fun tr s => N.run (M.ofPart acts tr) = some (view s)) ?_
    (fun tr s a s' hs hi hstep => ?_) tr s hrun
  · exact congrArg some h.init.symm
  · unfold ofPart at hi ⊢
    rw [M.log_snoc _ hs hstep, N.run_append hi]
    exact h.step hstep

/-- A step that it does make. -/
theorem moves (h : Part M N view acts) {b : A'} (hstep : M.step s a = some s')
    (hsome : acts s a = some b) : N.step (view s) b = some (view s') := by
  have hpart := h.step hstep
  rw [hsome] at hpart
  obtain ⟨t, ht, heq⟩ := Option.bind_eq_some_iff.mp hpart
  cases heq
  exact ht

/-- What the part makes visible. -/
theorem log (h : Part M N view acts) (hrun : M.run tr = some s) (out : S' → A' → List O) :
    N.log out (M.ofPart acts tr) =
      M.log (fun s a => (acts s a).toList.flatMap (out (view s))) tr := by
  refine M.run_invariant (I := fun tr _ => N.log out (M.ofPart acts tr) =
    M.log (fun s a => (acts s a).toList.flatMap (out (view s))) tr) rfl
    (fun tr s a s' hs hi hstep => ?_) tr s hrun
  have hpart := h.run hs
  unfold ofPart at hi hpart ⊢
  rw [M.log_snoc _ hs hstep, M.log_snoc _ hs hstep, N.log_append out _ hpart, hi]
  refine congrArg (_ ++ ·) ?_
  cases hacts : acts s a with
  | none => rfl
  | some b =>
    have hb := h.moves hstep hacts
    simp [logFrom, hb]

/-- A condition that every step of the system meets, seen from the part. -/
theorem meets (h : Part M N view acts) {C : S → A → Prop} {C' : S' → A' → Prop}
    (hC : ∀ s a b, C s a → acts s a = some b → C' (view s) b) (hmeets : M.Meets C tr)
    (hrun : M.run tr = some s) : N.Meets C' (M.ofPart acts tr) := by
  refine M.run_invariant_of_meets (C := C) (I := fun tr _ => N.Meets C' (M.ofPart acts tr)) ?_
    (fun tr s a s' hs ha hi hstep => ?_) tr s hmeets hrun
  · intro before a after s htr
    exact absurd htr.symm (by simp [ofPart, Machine.log, logFrom])
  · have hpart := h.run hs
    unfold ofPart at hi hpart ⊢
    rw [M.log_snoc _ hs hstep]
    cases hacts : acts s a with
    | none =>
      rw [Option.toList_none, List.append_nil]
      exact hi
    | some b => exact hi.snoc hpart (hC s a b ha hacts)

end Part

end Conc.Machine
