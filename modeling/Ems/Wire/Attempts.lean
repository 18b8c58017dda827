import Ems.Wire.Talk

/-!
# Attempts

A program that tries one thing after the other and gives up when one fails: what it
asks is answered by a `Bool`, and on `false` it is done. `attempts` is such a stretch of a
program, `inTurn ok` an environment that lets the `i`-th attempt succeed when `ok i`.
A stretch goes by when all of it succeeds (`hearAll_attempts`), and otherwise nothing
behind it is done or read (`hearAll_attempts_fail`).
-/

namespace Wire.Talk

variable {E α : Type}

/-- An attempt; `fail` is the result when it fails. -/
def attempt (fail : α) (e : E) (next : Talk E Bool α) : Talk E Bool α :=
  .ask e fun ok => if ok then next else .done fail

/-- One after the other. -/
def attempts (fail : α) (es : List E) (next : Talk E Bool α) : Talk E Bool α :=
  es.foldr (attempt fail) next

/-- The `i`-th attempt succeeds when `ok i`; the state is the number of those made. -/
def inTurn (ok : Nat → Bool) (i : Nat) (_ : E) : Bool × Nat := (ok i, i + 1)

/-- The program makes at most `m` attempts, and just `m` if it has `enough` of what bounds
its loops. Behind them it is one of the programs `last`. -/
def Makes (fail : α) (m : Nat) (enough : Prop) (last : Talk E Bool α → Prop)
    (p : Talk E Bool α) : Prop :=
  ∃ es next, p = attempts fail es next ∧ es.length ≤ m ∧ (enough → es.length = m) ∧ last next

variable {fail : α} {m : Nat} {enough : Prop} {last : Talk E Bool α → Prop}
  {next p : Talk E Bool α} {ok : Nat → Bool}

/-- Nothing more is attempted. -/
theorem Makes.stop (hlast : last p) (hm : enough → m = 0) : Makes fail m enough last p :=
  ⟨[], p, rfl, Nat.zero_le m, fun h => (hm h).symm, hlast⟩

theorem Makes.attempt (e : E) (h : Makes fail m enough last next) :
    Makes fail (m + 1) enough last (attempt fail e next) := by
  obtain ⟨es, q, rfl, hle, heq, hlast⟩ := h
  exact ⟨e :: es, q, rfl, Nat.succ_le_succ hle, fun h => congrArg (· + 1) (heq h), hlast⟩

theorem Makes.weaken {enough' : Prop} {last' : Talk E Bool α → Prop}
    (h : Makes fail m enough last p) (henough : enough' → enough) (hlast : ∀ q, last q → last' q) :
    Makes fail m enough' last' p := by
  obtain ⟨es, q, hp, hle, heq, hq⟩ := h
  exact ⟨es, q, hp, hle, fun h' => heq (henough h'), hlast q hq⟩

/-! ## Runs -/

theorem hearAll_attempt (e : E) (w : List UInt8) (i : Nat) :
    hearAll (inTurn ok) (attempt fail e next) w i =
      if ok i then hearAll (inTurn ok) next w (i + 1) else (fail, w, i + 1) := by
  show hearAll (inTurn ok) (if ok i then next else .done fail) w (i + 1) = _
  split
  next => rfl
  next => rfl

/-- A stretch that succeeds. -/
theorem hearAll_attempts {es : List E} {i : Nat} (w : List UInt8)
    (h : ∀ k, i ≤ k → k < i + es.length → ok k = true) :
    hearAll (inTurn ok) (attempts fail es next) w i =
      hearAll (inTurn ok) next w (i + es.length) := by
  induction es generalizing i with
  | nil => rfl
  | cons e es ih =>
    have hlen : i + (e :: es).length = i + 1 + es.length := by rw [List.length_cons]; omega
    show hearAll (inTurn ok) (attempt fail e (attempts fail es next)) w i = _
    rw [hearAll_attempt, if_pos (h i (Nat.le_refl i) (by omega)), hlen]
    exact ih fun k hk hlt => h k (by omega) (by omega)

/-- A stretch that fails somewhere. -/
theorem hearAll_attempts_fail {es : List E} {i k : Nat} (w : List UInt8) (hk : i ≤ k)
    (hlt : k < i + es.length) (h : ok k = false) :
    ∃ m, hearAll (inTurn ok) (attempts fail es next) w i = (fail, w, m) := by
  induction es generalizing i with
  | nil => exact absurd (Nat.lt_of_le_of_lt hk hlt) (Nat.lt_irrefl i)
  | cons e es ih =>
    show ∃ m, hearAll (inTurn ok) (attempt fail e (attempts fail es next)) w i = (fail, w, m)
    rw [hearAll_attempt]
    split
    next hi =>
      have hne : k ≠ i := fun heq => absurd (heq ▸ h) (by rw [hi]; exact Bool.noConfusion)
      rw [List.length_cons] at hlt
      exact ih (by omega) (by omega)
    next => exact ⟨i + 1, rfl⟩

/-- Nothing fails: the program comes to its end. -/
theorem Makes.hearAll_of_ok (h : Makes fail m enough last p) {i : Nat} (w : List UInt8)
    (hok : ∀ k, i ≤ k → k < i + m → ok k = true) :
    ∃ q k, last q ∧ hearAll (inTurn ok) p w i = hearAll (inTurn ok) q w k := by
  obtain ⟨es, q, rfl, hle, -, hlast⟩ := h
  exact ⟨q, i + es.length, hlast, hearAll_attempts w fun k hk hlt => hok k hk (by omega)⟩

/-- One of all the attempts fails. -/
theorem Makes.hearAll_of_fail (h : Makes fail m enough last p) (henough : enough) {i k : Nat}
    (w : List UInt8) (hk : i ≤ k) (hlt : k < i + m) (hfail : ok k = false) :
    ∃ j, hearAll (inTurn ok) p w i = (fail, w, j) := by
  obtain ⟨es, q, rfl, -, heq, -⟩ := h
  exact hearAll_attempts_fail w hk (by rw [heq henough]; exact hlt) hfail

end Wire.Talk
