import Mathlib.Data.List.Nodup

/-!
# Chains of pointers

A singly linked list as what it is in memory: a function that gives the `next`
field of every node. `Chain next p as` says that following `next` from the
pointer `p` visits exactly the addresses `as` and then ends. Nothing else is
known about the nodes, so a chain survives every change of memory that leaves
its own links alone (`Chain.congr`).

`search` and `visit` are the two loops over such a list that stop at a given node
and not at the end: on a chain whose last node that is, they see every node once.
-/

namespace Base

variable {α : Type}

/-- From `p` on, `next` visits the addresses `as` and stops. -/
def Chain (next : α → Option α) : Option α → List α → Prop
  | p, [] => p = none
  | p, a :: as => p = some a ∧ Chain next (next a) as

namespace Chain

variable {next next' : α → Option α} {p : Option α} {a : α} {as bs : List α}

theorem nil_iff : Chain next p [] ↔ p = none := Iff.rfl

/-- A pointer starts at most one chain. -/
theorem unique (h : Chain next p as) (h' : Chain next p bs) : as = bs := by
  induction as generalizing p bs with
  | nil =>
    cases bs with
    | nil => rfl
    | cons b bs => rw [nil_iff.mp h] at h'; cases h'.1
  | cons a as ih =>
    cases bs with
    | nil => rw [nil_iff.mp h'] at h; cases h.1
    | cons b bs =>
      have hab : a = b := Option.some.inj (h.1.symm.trans h'.1)
      subst hab
      rw [ih h.2 h'.2]

/-- A chain only depends on its own links. -/
theorem congr (h : Chain next p as) (hsame : ∀ a ∈ as, next' a = next a) : Chain next' p as := by
  induction as generalizing p with
  | nil => exact h
  | cons a as ih =>
    refine ⟨h.1, ?_⟩
    rw [hsame a (List.mem_cons_self ..)]
    exact ih h.2 fun b hb => hsame b (List.mem_cons_of_mem _ hb)

/-- Linking a new node behind the last one. -/
theorem append_new {last new : α} (h : Chain next p (as ++ [last])) (hend : next' new = none)
    (hlink : next' last = some new) (hsame : ∀ a ∈ as, next' a = next a) :
    Chain next' p (as ++ [last] ++ [new]) := by
  induction as generalizing p with
  | nil => exact ⟨h.1, hlink, hend⟩
  | cons a as ih =>
    rw [List.cons_append] at h
    refine ⟨h.1, ?_⟩
    rw [hsame a (List.mem_cons_self ..)]
    exact ih h.2 fun b hb => hsame b (List.mem_cons_of_mem _ hb)

/-- The node after the `i`-th is the `i + 1`-st, and none after the last. -/
theorem next_eq {i : Nat} (h : Chain next p as) (ha : as[i]? = some a) : next a = as[i + 1]? := by
  induction as generalizing p i with
  | nil => cases ha
  | cons b as ih =>
    cases i with
    | zero =>
      cases ha
      cases as with
      | nil => exact h.2
      | cons c cs => exact h.2.1
    | succ i => exact ih h.2 ha

/-- The list is empty when its first pointer is. -/
theorem eq_none_iff (h : Chain next p as) : p = none ↔ as = [] := by
  cases as with
  | nil => exact ⟨fun _ => rfl, fun _ => h⟩
  | cons a as => simp [h.1]

end Chain

/-! ## Loops up to a node -/

section Loops

/-- In a list without duplicates only the last element is the last one. -/
theorem ne_last {a b last : α} {as : List α} (hn : (a :: b :: as).Nodup)
    (hl : (a :: b :: as).getLast? = some last) :
    a ≠ last := by
  rintro rfl
  have hmem : a ∈ b :: as := List.mem_of_getLast? (by rwa [List.getLast?_cons_cons] at hl)
  exact (List.nodup_cons.mp hn).1 hmem

variable [DecidableEq α]

/-- The loop that tests the current node, ends at `last` and else follows `next`:
the node that passed, if any did. There is no result when the loop runs into a
null pointer, or goes on for more than `fuel` nodes. -/
def search (next : α → Option α) (test : α → Bool) (last : α) : Nat → α → Option (Option α)
  | 0, _ => none
  | fuel + 1, a =>
    if test a then some (some a)
    else if a = last then some none
    else (next a).bind (search next test last fuel)

/-- The nodes such a loop comes by when nothing else ends it. -/
def visit (next : α → Option α) (last : α) : Nat → α → Option (List α)
  | 0, _ => none
  | fuel + 1, a =>
    if a = last then some [a]
    else ((next a).bind (visit next last fuel)).map (a :: ·)

variable {next : α → Option α} {a last : α} {as : List α} {fuel : Nat}

/-- The search ends, with the first node that passes. -/
theorem Chain.search_eq {test : α → Bool} (h : Chain next (some a) as) (hn : as.Nodup)
    (hl : as.getLast? = some last) (hf : as.length ≤ fuel) :
    search next test last fuel a = some (as.find? test) := by
  induction as generalizing a fuel with
  | nil => cases h
  | cons b as ih =>
    obtain rfl := Option.some.inj h.1
    obtain ⟨fuel, rfl⟩ := Nat.exists_eq_add_of_lt (Nat.lt_of_lt_of_le (Nat.succ_pos _) hf)
    unfold search
    rw [List.find?_cons]
    split
    next ht => rw [ht]
    next ht =>
      simp only [Bool.not_eq_true] at ht
      rw [ht]
      cases as with
      | nil =>
        rw [if_pos (show a = last from Option.some.inj hl)]
        rfl
      | cons b as =>
        rw [if_neg (ne_last hn hl), h.2.1]
        rw [List.getLast?_cons_cons] at hl
        exact ih ⟨rfl, h.2.2⟩ hn.of_cons hl (by simp at hf ⊢; omega)

/-- The walk ends, and has come by every node. -/
theorem Chain.visit_eq (h : Chain next (some a) as) (hn : as.Nodup)
    (hl : as.getLast? = some last) (hf : as.length ≤ fuel) :
    visit next last fuel a = some as := by
  induction as generalizing a fuel with
  | nil => cases h
  | cons b as ih =>
    obtain rfl := Option.some.inj h.1
    obtain ⟨fuel, rfl⟩ := Nat.exists_eq_add_of_lt (Nat.lt_of_lt_of_le (Nat.succ_pos _) hf)
    unfold visit
    cases as with
    | nil => rw [if_pos (show a = last from Option.some.inj hl)]
    | cons b as =>
      rw [if_neg (ne_last hn hl), h.2.1]
      rw [List.getLast?_cons_cons] at hl
      rw [Option.bind_some, ih ⟨rfl, h.2.2⟩ hn.of_cons hl (by simp at hf ⊢; omega)]
      rfl

end Loops

end Base
