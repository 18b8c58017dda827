import Mathlib.Data.Finset.Card
import Mathlib.Data.List.Pairwise

/-!
# Ledgers: numbered, disjoint claims on a finite room

The purpose of a booking table without any of its machinery: a finite set of
places, and a list of claims on it, numbered from 1 in the order they were
granted. A claim is never empty, stays inside the room and takes no place an
earlier one has; these facts are fields, so a double booking cannot be written
down. `owner` is the table itself: the number of the claim a place belongs to,
0 when it is free.

The count of claims never exceeds the number of places (`length_le`), and stays
below it while a place is free (`length_lt_of_free`). That is what keeps a
fixed-width claim counter from wrapping.
-/

namespace Base

variable {α : Type} [DecidableEq α]

/-- Claims granted on the places of `room`, oldest first. -/
structure Ledger (room : Finset α) where
  claims : List (Finset α)
  nonempty : ∀ c ∈ claims, c.Nonempty
  inside : ∀ c ∈ claims, c ⊆ room
  disjoint : claims.Pairwise Disjoint

namespace Ledger

variable {room : Finset α}

/-- No claim yet. -/
def blank (room : Finset α) : Ledger room := ⟨[], by simp, by simp, List.Pairwise.nil⟩

/-- The number of the claim a place belongs to, 0 for a free place. -/
def owner (l : Ledger room) (a : α) : Nat :=
  match l.claims.findIdx? (a ∈ ·) with
  | none => 0
  | some k => k + 1

theorem owner_eq_zero {l : Ledger room} {a : α} : l.owner a = 0 ↔ ∀ c ∈ l.claims, a ∉ c := by
  unfold owner
  cases h : l.claims.findIdx? (a ∈ ·) with
  | none => simpa using List.findIdx?_eq_none_iff.mp h
  | some k =>
    obtain ⟨hk, hmem, -⟩ := List.findIdx?_eq_some_iff_getElem.mp h
    simp only [Nat.succ_ne_zero, false_iff, not_forall, not_not]
    exact ⟨l.claims[k], List.getElem_mem hk, by simpa using hmem⟩

omit [DecidableEq α] in
/-- Two claims with a common place are the same claim. -/
theorem claim_unique (l : Ledger room) {i j : Nat} {c d : Finset α} {a : α}
    (hi : l.claims[i]? = some c) (hj : l.claims[j]? = some d) (hc : a ∈ c) (hd : a ∈ d) :
    i = j := by
  obtain ⟨hil, rfl⟩ := List.getElem?_eq_some_iff.mp hi
  obtain ⟨hjl, rfl⟩ := List.getElem?_eq_some_iff.mp hj
  have hp := List.pairwise_iff_getElem.mp l.disjoint
  rcases Nat.lt_trichotomy i j with h | h | h
  · exact absurd hd (Finset.disjoint_left.mp (hp i j hil hjl h) hc)
  · exact h
  · exact absurd hc (Finset.disjoint_left.mp (hp j i hjl hil h) hd)

/-- The places numbered `k + 1` are exactly those of the `k`-th claim. -/
theorem owner_eq_succ {l : Ledger room} {a : α} {k : Nat} :
    l.owner a = k + 1 ↔ ∃ c, l.claims[k]? = some c ∧ a ∈ c := by
  unfold owner
  cases h : l.claims.findIdx? (a ∈ ·) with
  | none =>
    have hnone := List.findIdx?_eq_none_iff.mp h
    constructor
    · intro hk; cases hk
    · rintro ⟨c, hc, ha⟩
      have := hnone c (List.mem_of_getElem? hc)
      simp [ha] at this
  | some j =>
    obtain ⟨hj, hmem, -⟩ := List.findIdx?_eq_some_iff_getElem.mp h
    have hmem' : a ∈ l.claims[j] := by simpa using hmem
    have hget : l.claims[j]? = some l.claims[j] := List.getElem?_eq_getElem hj
    constructor
    · intro hk
      have hjk : j = k := Nat.succ.inj hk
      subst hjk
      exact ⟨_, hget, hmem'⟩
    · rintro ⟨c, hc, ha⟩
      exact congrArg (· + 1) (l.claim_unique hget hc hmem' ha)

/-- Later claims take nothing away. -/
theorem owner_of_more {room' : Finset α} {l : Ledger room} {l' : Ledger room'} {a : α}
    (h : l.claims <+: l'.claims) (ha : l.owner a ≠ 0) : l'.owner a = l.owner a := by
  obtain ⟨k, hk⟩ := Nat.exists_eq_succ_of_ne_zero ha
  obtain ⟨c, hc, hac⟩ := owner_eq_succ.mp hk
  obtain ⟨rest, hrest⟩ := h
  rw [hk]
  refine owner_eq_succ.mpr ⟨c, ?_, hac⟩
  obtain ⟨hlt, -⟩ := List.getElem?_eq_some_iff.mp hc
  rw [← hrest, List.getElem?_append_left hlt, hc]

/-- Disjoint nonempty sets are no more than the elements of their union. -/
theorem length_le_card_union {cs : List (Finset α)} (hne : ∀ c ∈ cs, c.Nonempty)
    (hd : cs.Pairwise Disjoint) : cs.length ≤ (cs.foldr (· ∪ ·) ∅).card := by
  induction cs with
  | nil => simp
  | cons c cs ih =>
    obtain ⟨hc, hcs⟩ := List.pairwise_cons.mp hd
    have hrest := ih (fun d hd' => hne d (List.mem_cons_of_mem _ hd')) hcs
    have hone : 1 ≤ c.card := Finset.card_pos.mpr (hne c (List.mem_cons_self ..))
    have hdisj : Disjoint c (cs.foldr (· ∪ ·) ∅) := by
      clear ih hrest hcs hd hne
      induction cs with
      | nil => simp
      | cons d ds ih =>
        rw [List.foldr_cons, Finset.disjoint_union_right]
        exact ⟨hc d (List.mem_cons_self ..), ih fun e he => hc e (List.mem_cons_of_mem _ he)⟩
    rw [List.foldr_cons, Finset.card_union_of_disjoint hdisj, List.length_cons]
    omega

theorem mem_foldr_union {cs : List (Finset α)} {a : α} :
    a ∈ cs.foldr (· ∪ ·) ∅ ↔ ∃ c ∈ cs, a ∈ c := by
  induction cs with
  | nil => simp
  | cons c cs ih => simp [ih]

/-- While a place is free there are fewer claims than places. -/
theorem length_lt_of_free (l : Ledger room) {a : α} (ha : a ∈ room) (hfree : l.owner a = 0) :
    l.claims.length < room.card := by
  have hsub : l.claims.foldr (· ∪ ·) ∅ ⊆ room.erase a := by
    intro b hb
    obtain ⟨c, hc, hbc⟩ := mem_foldr_union.mp hb
    refine Finset.mem_erase.mpr ⟨?_, l.inside c hc hbc⟩
    rintro rfl
    exact owner_eq_zero.mp hfree c hc hbc
  calc l.claims.length
      ≤ (l.claims.foldr (· ∪ ·) ∅).card := length_le_card_union l.nonempty l.disjoint
    _ ≤ (room.erase a).card := Finset.card_le_card hsub
    _ < room.card := Finset.card_erase_lt_of_mem ha

/-- There are never more claims than places. -/
theorem length_le (l : Ledger room) : l.claims.length ≤ room.card := by
  have hsub : l.claims.foldr (· ∪ ·) ∅ ⊆ room := by
    intro b hb
    obtain ⟨c, hc, hbc⟩ := mem_foldr_union.mp hb
    exact l.inside c hc hbc
  exact (length_le_card_union l.nonempty l.disjoint).trans (Finset.card_le_card hsub)

/-- Granting a claim on free places. -/
def grant (l : Ledger room) (c : Finset α) (hne : c.Nonempty) (hin : c ⊆ room)
    (hfree : ∀ a ∈ c, l.owner a = 0) : Ledger room where
  claims := l.claims ++ [c]
  nonempty := by
    intro d hd
    rcases List.mem_append.mp hd with h | h
    · exact l.nonempty d h
    · rw [List.mem_singleton.mp h]; exact hne
  inside := by
    intro d hd
    rcases List.mem_append.mp hd with h | h
    · exact l.inside d h
    · rw [List.mem_singleton.mp h]; exact hin
  disjoint := by
    refine List.pairwise_append.mpr ⟨l.disjoint, List.pairwise_singleton .., ?_⟩
    intro d hd c' hc'
    rw [List.mem_singleton.mp hc']
    refine Finset.disjoint_left.mpr fun a had hac => ?_
    exact owner_eq_zero.mp (hfree a hac) d hd had

/-- A grant numbers its places and leaves all others alone. -/
theorem owner_grant {l : Ledger room} {c : Finset α} (hne : c.Nonempty) (hin : c ⊆ room)
    (hfree : ∀ a ∈ c, l.owner a = 0) (a : α) :
    (l.grant c hne hin hfree).owner a = if a ∈ c then l.claims.length + 1 else l.owner a := by
  by_cases hac : a ∈ c
  · rw [if_pos hac]
    exact owner_eq_succ.mpr ⟨c, by simp [grant], hac⟩
  · rw [if_neg hac]
    cases hk : l.owner a with
    | zero =>
      refine owner_eq_zero.mpr fun d hd => ?_
      rcases List.mem_append.mp hd with h | h
      · exact owner_eq_zero.mp hk d h
      · rw [List.mem_singleton.mp h]; exact hac
    | succ k =>
      obtain ⟨d, hd, had⟩ := owner_eq_succ.mp hk
      refine owner_eq_succ.mpr ⟨d, ?_, had⟩
      obtain ⟨hlt, -⟩ := List.getElem?_eq_some_iff.mp hd
      rw [grant, List.getElem?_append_left hlt]
      exact hd

end Ledger

end Base
