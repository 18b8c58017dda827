import Ems.Conc.Crew

/-!
# Calls and returns

The calls of a crew are numbered as they are made, so call number `n` is the `n`-th of the
list `called`. Every call is under way or has returned (`Listed`), and when no thread is in
a call any more the calls that have returned are those that were made, each of them once
(`returns_perm`).
-/

namespace Conc

/-! ## Lists that are shared out -/

section Shares

variable {ι α : Type} [DecidableEq ι]

/-- The share of `t` in a list. -/
def shareOf (t : ι) (l : List (ι × α)) : List α :=
  l.filterMap fun p => if p.1 = t then some p.2 else none

theorem shareOf_cons (t : ι) (p : ι × α) (l : List (ι × α)) :
    shareOf t (p :: l) = if p.1 = t then p.2 :: shareOf t l else shareOf t l := by
  unfold shareOf
  rw [List.filterMap_cons]
  split <;> split <;> simp_all

theorem count_shareOf [DecidableEq α] (t : ι) (a : α) (l : List (ι × α)) :
    (shareOf t l).count a = l.count (t, a) := by
  induction l with
  | nil => rfl
  | cons p l ih =>
    obtain ⟨u, b⟩ := p
    rw [shareOf_cons, List.count_cons, ← ih]
    by_cases hu : u = t
    · subst hu
      rw [if_pos rfl, List.count_cons]
      simp
    · simp [hu]

/-- Two lists with the same shares are the same but for the order. -/
theorem perm_of_shares {l l' : List (ι × α)} (h : ∀ t, shareOf t l = shareOf t l') :
    l.Perm l' := by
  classical
  refine List.perm_iff_count.mpr fun p => ?_
  rw [← count_shareOf, h, count_shareOf]

/-- The elements of a list, by their places. -/
theorem filterMap_getElem?_range (l : List α) :
    (List.range l.length).filterMap (fun n => l[n]?) = l := by
  induction l with
  | nil => rfl
  | cons a l ih =>
    rw [List.length_cons, List.range_succ_eq_map, List.filterMap_cons, List.filterMap_map]
    exact congrArg (a :: ·) ih

end Shares

namespace Crew

variable {T L E α C σ H : Type} {R : E → Type}

/-- The call that an action makes. -/
def Act.called : Act T C H → Option C
  | .call _ c => some c
  | _ => none

/-- The calls that are made in a run, in this order. -/
def called (tr : List (Act T C H)) : List C := tr.filterMap Act.called

@[simp] theorem called_append (tr tr' : List (Act T C H)) :
    called (tr ++ tr') = called tr ++ called tr' := List.filterMap_append

/-- What is at a place of a list stays there when the list grows. -/
theorem getElem?_called_append {tr : List (Act T C H)} {n : Nat} {c : C}
    (h : (called tr)[n]? = some c) (tr' : List (Act T C H)) :
    (called (tr ++ tr'))[n]? = some c := by
  rw [called_append, List.getElem?_append_left (List.getElem?_eq_some_iff.mp h).1]
  exact h

variable [DecidableEq T] [DecidableEq L]

/-- In the middle of a call a thread stays in it. -/
theorem Step.same_call {sys : System L E R α C σ H} {s s' : Crew T L E R α C σ} {t : T} {x : H}
    (h : Step sys s (.step t x) s') :
    ∃ r r', s.thread t = some r ∧ s'.thread t = some r' ∧ r'.call = r.call := by
  cases h
  case lock ht _ => exact ⟨_, _, ht, goto_self _, rfl⟩
  case unlock ht => exact ⟨_, _, ht, goto_self _, rfl⟩
  case act ht _ => exact ⟨_, _, ht, goto_self _, rfl⟩

/-- Behind a call the thread is in it. -/
theorem Step.of_call {sys : System L E R α C σ H} {s s' : Crew T L E R α C σ} {t : T} {c : C}
    (h : Step sys s (.call t c) s') : ∃ r, s'.thread t = some r ∧ r.call = c := by
  cases h
  exact ⟨_, goto_self _, rfl⟩

/-- Behind a return it is in none. -/
theorem Step.of_ret {sys : System L E R α C σ H} {s s' : Crew T L E R α C σ} {t : T}
    (h : Step sys s (.ret t) s') : s'.thread t = none := by
  cases h
  exact goto_self _

/-- The numbers of the calls: they count `called`, and every call that has been made is
under way or has returned. -/
structure Listed (sys : System L E R α C σ H) (store : σ) (tr : List (Act T C H))
    (s : Crew T L E R α C σ) : Prop where
  count : s.calls = (called tr).length
  running : ∀ t r, s.thread t = some r → (called tr)[r.no]? = some r.call
  ended : ∀ x ∈ returns sys store tr, (called tr)[x.1]? = some x.2.1
  made : ∀ n < s.calls, Made sys store tr s n

variable {sys : System L E R α C σ H} {store : σ} {s s' : Crew T L E R α C σ} {a : Act T C H}
  {tr : List (Act T C H)}

/-- One step. Only a call of its own makes a thread go on with another number. -/
theorem step_listed (hrun : (machine sys store).run tr = some s) (h : step sys s a = some s')
    (hi : Listed sys store tr s) : Listed sys store (tr ++ [a]) s' := by
  have hended : ∀ x ∈ returns sys store (tr ++ [a]), (called (tr ++ [a]))[x.1]? = some x.2.1 := by
    intro x hx
    rw [returns_snoc hrun h] at hx
    rcases List.mem_append.mp hx with hold | hnew
    · exact getElem?_called_append (hi.ended x hold) _
    · exact getElem?_called_append (hi.running _ _ (mem_returned hnew)) _
  have hmade : ∀ n < s.calls, Made sys store (tr ++ [a]) s' n := fun n hn =>
    (hi.made n hn).step hrun h
  -- a thread that goes on keeps its number and its call
  have hmove : ∀ {t n c p p'}, s.thread t = some ⟨n, c, p⟩ → s'.calls = s.calls →
      s'.thread = (s.goto t (some ⟨n, c, p'⟩)).thread → a.called = none →
      Listed sys store (tr ++ [a]) s' := by
    intro t n c p p' ht hcalls hthread hno
    refine ⟨?_, fun u r hu => ?_, hended, fun k hk => hmade k (by omega)⟩
    · rw [hcalls, hi.count, called_append]
      simp [called, hno]
    · rw [hthread] at hu
      by_cases hut : u = t
      · rw [hut, goto_self] at hu
        cases hu
        exact getElem?_called_append (hi.running _ _ ht) _
      · rw [goto_other hut] at hu
        exact getElem?_called_append (hi.running _ _ hu) _
  cases step_cases h
  case call t c ht =>
    have hlen : (called (tr ++ [Act.call t c])).length = s.calls + 1 := by
      rw [called_append, List.length_append, ← hi.count]
      rfl
    refine ⟨hlen.symm, fun u r hu => ?_, hended, fun k hk => ?_⟩
    · by_cases hut : u = t
      · rw [hut, goto_self] at hu
        cases hu
        rw [called_append, hi.count, List.getElem?_append_right (Nat.le_refl _), Nat.sub_self]
        rfl
      · rw [goto_other hut] at hu
        exact getElem?_called_append (hi.running _ _ hu) _
    · rcases Nat.lt_succ_iff_lt_or_eq.mp hk with hlt | rfl
      · exact hmade k hlt
      · exact .inl ⟨t, _, goto_self _, rfl⟩
  case ret t n c v ht =>
    refine ⟨?_, fun u r hu => ?_, hended, hmade⟩
    · rw [show (s.goto t none).calls = s.calls from rfl, hi.count, called_append]
      simp [called, Act.called]
    · by_cases hut : u = t
      · rw [hut, goto_self] at hu
        cases hu
      · rw [goto_other hut] at hu
        exact getElem?_called_append (hi.running _ _ hu) _
  case lock ht hk => exact hmove ht rfl rfl rfl
  case unlock ht => exact hmove ht rfl rfl rfl
  case act ht hr => exact hmove ht rfl rfl rfl

theorem run_listed (hrun : (machine sys store).run tr = some s) : Listed sys store tr s :=
  (machine sys store).run_invariant ⟨rfl, nofun, nofun, nofun⟩
    (fun _ _ _ _ hrun hi h => step_listed hrun h hi) tr s hrun

/-- A call that has been made at a moment has been made at every later one. -/
theorem made_append {n : Nat} (hrun : (machine sys store).run tr = some s)
    (hn : Made sys store tr s n) :
    ∀ {tr' : List (Act T C H)} {s'}, (machine sys store).run (tr ++ tr') = some s' →
      Made sys store (tr ++ tr') s' n := by
  intro tr'
  induction tr' using List.reverseRecOn with
  | nil =>
    intro s' h
    rw [List.append_nil, hrun] at h
    cases h
    rw [List.append_nil]
    exact hn
  | append_singleton tr' a ih =>
    intro s' h
    rw [← List.append_assoc] at h ⊢
    obtain ⟨s₁, hs₁, hstep⟩ := (machine sys store).run_snoc.mp h
    exact (ih hs₁).step hs₁ hstep

/-- One number, one return. -/
theorem returns_unique (hrun : (machine sys store).run tr = some s) {x y : Nat × C × α}
    (hx : x ∈ returns sys store tr) (hy : y ∈ returns sys store tr) (h : x.1 = y.1) : x = y :=
  List.inj_on_of_nodup_map (run_numbered hrun).nodup hx hy h

/-- **Every call returns once.** When nobody is in a call any more, the calls that have
returned are those that were made. -/
theorem returns_perm (hrun : (machine sys store).run tr = some s)
    (hback : ∀ t, s.thread t = none) :
    ((returns sys store tr).map (·.2.1)).Perm (called tr) := by
  have hi := run_listed hrun
  have hnum := run_numbered hrun
  -- the numbers are those from 0 on
  have hnumbers : ((returns sys store tr).map (·.1)).Perm (List.range (called tr).length) := by
    refine (List.perm_ext_iff_of_nodup hnum.nodup List.nodup_range).mpr fun n => ?_
    rw [List.mem_range, ← hi.count]
    constructor
    · intro hn
      obtain ⟨x, hx, rfl⟩ := List.mem_map.mp hn
      exact (hnum.ended x hx).1
    · intro hn
      rcases hi.made n hn with ⟨t, r, ht, -⟩ | hret
      · rw [hback t] at ht
        cases ht
      · exact hret
  have hcalls := hnumbers.filterMap fun n => (called tr)[n]?
  rw [List.filterMap_map] at hcalls
  have hleft : (returns sys store tr).filterMap (fun x => (called tr)[x.1]?) =
      (returns sys store tr).map (·.2.1) := by
    rw [← List.filterMap_eq_map]
    exact List.filterMap_congr fun x hx => hi.ended x hx
  rw [← hleft]
  rw [filterMap_getElem?_range] at hcalls
  exact hcalls

end Crew

end Conc
