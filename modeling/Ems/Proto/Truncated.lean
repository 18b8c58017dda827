import Ems.Proto.Handler

/-!
# A client that leaves in the middle of a request

`handle_requests` alone, with a request pipe that ends at some byte. A field that is
cut to nothing ends the session, and so does one that is cut short when another one
follows it. A last field that is cut short does not: `safe_read` returns a positive
number, and the operation is executed with what was on the stack
(`truncated_create_executed`). `truncated_ignored` is the exact statement.

Mirroring notes:
- The response pipe stays open and takes all that is written.
-/

namespace Ems.Proto

open Wire Server

/-- The store and the calls executed on it. -/
structure Served where
  list : EventList
  calls : List Call
deriving DecidableEq, Repr

/-- An operation is executed. -/
def answer (x : Served) (c : Call) : Reply × Served :=
  ((c.exec x.list).1, ⟨(c.exec x.list).2, x.calls ++ [c]⟩)

/-- The loop of `handle_requests`; the first argument bounds the iterations. -/
def serve (stale : Nat → UInt8) (chunk : Nat → Nat) :
    Nat → List UInt8 → Nat → Served → Option (Status × Served)
  | 0, _, _, _ => none
  | fuel + 1, inbox, i, x =>
    match Talk.hear chunk answer (handleRequest stale) inbox i x with
    | (some status, _, _, x') => some (status, x')
    | (none, inbox', i', x') => serve stale chunk fuel inbox' i' x'

/-- `handle_requests` on a pipe that holds `inbox` and whose writer has left: what it
returns, and the store. Every iteration but the last takes a byte. -/
def handleRequests (stale : Nat → UInt8) (chunk : Nat → Nat) (inbox : List UInt8) (x : Served) :
    Option (Status × Served) := serve stale chunk (inbox.length + 1) inbox 0 x

/-- The calls, executed one after the other. -/
def execAll (cs : List Call) (x : Served) : Served := cs.foldl (fun x c => (answer x c).2) x

variable {stale : Nat → UInt8} {chunk : Nat → Nat}

theorem hearAll_respond (c : Call) (w : List UInt8) (x : Served) :
    Talk.hearAll answer (respond c) w x = (none, w, (answer x c).2) := by
  have hwrite : ∀ (ws : List (List UInt8)) (x : Served),
      Talk.hearAll answer ((writeAll ws : Talk Call Reply Unit) >>= fun _ => (pure none : Server)) w
        x = (none, w, x) := by
    intro ws
    induction ws with
    | nil => intro x; rfl
    | cons bytes ws ih => intro x; exact ih x
  exact hwrite _ _

/-- A whole request is executed. -/
theorem hearAll_encode (c : Call) (w : List UInt8) (x : Served) :
    Talk.hearAll answer (handleRequest stale) (c.encode ++ w) x = (none, w, (answer x c).2) := by
  rw [Talk.hearAll_feed, feed_encode]
  exact hearAll_respond c w x

/-- `QUIT` ends the session. -/
theorem hearAll_quit (w : List UInt8) (x : Served) :
    Talk.hearAll answer (handleRequest stale) (opQuit :: w) x = (some .success, w, x) := by
  rw [Talk.hearAll_feed, feed_quit]
  rfl

/-- The end of the file. -/
theorem hearAll_field_nil {n : Nat} (next : List UInt8 → Server) (x : Served) :
    Talk.hearAll answer (field stale n next) [] x = (some .unresponsive, [], x) := by
  unfold field
  rw [Talk.readBytes_bind]
  simp only [Talk.hearAll, List.nil_append, List.take_nil, List.drop_nil, if_true]
  rfl

/-- A field that is there, of a request that ends after `k` more bytes. -/
theorem hearAll_field_all {n : Nat} {a : List UInt8} (hlen : a.length = n) (hpos : 0 < n)
    (next : List UInt8 → Server) (rest : List UInt8) {k : Nat} (hk : n ≤ k) (x : Served) :
    Talk.hearAll answer (field stale n next) ((a ++ rest).take k) x =
      Talk.hearAll answer (next a) (rest.take (k - n)) x := by
  have hne : a ≠ [] := List.length_pos_iff.mp (by omega)
  have htake : (a ++ rest).take k = a ++ rest.take (k - n) := by
    rw [List.take_append, List.take_of_length_le (by omega), hlen]
  subst hlen
  unfold field
  rw [Talk.readBytes_bind, htake]
  simp only [Talk.hearAll, List.nil_append]
  rw [List.take_left, List.drop_left, if_neg hne, overlay_full]

/-- A field that is cut short. -/
theorem hearAll_field_part {n : Nat} {a : List UInt8} (hlen : a.length = n)
    (next : List UInt8 → Server) (rest : List UInt8) {k : Nat} (hk : 0 < k) (hlt : k < n)
    (x : Served) : Talk.hearAll answer (field stale n next) ((a ++ rest).take k) x =
      Talk.hearAll answer (next (overlay n (a.take k) stale)) [] x := by
  have htake : (a ++ rest).take k = a.take k := List.take_append_of_le_length (by omega)
  have hne : a.take k ≠ [] := List.length_pos_iff.mp (by rw [List.length_take]; omega)
  unfold field
  rw [Talk.readBytes_bind, htake]
  simp only [Talk.hearAll, List.nil_append]
  rw [List.take_of_length_le (by rw [List.length_take]; omega),
    List.drop_of_length_le (by rw [List.length_take]; omega), if_neg hne]

/-- What comes of the first `k` bytes of a request `w` when they are read with `p`: up to
byte `last` nothing but the end of the session, and after it an operation. -/
def Cut (p : Server) (w : List UInt8) (last k : Nat) (x : Served) : Prop :=
  (k ≤ last → Talk.hearAll answer p (w.take k) x = (some .unresponsive, [], x)) ∧
  (last < k → ∃ c', Talk.hearAll answer p (w.take k) x = (none, [], (answer x c').2))

/-- The last field: anything of it is enough for the operation. -/
theorem cut_last {n : Nat} {a : List UInt8} (hlen : a.length = n) (decode : List UInt8 → Call)
    {k : Nat} (hlt : k < n) (x : Served) :
    Cut (field stale n fun bs => respond (decode bs)) a 0 k x := by
  constructor
  · intro h0
    rw [Nat.le_zero.mp h0, List.take_zero, hearAll_field_nil]
  · intro hpos
    have hpart := @hearAll_field_part stale n a hlen (fun bs => respond (decode bs)) [] k hpos hlt x
    rw [List.append_nil] at hpart
    exact ⟨_, by rw [hpart, hearAll_respond]⟩

/-- A field before it. Cut short it is not missed, but the next one is. -/
theorem cut_field {n : Nat} {a : List UInt8} (hlen : a.length = n) (hpos : 0 < n)
    {next : List UInt8 → Server} {rest : List UInt8} {last k : Nat} {x : Served}
    (hnext : 1 < n → ∀ bs, Talk.hearAll answer (next bs) [] x = (some .unresponsive, [], x))
    (h : Cut (next a) rest last (k - n) x) :
    Cut (field stale n next) (a ++ rest) (n + last) k x := by
  by_cases hall : n ≤ k
  · unfold Cut at h ⊢
    rw [hearAll_field_all hlen hpos next rest hall]
    exact ⟨fun hk => h.1 (by omega), fun hk => h.2 (by omega)⟩
  · refine ⟨fun _ => ?_, fun hk => absurd hk (by omega)⟩
    by_cases h0 : k = 0
    · rw [h0, List.take_zero, hearAll_field_nil]
    · rw [hearAll_field_part hlen next rest (by omega) (by omega)]
      exact hnext (by omega) _

/-- A request cut after `k` bytes: it ends the session, unless the cut is inside its
last field. Then something is executed. -/
theorem cut_encode (c : Call) {k : Nat} (hk : k < c.encode.length) (x : Served) :
    Cut (handleRequest stale) c.encode c.lastField k x := by
  -- the first field has one byte: it is there or it is not
  have hop : ∀ P : Prop, 1 < 1 → P := fun P h => absurd h (by decide)
  have hfield : ∀ {m n : Nat} (next : List UInt8 → List UInt8 → Server), 1 < m → ∀ bs,
      Talk.hearAll answer (field stale n (next bs)) [] x = (some .unresponsive, [], x) :=
    fun next _ bs => hearAll_field_nil (next bs) x
  unfold handleRequest
  cases c with
  | create eventId numRows numCols =>
    have happ : (Call.create eventId numRows numCols).encode =
        [opCreate] ++ (le4 eventId ++ (le8 numRows ++ le8 numCols)) := by
      simp [Call.encode, Call.fields]
    have hlast : (Call.create eventId numRows numCols).lastField = 1 + (4 + 0) := by
      simp [Call.lastField, Call.fields]
    have hmatrix : (le8 numRows ++ le8 numCols).length = 16 := by simp
    rw [happ] at hk ⊢
    simp only [List.length_append, List.length_singleton, le4_length, le8_length] at hk
    rw [hlast]
    apply cut_field List.length_singleton Nat.one_pos fun h => hop _ h
    rw [if_neg (by decide), if_pos rfl]
    apply cut_field (le4_length _) (by decide) (hfield _)
    exact cut_last hmatrix (fun bs => .create _ (size (bs.take 8)) (size (bs.drop 8))) (by omega) x
  | reserve eventId numSeats xs ys =>
    have happ : (Call.reserve eventId numSeats xs ys).encode =
        [opReserve] ++ (le4 eventId ++ (le8 numSeats ++ (arrayBytes xs ++ arrayBytes ys))) := by
      simp [Call.encode, Call.fields]
    have hlast : (Call.reserve eventId numSeats xs ys).lastField = 1 + (4 + (8 + (2048 + 0))) := by
      simp [Call.lastField, Call.fields]
    rw [happ] at hk ⊢
    simp only [List.length_append, List.length_singleton, le4_length, le8_length,
      arrayBytes_length] at hk
    rw [hlast]
    apply cut_field List.length_singleton Nat.one_pos fun h => hop _ h
    rw [if_neg (by decide), if_neg (by decide), if_pos rfl]
    apply cut_field (le4_length _) (by decide) (hfield _)
    apply cut_field (le8_length _) (by decide) (hfield _)
    apply cut_field (arrayBytes_length _) (by decide) (hfield _)
    exact cut_last (arrayBytes_length ys) (fun bs => .reserve _ _ _ (seatArray bs)) (by omega) x
  | showEvent eventId =>
    have happ : (Call.showEvent eventId).encode = [opShow] ++ le4 eventId := by
      simp [Call.encode, Call.fields]
    have hlast : (Call.showEvent eventId).lastField = 1 + 0 := by
      simp [Call.lastField, Call.fields]
    rw [happ] at hk ⊢
    simp only [List.length_append, List.length_singleton, le4_length] at hk
    rw [hlast]
    apply cut_field List.length_singleton Nat.one_pos fun h => hop _ h
    rw [if_neg (by decide), if_neg (by decide), if_neg (by decide), if_pos rfl]
    exact cut_last (le4_length eventId) (fun bs => .showEvent (uint bs)) (by omega) x
  | listEvents =>
    -- no field behind the op code
    have h0 : k = 0 := Nat.lt_one_iff.mp hk
    subst h0
    exact ⟨fun _ => hearAll_field_nil _ x, fun h => absurd h (Nat.not_lt_zero _)⟩

/-! ## A whole session -/

/-- One iteration that goes on. -/
theorem serve_next {fuel : Nat} {inbox inbox' : List UInt8} {i : Nat} {x x' : Served}
    (h : Talk.hearAll answer (handleRequest stale) inbox x = (none, inbox', x')) :
    ∃ i', serve stale chunk (fuel + 1) inbox i x = serve stale chunk fuel inbox' i' x' := by
  obtain ⟨h1, h2, h3⟩ := Talk.hear_eq chunk answer (handleRequest stale) inbox i x
  rw [h] at h1 h2 h3
  generalize hr : Talk.hear chunk answer (handleRequest stale) inbox i x = r at h1 h2 h3
  obtain ⟨status, inbox1, i1, x1⟩ := r
  dsimp only at h1 h2 h3
  subst h1 h2 h3
  exact ⟨i1, by rw [serve, hr]⟩

/-- The last one. -/
theorem serve_last {fuel : Nat} {inbox inbox' : List UInt8} {i : Nat} {status : Status}
    {x x' : Served}
    (h : Talk.hearAll answer (handleRequest stale) inbox x = (some status, inbox', x')) :
    serve stale chunk (fuel + 1) inbox i x = some (status, x') := by
  obtain ⟨h1, h2, h3⟩ := Talk.hear_eq chunk answer (handleRequest stale) inbox i x
  rw [h] at h1 h2 h3
  generalize hr : Talk.hear chunk answer (handleRequest stale) inbox i x = r at h1 h2 h3
  obtain ⟨status, inbox1, i1, x1⟩ := r
  dsimp only at h1 h2 h3
  subst h1 h2 h3
  rw [serve, hr]

theorem encode_ne_nil (c : Call) : c.encode ≠ [] := by
  cases c <;> exact List.cons_ne_nil _ _

/-- The requests that are there whole, one iteration each. -/
theorem serve_encode (done : List Call) (w : List UInt8) (x : Served) {fuel : Nat}
    (hfuel : (done.flatMap Call.encode ++ w).length < fuel) (i : Nat) :
    ∃ fuel' i', w.length < fuel' ∧
      serve stale chunk fuel (done.flatMap Call.encode ++ w) i x =
        serve stale chunk fuel' w i' (execAll done x) := by
  induction done generalizing fuel i x with
  | nil => exact ⟨fuel, i, hfuel, rfl⟩
  | cons c done ih =>
    have happ : (c :: done).flatMap Call.encode ++ w =
        c.encode ++ (done.flatMap Call.encode ++ w) := by
      rw [List.flatMap_cons, List.append_assoc]
    have hpos : 0 < c.encode.length := List.length_pos_iff.mpr (encode_ne_nil c)
    rw [happ] at hfuel ⊢
    rw [List.length_append] at hfuel
    obtain ⟨fuel, rfl⟩ := Nat.exists_eq_add_of_lt (Nat.zero_lt_of_lt hfuel)
    obtain ⟨i', hnext⟩ := @serve_next stale chunk (0 + fuel) _ _ i x _ (hearAll_encode c _ x)
    rw [hnext]
    exact ih (answer x c).2 (by omega) i'

/-- Whole requests and a `QUIT`. -/
theorem handleRequests_quit (done : List Call) (more : List UInt8) (x : Served) :
    handleRequests stale chunk (done.flatMap Call.encode ++ opQuit :: more) x =
      some (.success, execAll done x) := by
  obtain ⟨fuel, i, hfuel, hserve⟩ :=
    @serve_encode stale chunk done (opQuit :: more) x _ (Nat.lt_succ_self _) 0
  obtain ⟨fuel, rfl⟩ := Nat.exists_eq_add_of_lt (Nat.zero_lt_of_lt hfuel)
  unfold handleRequests
  rw [hserve]
  exact serve_last (hearAll_quit more _)

/-- The client leaves in the middle of a request `c`, after `k` bytes of it, or at the
end of the last one (`k = 0`). The store is that of the requests before, and the session
ends as unresponsive, exactly when the last field of `c` has not been begun. After a
`QUIT` nothing is read. -/
theorem truncated_ignored (stale : Nat → UInt8) (chunk : Nat → Nat) (done : List Call) (x : Served) :
    (∀ c : Call, ∀ k < c.encode.length,
      (handleRequests stale chunk (done.flatMap Call.encode ++ c.encode.take k) x =
        some (.unresponsive, execAll done x) ↔ k ≤ c.lastField)) ∧
    ∀ more : List UInt8, handleRequests stale chunk (done.flatMap Call.encode ++ opQuit :: more) x =
      some (.success, execAll done x) := by
  constructor
  · intro c k hk
    obtain ⟨fuel, i, hfuel, hserve⟩ :=
      @serve_encode stale chunk done (c.encode.take k) x _ (Nat.lt_succ_self _) 0
    obtain ⟨hnone, hsome⟩ := @cut_encode stale c k hk (execAll done x)
    obtain ⟨fuel, rfl⟩ := Nat.exists_eq_add_of_lt (Nat.zero_lt_of_lt hfuel)
    unfold handleRequests
    rw [hserve]
    constructor
    · intro h
      by_contra hlast
      obtain ⟨c', hc'⟩ := hsome (by omega)
      obtain ⟨i', hnext⟩ := @serve_next stale chunk (0 + fuel) _ _ i _ _ hc'
      -- the pipe is empty now, so the session ends with the next read
      have hmore : 0 < fuel := by
        rw [List.length_take] at hfuel
        omega
      obtain ⟨fuel, rfl⟩ := Nat.exists_eq_add_of_lt hmore
      have hend : serve stale chunk (0 + (0 + fuel + 1)) [] i' (answer (execAll done x) c').2 =
          some (.unresponsive, (answer (execAll done x) c').2) := by
        rw [Nat.zero_add]
        exact serve_last (hearAll_field_nil _ _)
      rw [hnext, hend] at h
      have hcalls : (execAll done x).calls ++ [c'] = (execAll done x).calls :=
        congrArg (fun r : Status × Served => r.2.calls) (Option.some.inj h)
      have hlen := congrArg List.length hcalls
      rw [List.length_append, List.length_singleton] at hlen
      omega
    · intro hlast
      exact serve_last (hnone hlast)
  · exact fun more => handleRequests_quit done more x

/-- `CREATE 1 1 2`, and then `CREATE 2 1 1` without its last eight bytes: the columns of
the first event are still in `num_matrix`, and the second one is created with them. -/
theorem truncated_create_executed :
    ¬ ∀ (stale : Nat → UInt8) (chunk : Nat → Nat) (done : List Call) (x : Served) (c : Call),
      ∀ k < c.encode.length,
        handleRequests stale chunk (done.flatMap Call.encode ++ c.encode.take k) x =
          some (.unresponsive, execAll done x) := by
  intro h
  have hcut := h (fun i => (le8 1 ++ le8 2).getD i 0) (fun _ => 0) [.create 1 1 2]
    ⟨createList, []⟩ (.create 2 1 1) 13 (by decide)
  have hrun : handleRequests (fun i => (le8 1 ++ le8 2).getD i 0) (fun _ => 0)
      ([Call.create 1 1 2].flatMap Call.encode ++ (Call.create 2 1 1).encode.take 13)
      ⟨createList, []⟩ =
        some (.unresponsive, ⟨⟨2, [newEvent 1 1 2, newEvent 2 1 2]⟩,
          [.create 1 1 2, .create 2 1 2]⟩) := by decide
  rw [hrun] at hcut
  revert hcut
  decide

/-- `CREATE 1 1 2`, and a client that leaves after the id of the next one. -/
theorem truncated_ignored_create :
    handleRequests (fun _ => 7) (fun _ => 2)
      ([Call.create 1 1 2].flatMap Call.encode ++ (Call.create 2 1 1).encode.take 5)
      ⟨createList, []⟩ = some (.unresponsive, execAll [.create 1 1 2] ⟨createList, []⟩) :=
  ((truncated_ignored (fun _ => 7) (fun _ => 2) [.create 1 1 2] ⟨createList, []⟩).1
    (.create 2 1 1) 5 (by decide)).mpr (by decide)

end Ems.Proto
