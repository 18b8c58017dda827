import Ems.Proto.Link

/-!
# The two ends agree

In every run the operations are the calls, in order and with the same arguments, each
call returns what its operation returned and prints what there was to print, and between
two calls there is nothing in the pipes. The exception is an event with 2^64 - 1 rows:
the client that shows it never comes back from its loop.

`Phase` is where a session can be: between two calls, in a request, in the reply to it,
or in the `QUIT`. What is still to be sent and read in a phase does not depend on the
pieces that have gone through already (`Wire/Talk.lean`), and every step of the two
programs leaves less of it (`step_phase`). Whatever another session does changes nothing.
-/

namespace Ems.Proto.Link

open Conc Wire Server Client

variable {stale junk : Nat → UInt8} {calls : List Call}

/-- The session behind a call that has the value to return. -/
def afterCall (junk : Nat → UInt8) (rest : List Call) (ret : UInt32) : Program UInt32 := do
  Talk.act (.leave ret)
  session junk rest

/-- What the server has still to write of a reply. -/
def Writing (stale : Nat → UInt8) (server : Proto.Server) (d : List UInt8) : Prop :=
  server.AtCall ∧
    (d = [] ∧ server = handleRequest stale ∨ d ≠ [] ∧ server.flush = (d, pure none))

/-- The reply is under way: `d` is not yet written, and when the client has read it all it
will have printed `es` and be at `q`, with `w` left over. -/
structure Replying (stale : Nat → UInt8) (q : Program UInt32) (w d : List UInt8)
    (es : List Action) (s : State) : Prop where
  client : s.client.AtCall
  server : Writing stale s.server d
  up : s.up = []
  feed : s.client.feed printing (s.down ++ d) = (es, q, w)

/-- Where a session is, with the operations it has performed and the values its calls
have returned. The two numbers bound what can still happen: calls and phases, and in the
phase bytes and texts. -/
inductive Phase (stale junk : Nat → UInt8) (calls : List Call) :
    List (Call × EventList) → List (UInt32 × List Char) → Nat → Nat → State → Prop where
  /-- between two calls -/
  | idle {ps rest out list} (hcalls : calls = ps.map Prod.fst ++ rest) :
      Phase stale junk calls ps (ps.map outcome) (3 * rest.length + 3) 0
        ⟨session junk rest, handleRequest stale, [], [], out, list⟩
  /-- the request, `u` is not yet written -/
  | request {ps c rest client server up u list} (hcalls : calls = ps.map Prod.fst ++ c :: rest)
      (hclient : client.AtCall) (hserver : server.AtCall)
      (hflush : client.flush = (u, awaitReply junk c (afterCall junk rest)))
      (hfeed : server.feed (fun _ => none) (up ++ u) = ([], respond c, [])) :
      Phase stale junk calls ps (ps.map outcome) (3 * rest.length + 5) (2 * u.length + up.length)
        ⟨client, server, up, [], [], list⟩
  /-- the reply -/
  | response {ps c l rest d es s} (hcalls : calls = ps.map Prod.fst ++ c :: rest)
      (hreply : Replying stale (afterCall junk rest (outcome (c, l)).1) [] d es s)
      (hout : s.out ++ printed es = (outcome (c, l)).2) :
      Phase stale junk calls (ps ++ [(c, l)]) (ps.map outcome) (3 * rest.length + 4)
        (2 * d.length + s.down.length + es.length) s
  /-- `QUIT` and behind it -/
  | quitting {ps client server up u out list} (hcalls : calls = ps.map Prod.fst)
      (hclient : client.AtCall) (hserver : server.AtCall) (hflush : client.flush = (u, pure 0))
      (hfeed : server.feed (fun _ => none) (up ++ u) = ([], pure (some .success), [])) :
      Phase stale junk calls ps (ps.map outcome) 0 (2 * u.length + up.length)
        ⟨client, server, up, [], out, list⟩

/-! ## The programs at their calls -/

theorem handleRequest_atCall : (handleRequest stale).AtCall := Nat.one_ne_zero

theorem handleRequest_io_nil {k : Nat} : (handleRequest stale).io k [] = none := Talk.io_recv_nil

/-- The client waits for the reply. -/
theorem awaitReply_recv {α : Type} (c : Call) (next : UInt32 → Program α) :
    ∃ n f, awaitReply junk c next = .recv (n + 1) [] f := by
  cases c with
  | create eventId numRows numCols => exact ⟨3, _, rfl⟩
  | reserve eventId numSeats xs ys => exact ⟨3, _, rfl⟩
  | showEvent eventId => exact ⟨15, _, rfl⟩
  | listEvents => exact ⟨7, _, rfl⟩

theorem flush_writeAll (ws : List (List UInt8)) :
    ((writeAll ws : Talk Call Reply Unit) >>= fun _ => (pure none : Proto.Server)).flush =
      (ws.flatten, pure none) := by
  induction ws with
  | nil => rfl
  | cons bytes ws ih =>
    have hcons : ((writeAll (bytes :: ws) : Talk Call Reply Unit) >>=
        fun _ => (pure none : Proto.Server)) =
          .send bytes (writeAll ws >>= fun _ => pure none) := rfl
    rw [hcons, Talk.flush, ih]
    rfl

theorem writing_resume {p : Proto.Server} {d : List UInt8} (hp : p.AtCall)
    (hflush : p.flush = (d, pure none)) : Writing stale (resume stale p) d := by
  by_cases hd : d = []
  · have hdone : p = pure none := by
      rw [← Talk.flush_nil hp (by rw [hflush]; exact hd), hflush]
    subst hdone
    exact ⟨handleRequest_atCall, Or.inl ⟨hd, rfl⟩⟩
  · have hsame : resume stale p = p := by
      cases p with
      | done a => exact absurd (congrArg Prod.fst hflush).symm hd
      | _ => rfl
    rw [hsame]
    exact ⟨hp, Or.inr ⟨hd, hflush⟩⟩

/-! ## One step -/

/-- A step leads to a phase with less to come, unless it is one of another session. -/
def Advances (stale junk : Nat → UInt8) (calls : List Call) (ps : List (Call × EventList))
    (rs : List (UInt32 × List Char)) (n m : Nat) (s : State) (a : Act) (s' : State) : Prop :=
  ∃ n' m', Phase stale junk calls (ps ++ performed s a) (rs ++ returned s a) n' m' s' ∧
    (a.Own → n' < n ∨ n' = n ∧ m' < m)

variable {ps : List (Call × EventList)} {rs : List (UInt32 × List Char)} {n m : Nat}

/-- A step that performs no operation and returns from no call. -/
theorem advances_quiet {n' m' : Nat} {s s' : State} {a : Act} (hp : performed s a = [])
    (hr : returned s a = []) (h : Phase stale junk calls ps rs n' m' s')
    (hless : a.Own → n' < n ∨ n' = n ∧ m' < m) : Advances stale junk calls ps rs n m s a s' := by
  refine ⟨n', m', ?_, hless⟩
  rw [hp, hr, List.append_nil, List.append_nil]
  exact h

theorem step_idle {rest : List Call} {out : List Char} {list : EventList} {s' : State} {a : Act}
    (hcalls : calls = ps.map Prod.fst ++ rest)
    (h : Step stale ⟨session junk rest, handleRequest stale, [], [], out, list⟩ a s') :
    Advances stale junk calls ps (ps.map outcome) (3 * rest.length + 3) 0
      ⟨session junk rest, handleRequest stale, [], [], out, list⟩ a s' := by
  cases h with
  | client hio => cases rest <;> cases hio
  -- the next call begins; its whole request is still to be written
  | @enter c _ hc =>
    cases rest with
    | nil => cases hc
    | cons _ rest =>
      cases hc
      have hfeed : (handleRequest stale).feed (fun _ => none) ([] ++ c.encode) =
          ([], respond c, []) := by
        have := @feed_encode stale (fun _ => none) c []
        rw [List.append_nil] at this
        exact this
      have hflush := @flush_call _ junk c (afterCall junk rest)
      refine advances_quiet rfl rfl (.request hcalls (Talk.settle_atCall _) handleRequest_atCall
        ((Talk.flush_settle _).trans hflush) hfeed) fun _ => Or.inl ?_
      rw [List.length_cons]
      omega
  | print hc => cases rest <;> cases hc
  | leave hc => cases rest <;> cases hc
  -- no call is left: `ems_quit` sends one byte
  | quit hc =>
    cases rest with
    | cons c rest => cases hc
    | nil =>
      cases hc
      rw [List.append_nil] at hcalls
      refine advances_quiet rfl rfl (.quitting (u := [opQuit]) hcalls (Talk.settle_atCall _)
        handleRequest_atCall (Talk.flush_settle _) (feed_quit _ [])) fun _ => Or.inl ?_
      exact Nat.succ_pos _
  | server hio =>
    have hnone := hio.symm.trans handleRequest_io_nil
    cases hnone
  | serve hc => cases hc
  | other => exact advances_quiet rfl rfl (.idle hcalls) fun hown => absurd hown id

/-- The client writes a part of what it has to write. -/
theorem client_writes {client p q : Program UInt32} {k : Nat} {u down bytes : List UInt8}
    (hio : client.io k [] = some (p, down, bytes)) (hclient : client.AtCall)
    (hflush : client.flush = (u, q)) (hq : q.io k [] = none) :
    down = [] ∧ p.AtCall ∧ 0 < bytes.length ∧ ∃ u', u = bytes ++ u' ∧ p.flush = (u', q) := by
  refine Talk.io_write hio hclient hflush fun hu => ?_
  have hsame := Talk.flush_nil hclient (by rw [hflush]; exact hu)
  rw [hflush] at hsame
  rw [← hsame, hq] at hio
  cases hio

/-- The server reads a part of a request. -/
theorem server_reads {server p q : Proto.Server} {k : Nat} {up up' u bytes : List UInt8}
    (hio : server.io k up = some (p, up', bytes)) (hserver : server.AtCall)
    (hfeed : server.feed (fun _ => none) (up ++ u) = ([], q, [])) (hq : q.Rests)
    (hnone : q ≠ pure none) :
    bytes = [] ∧ (resume stale p).AtCall ∧ up'.length < up.length ∧
      (resume stale p).feed (fun _ => none) (up' ++ u) = ([], q, []) := by
  obtain ⟨hbytes, hp, hlen, hsame⟩ := Talk.io_read hio hserver (by rw [hfeed]; exact hq)
  rw [hfeed] at hsame
  have hresume : resume stale p = p := by
    cases p with
    | done a =>
      cases a with
      | none => exact absurd (congrArg (fun r => r.2.1) hsame).symm hnone
      | some status => rfl
    | _ => rfl
  rw [hresume]
  exact ⟨hbytes, hp, hlen, hsame⟩

/-- The server performs an operation when the request is there whole. -/
theorem request_whole {c c' : Call} {rest : List Call} {client : Program UInt32}
    {server : Proto.Server} {next : Reply → Proto.Server} {up u : List UInt8}
    (hclient : client.AtCall)
    (hflush : client.flush = (u, awaitReply junk c (afterCall junk rest)))
    (hfeed : server.feed (fun _ => none) (up ++ u) = ([], respond c, []))
    (hc : server = .ask c' next) :
    c' = c ∧ server = respond c ∧ up = [] ∧ client = awaitReply junk c (afterCall junk rest) := by
  subst hc
  have hsame : Talk.ask c' next = respond c := congrArg (fun r => r.2.1) hfeed
  have hnil : up ++ u = [] := congrArg (fun r => r.2.2) hfeed
  obtain ⟨rfl, rfl⟩ := List.append_eq_nil_iff.mp hnil
  have hwait := Talk.flush_nil hclient (by rw [hflush])
  rw [hflush] at hwait
  cases hsame
  exact ⟨rfl, rfl, rfl, hwait.symm⟩

/-- The server has performed it. -/
theorem replying_serve {c : Call} {rest : List Call} {list : EventList} {q : Program UInt32}
    {w : List UInt8} {es : List Action}
    (hfeed : (awaitReply junk c (afterCall junk rest)).feed printing
      (replyWrites (c.exec list).1).flatten = (es, q, w)) :
    Replying stale q w (replyWrites (c.exec list).1).flatten es
      ⟨awaitReply junk c (afterCall junk rest),
        resume stale ((writeAll (replyWrites (c.exec list).1) : Talk Call Reply Unit) >>=
          fun _ => (pure none : Proto.Server)).settle, [], [], [], (c.exec list).2⟩ := by
  obtain ⟨n, f, hawait⟩ := @awaitReply_recv junk _ c (afterCall junk rest)
  refine ⟨?_, writing_resume (Talk.settle_atCall _)
    ((Talk.flush_settle _).trans (flush_writeAll _)), rfl, hfeed⟩
  show (awaitReply junk c (afterCall junk rest)).AtCall
  rw [hawait]
  exact Nat.succ_ne_zero n

theorem step_request {c : Call} {rest : List Call} {client : Program UInt32}
    {server : Proto.Server} {up u : List UInt8} {list : EventList} {s' : State} {a : Act}
    (hcalls : calls = ps.map Prod.fst ++ c :: rest) (hclient : client.AtCall)
    (hserver : server.AtCall)
    (hflush : client.flush = (u, awaitReply junk c (afterCall junk rest)))
    (hfeed : server.feed (fun _ => none) (up ++ u) = ([], respond c, []))
    (hlist : StoreInv list) (hshow : Shows ⟨client, server, up, [], [], list⟩ a)
    (h : Step stale ⟨client, server, up, [], [], list⟩ a s') :
    Advances stale junk calls ps (ps.map outcome) (3 * rest.length + 5)
      (2 * u.length + up.length) ⟨client, server, up, [], [], list⟩ a s' := by
  obtain ⟨n, f, hawait⟩ := @awaitReply_recv junk _ c (afterCall junk rest)
  have hask : ∀ e next, client ≠ .ask e next := by
    intro e next hc
    rw [hc, hawait] at hflush
    cases hflush
  cases h with
  | client hio =>
    obtain ⟨rfl, hp, hpos, u', rfl, hflush'⟩ :=
      client_writes hio hclient hflush (by rw [hawait]; exact Talk.io_recv_nil)
    refine advances_quiet rfl rfl (.request hcalls hp hserver hflush' ?_) fun _ => Or.inr ⟨rfl, ?_⟩
    · rw [List.append_assoc]
      exact hfeed
    · simp only [List.length_append]
      omega
  | enter hc => exact absurd hc (hask _ _)
  | print hc => exact absurd hc (hask _ _)
  | leave hc => exact absurd hc (hask _ _)
  | quit hc => exact absurd hc (hask _ _)
  | server hio =>
    obtain ⟨rfl, hp, hlen, hfeed'⟩ := server_reads hio hserver hfeed trivial (fun h => by cases h)
    exact advances_quiet rfl rfl (.request hcalls hclient hp hflush hfeed')
      fun _ => Or.inr ⟨rfl, Nat.add_lt_add_left hlen _⟩
  -- the request is there as a whole, and the reply is what the call has on the list
  | @serve c' next hc =>
    obtain ⟨rfl, rfl, rfl, rfl⟩ := request_whole hclient hflush hfeed hc
    cases hc
    obtain ⟨es, hread, hprinted⟩ := @feed_reply _ junk list hlist c' hshow (afterCall junk rest)
    have hend : (awaitReply junk c' (afterCall junk rest)).feed printing
        (replyWrites (c'.exec list).1).flatten =
          (es, afterCall junk rest (outcome (c', list)).1, []) :=
      hread.trans (congrArg (fun es => (es, _, _)) (List.append_nil es))
    have hresponse := Phase.response hcalls (@replying_serve stale junk _ _ _ _ _ _ hend) hprinted
    rw [← List.append_nil (ps.map outcome)] at hresponse
    exact ⟨_, _, hresponse, fun _ => Or.inl (Nat.lt_succ_self _)⟩
  | other =>
    exact advances_quiet rfl rfl (.request hcalls hclient hserver hflush hfeed)
      fun hown => absurd hown id

/-- A step while the reply is under way, up to the client's arrival at `q`. -/
theorem step_replying {e : Action} {f : Unit → Program UInt32} {w d : List UInt8}
    {es : List Action} {s s' : State} {a : Act} (hi : Replying stale (.ask e f) w d es s)
    (h : Step stale s a s') :
    (∃ d' es', Replying stale (.ask e f) w d' es' s' ∧
      s'.out ++ printed es' = s.out ++ printed es ∧ performed s a = [] ∧ returned s a = [] ∧
      (a.Own → 2 * d'.length + s'.down.length + es'.length <
        2 * d.length + s.down.length + es.length)) ∨
    (a = .act ∧ s.client = .ask e f ∧ es = [] ∧ s.down ++ d = w) := by
  obtain ⟨hclient, hserver, hup, hfeed⟩ := hi
  -- an action that is no `print` can only be the one at the end of the call
  have hask : ∀ e' next, s.client = .ask e' next → printing e' = none →
      s.client = .ask e f ∧ es = [] ∧ s.down ++ d = w := by
    intro e' next hc he'
    rw [hc] at hfeed ⊢
    simp only [Talk.feed, he'] at hfeed
    exact ⟨congrArg (fun r => r.2.1) hfeed, (congrArg Prod.fst hfeed).symm,
      congrArg (fun r => r.2.2) hfeed⟩
  cases h with
  | client hio =>
    obtain ⟨rfl, hp, hlen, hfeed'⟩ := Talk.io_read hio hclient (by rw [hfeed]; trivial)
    refine Or.inl ⟨d, es, ⟨hp, hserver, ?_, hfeed'.trans hfeed⟩, rfl, rfl, rfl, fun _ => ?_⟩
    · rw [hup]
      rfl
    · dsimp only
      omega
  | enter hc => exact Or.inr ⟨rfl, hask _ _ hc rfl⟩
  | @print text next hc =>
    rw [hc] at hfeed
    simp only [Talk.feed, printing] at hfeed
    have hes := congrArg Prod.fst hfeed
    have hrest := congrArg Prod.snd hfeed
    dsimp only at hes hrest
    subst hes
    refine Or.inl ⟨d, _, ⟨Talk.settle_atCall _, hserver, hup,
      (Talk.feed_settle _ _ _).trans (Prod.ext rfl hrest)⟩, ?_, rfl, ?_, fun _ => Nat.lt_succ_self _⟩
    · exact List.append_assoc _ _ _
    · simp only [returned, hc]
  | leave hc => exact Or.inr ⟨rfl, hask _ _ hc rfl⟩
  | quit hc => exact Or.inr ⟨rfl, hask _ _ hc rfl⟩
  | server hio =>
    obtain ⟨hp, ⟨-, hsame⟩ | ⟨hd, hflush⟩⟩ := hserver
    · rw [hsame, hup, handleRequest_io_nil] at hio
      cases hio
    · obtain ⟨rfl, hp', hpos, d', rfl, hflush'⟩ := Talk.io_write hio hp hflush hd
      refine Or.inl ⟨d', es, ⟨hclient, writing_resume hp' hflush', hup, ?_⟩, rfl, rfl, rfl,
        fun _ => ?_⟩
      · dsimp only
        rw [List.append_assoc]
        exact hfeed
      · simp only [List.length_append]
        omega
  | serve hc =>
    obtain ⟨-, ⟨-, hsame⟩ | ⟨hd, hflush⟩⟩ := hserver
    · rw [hsame] at hc
      cases hc
    · rw [hc] at hflush
      exact absurd (congrArg Prod.fst hflush).symm hd
  | other =>
    exact Or.inl ⟨d, es, ⟨hclient, hserver, hup, hfeed⟩, rfl, rfl, rfl, fun hown => absurd hown id⟩

theorem step_response {c : Call} {l : EventList} {rest : List Call} {d : List UInt8}
    {es : List Action} {s s' : State} {a : Act} (hcalls : calls = ps.map Prod.fst ++ c :: rest)
    (hreply : Replying stale (afterCall junk rest (outcome (c, l)).1) [] d es s)
    (hout : s.out ++ printed es = (outcome (c, l)).2) (h : Step stale s a s') :
    Advances stale junk calls (ps ++ [(c, l)]) (ps.map outcome) (3 * rest.length + 4)
      (2 * d.length + s.down.length + es.length) s a s' := by
  rcases step_replying hreply h with ⟨d', es', hi, hsame, hp, hr, hless⟩ |
    ⟨rfl, hclient, rfl, hnil⟩
  · exact advances_quiet hp hr (.response hcalls hi (hsame.trans hout))
      fun hown => Or.inr ⟨rfl, hless hown⟩
  · -- the call returns
    obtain ⟨client, server, up, down, out, list⟩ := s
    obtain ⟨-, ⟨-, ⟨-, hserver⟩ | ⟨hd, -⟩⟩, hup, -⟩ := hreply
    · dsimp only at hclient hserver hup hnil hout
      obtain ⟨rfl, rfl⟩ := List.append_eq_nil_iff.mp hnil
      subst hclient hserver hup
      have hidle := @Phase.idle stale junk calls (ps ++ [(c, l)]) rest out list
        (by rw [List.map_append, List.append_assoc]; exact hcalls)
      have hreturned : (ps ++ [(c, l)]).map outcome =
          ps.map outcome ++ [((outcome (c, l)).1, out)] := by
        have hout' : out = (outcome (c, l)).2 := (List.append_nil out).symm.trans hout
        rw [List.map_append, hout']
        rfl
      have hsettle : (session junk rest).settle = session junk rest := by cases rest <;> rfl
      rw [hreturned, ← hsettle, ← List.append_nil (ps ++ [(c, l)])] at hidle
      cases h with
      | leave hc =>
        cases hc
        exact ⟨_, _, hidle, fun _ => Or.inl (Nat.lt_succ_self _)⟩
      | enter hc => cases hc
      | print hc => cases hc
      | quit hc => cases hc
    · exact absurd (List.append_eq_nil_iff.mp hnil).2 hd

theorem step_quitting {client : Program UInt32} {server : Proto.Server} {up u : List UInt8}
    {out : List Char} {list : EventList} {s' : State} {a : Act} (hcalls : calls = ps.map Prod.fst)
    (hclient : client.AtCall) (hserver : server.AtCall) (hflush : client.flush = (u, pure 0))
    (hfeed : server.feed (fun _ => none) (up ++ u) = ([], pure (some .success), []))
    (h : Step stale ⟨client, server, up, [], out, list⟩ a s') :
    Advances stale junk calls ps (ps.map outcome) 0 (2 * u.length + up.length)
      ⟨client, server, up, [], out, list⟩ a s' := by
  have hask : ∀ e next, client ≠ .ask e next := by
    intro e next hc
    rw [hc] at hflush
    cases hflush
  cases h with
  | client hio =>
    obtain ⟨rfl, hp, hpos, u', rfl, hflush'⟩ := client_writes hio hclient hflush rfl
    refine advances_quiet rfl rfl (.quitting hcalls hp hserver hflush' ?_) fun _ => Or.inr ⟨rfl, ?_⟩
    · rw [List.append_assoc]
      exact hfeed
    · simp only [List.length_append]
      omega
  | enter hc => exact absurd hc (hask _ _)
  | print hc => exact absurd hc (hask _ _)
  | leave hc => exact absurd hc (hask _ _)
  | quit hc => exact absurd hc (hask _ _)
  | server hio =>
    obtain ⟨rfl, hp, hlen, hfeed'⟩ := server_reads hio hserver hfeed trivial (fun h => by cases h)
    exact advances_quiet rfl rfl (.quitting hcalls hclient hp hflush hfeed')
      fun _ => Or.inr ⟨rfl, Nat.add_lt_add_left hlen _⟩
  -- the session ends without another call
  | @serve c next hc =>
    change server = .ask c next at hc
    subst hc
    have hsame : Talk.ask c next = pure (some .success) := congrArg (fun r => r.2.1) hfeed
    cases hsame
  | other =>
    exact advances_quiet rfl rfl (.quitting hcalls hclient hserver hflush hfeed)
      fun hown => absurd hown id

/-- **One step** of a session that shows what can be shown. -/
theorem step_phase {s s' : State} {a : Act} (hi : Phase stale junk calls ps rs n m s)
    (hlist : StoreInv s.list) (hshow : Shows s a) (h : Step stale s a s') :
    Advances stale junk calls ps rs n m s a s' := by
  cases hi with
  | idle hcalls => exact step_idle hcalls h
  | request hcalls hclient hserver hflush hfeed =>
    exact step_request hcalls hclient hserver hflush hfeed hlist hshow h
  | response hcalls hreply hout => exact step_response hcalls hreply hout h
  | quitting hcalls hclient hserver hflush hfeed =>
    exact step_quitting hcalls hclient hserver hflush hfeed h

end Ems.Proto.Link
