import Ems.Service.Meeting

/-!
# The stages of a client

A client is not yet with a worker, with one, or left by it (`Stage`), and the steps of the
other clients and workers leave its stage alone. That no two workers have the same
connection, and that none comes back, is known of the pool (`run_holding`), as the clients
that register have different names (`run_taken`). `run_inv` is the invariant of the
whole, and `connects` what it says about clients and workers.
-/

namespace Ems.Service

open Base Conc Wire Proto Server

variable {n : Nat} {T : Type}

/-- The connection of a client. -/
def Setting.conn (x : Setting n T) (t : T) : Connection := connection (x.names t)

/-- Where the client with the connection `c` is. -/
inductive Stage (c : Connection) (taken : List Connection) (has serves : Fin n → Option Connection)
    (desk : Fin n → Desk) (u : Setup) (bytes : List UInt8) (server : Proto.Server) : Prop where
  /-- no worker has opened its pipes -/
  | apart (hu : u = .outside ∨ u = .openResp ∨ u = .inResp) (hb : bytes = [])
      (hw : ∀ w, serves w ≠ some c) (htaken : c ∈ taken → ∃ w, has w = some c)
  | served {w} (hw : serves w = some c) (hm : Meets (sessionId w) (desk w) u bytes)
      (hc : desk w = .closed → IsOver server)
  /-- its worker has closed its pipes -/
  | left {id} (hu : u = .connected id) (hb : bytes = []) (hs : IsOver server) (htaken : c ∈ taken)
      (hw : ∀ w, has w ≠ some c)

/-- The stage of a client. -/
def State.Stage (x : Setting n T) (taken : List Connection) (s : State n T) (t : T) : Prop :=
  Service.Stage (x.conn t) taken s.pool.has s.pool.serves s.desk (s.setup t) (s.transit t)
    (s.clients.side t).server

structure Inv [DecidableEq T] (x : Setting n T) (taken : List Connection) (s : State n T) :
    Prop where
  stage : ∀ t, s.Stage x taken t
  desk : ∀ w, s.pool.serves w = none → s.desk w = .openResp
  fresh : ∀ t, (s.setup t).isConnected = false → s.clients.side t = (State.init x).clients.side t

/-- Whose connections the workers have. -/
structure Pooled (x : Setting n T) (taken : List Connection) (s : State n T) : Prop where
  mem : ∀ w c, s.pool.has w = some c → c ∈ taken
  alone : ∀ w v c, s.pool.has w = some c → s.pool.has v = some c → w = v
  known : ∀ c ∈ taken, ∃ t, x.conn t = c ∧ s.setup t ≠ .outside

variable {x : Setting n T} {taken new : List Connection} {s s' : State n T} {w v : Fin n} {t : T}

theorem Pooled.serves_alone (hp : Pooled x taken s) {c : Connection}
    (hw : s.pool.serves w = some c) (hv : s.pool.serves v = some c) : w = v :=
  hp.alone w v c (Pool.has_of_serves hw) (Pool.has_of_serves hv)

theorem Pooled.serves_iff (hx : x.Named) (hp : Pooled x taken s) :
    s.Serves x w t ↔ s.pool.serves w = some (x.conn t) := by
  refine hx.serves_iff fun c hc => ?_
  obtain ⟨u, hu, -⟩ := hp.known c (hp.mem w c (Pool.has_of_serves hc))
  exact ⟨u, hu⟩

/-! ## The pool -/

variable {c : Connection} {has has' serves serves' : Fin n → Option Connection}
  {desk desk' : Fin n → Desk} {u : Setup} {bytes : List UInt8} {server : Proto.Server}

/-- A connection comes to a worker. -/
theorem Stage.take (h : Stage c taken has serves desk u bytes server) (hw : has w = none)
    {d : Connection} (hd : d ∉ taken) :
    Stage c (taken ++ [d]) (Function.update has w (some d)) serves desk u bytes server := by
  cases h with
  | apart hu hb hno htaken =>
    refine .apart hu hb hno fun hc => ?_
    rcases List.mem_append.mp hc with hc | hc
    · obtain ⟨v, hv⟩ := htaken hc
      have hne : v ≠ w := fun heq => by rw [heq, hw] at hv; cases hv
      exact ⟨v, by rw [Function.update_of_ne hne]; exact hv⟩
    · exact ⟨w, by rw [Function.update_self, List.mem_singleton.mp hc]⟩
  | served hv hm hc => exact .served hv hm hc
  | left hu hb hs htaken hno =>
    refine .left hu hb hs (List.mem_append_left _ htaken) fun v hv => ?_
    by_cases hvw : v = w
    · rw [hvw, Function.update_self] at hv
      exact hd (Option.some.inj hv ▸ htaken)
    · rw [Function.update_of_ne hvw] at hv
      exact hno v hv

/-- A worker comes to its connection: the first to serve this client. -/
theorem Stage.meet (h : Stage c taken has serves desk u bytes server) (hw : has w = some c)
    (hnone : serves w = none) (hd : desk w = .openResp) (hu : u ≠ .outside)
    (hserves : ∀ v c, serves v = some c → has v = some c)
    (halone : ∀ w v c, has w = some c → has v = some c → w = v) :
    Stage c taken has (Function.update serves w (some c)) desk u bytes server := by
  cases h with
  | apart hearly hb hno htaken =>
    refine .served (w := w) (Function.update_self ..) ?_ fun hc => by rw [hd] at hc; cases hc
    rw [hd, hb]
    rcases hearly with rfl | rfl | rfl
    · exact absurd rfl hu
    · exact .apart rfl
    · exact .apart rfl
  | served hv _ _ =>
    rw [halone w _ c hw (hserves _ c hv), hv] at hnone
    cases hnone
  | left _ _ _ _ hno => exact absurd hw (hno w)

/-- The worker of this client leaves it. -/
theorem Stage.leave (h : Stage c taken has serves desk u bytes server) (hw : serves w = some c)
    (hd : desk w = .closed) (hserves : ∀ v c, serves v = some c → has v = some c)
    (hmem : ∀ v c, has v = some c → c ∈ taken)
    (halone : ∀ w v c, has w = some c → has v = some c → w = v) :
    Stage c taken (Function.update has w none) (Function.update serves w none) desk' u bytes
      server := by
  have hhas := hserves w c hw
  cases h with
  | apart _ _ hno _ => exact absurd hw (hno w)
  | served hv hm hc =>
    cases halone _ w c (hserves _ c hv) hhas
    have hover := hc hd
    rw [hd] at hm
    obtain ⟨rfl, rfl⟩ := hm.at_closed
    refine .left rfl rfl hover (hmem w c hhas) fun v hv => ?_
    by_cases hvw : v = w
    · rw [hvw, Function.update_self] at hv
      cases hv
    · rw [Function.update_of_ne hvw] at hv
      exact hvw (halone v w c hv hhas)
  | left _ _ _ _ hno => exact absurd hhas (hno w)

/-- Another worker goes on. -/
theorem Stage.elsewhere (h : Stage c taken has serves desk u bytes server)
    (hhas : ∀ v, has' v = some c ↔ has v = some c)
    (hserves : ∀ v, serves' v = some c ↔ serves v = some c)
    (hdesk : ∀ v, serves v = some c → desk' v = desk v) :
    Stage c taken has' serves' desk' u bytes server := by
  cases h with
  | apart hu hb hno htaken =>
    refine .apart hu hb (fun v hv => hno v ((hserves v).mp hv)) fun hc => ?_
    obtain ⟨v, hv⟩ := htaken hc
    exact ⟨v, (hhas v).mpr hv⟩
  | served hv hm hc =>
    refine .served ((hserves _).mpr hv) ?_ fun hclosed => ?_
    · rw [hdesk _ hv]
      exact hm
    · rw [hdesk _ hv] at hclosed
      exact hc hclosed
  | left hu hb hs htaken hno => exact .left hu hb hs htaken fun v hv => hno v ((hhas v).mp hv)

/-- An update at a worker that has, and gets, something else. -/
theorem update_iff {f : Fin n → Option Connection} {o : Option Connection} (hw : f w ≠ some c)
    (ho : o ≠ some c) (v : Fin n) : Function.update f w o v = some c ↔ f v = some c := by
  by_cases hvw : v = w
  · rw [hvw, Function.update_self]
    exact iff_of_false ho hw
  · rw [Function.update_of_ne hvw]

variable [DecidableEq T]

/-- The pool goes on, and the desks with it. -/
theorem Inv.pool {b : Pool.Act n} {q : Pool.State n} (hx : x.Named) (hp : Pooled x taken s)
    (hi : Inv x taken s) (hh : Pool.Hands s.pool b new q) (hnew : ∀ c ∈ new, c ∉ taken)
    (hturns : ∀ w, b = .worker w → isServing (s.pool.worker w) = true → s.desk w = .closed) :
    Inv x (taken ++ new) { s with pool := q, desk := s.reset b } := by
  have hserves : ∀ v c, s.pool.serves v = some c → s.pool.has v = some c :=
    fun _ _ => Pool.has_of_serves
  -- a worker that serves nobody has nothing to put down
  have hreset : (∀ w, b = .worker w → s.pool.serves w = none) → s.reset b = s.desk := by
    intro hidle
    cases b with
    | worker w =>
      show Function.update s.desk w .openResp = s.desk
      rw [← hi.desk w (hidle w rfl), Function.update_eq_self]
    | _ => rfl
  cases hh with
  | @take w c _ hw hhas hsv =>
    have hidle : s.pool.serves w = none := by
      cases hsw : s.pool.serves w with
      | none => rfl
      | some c => rw [hserves w c hsw] at hw; cases hw
    have hdesk := hreset fun v hv => by cases hv; exact hidle
    refine ⟨fun t => ?_, fun v hv => ?_, hi.fresh⟩
    · show Stage _ _ q.has q.serves (s.reset (.worker w)) _ _ _
      rw [hhas, hsv, hdesk]
      exact (hi.stage t).take hw (hnew c (List.mem_singleton_self c))
    · show s.reset (.worker w) v = _
      rw [hdesk]
      exact hi.desk v (hsv ▸ hv)
  | @meet w c _ hw hnone hhas hsv =>
    have hdesk := hreset fun v hv => by cases hv; exact hnone
    rw [List.append_nil]
    refine ⟨fun t => ?_, fun v hv => ?_, hi.fresh⟩
    · show Stage _ _ q.has q.serves (s.reset (.worker w)) _ _ _
      rw [hhas, hsv, hdesk]
      by_cases hc : x.conn t = c
      · subst hc
        obtain ⟨u, hu, hout⟩ := hp.known _ (hp.mem w _ hw)
        cases hx.connection_injective hu
        exact (hi.stage t).meet hw hnone (hi.desk w hnone) hout hserves hp.alone
      · have hne : some c ≠ some (x.conn t) := fun heq => hc (Option.some.inj heq).symm
        exact (hi.stage t).elsewhere (fun _ => Iff.rfl)
          (update_iff (by rw [hnone]; simp) hne) fun _ _ => rfl
    · show s.reset (.worker w) v = _
      rw [hdesk]
      refine hi.desk v ?_
      have hv' : q.serves v = none := hv
      rw [hsv] at hv'
      by_cases hvw : v = w
      · rw [hvw, Function.update_self] at hv'
        cases hv'
      · rwa [Function.update_of_ne hvw] at hv'
  | @leave w c _ hw hhas hsv =>
    have hclosed : s.desk w = .closed := hturns w rfl (by rw [Pool.serves_eq.mp hw]; rfl)
    rw [List.append_nil]
    refine ⟨fun t => ?_, fun v hv => ?_, hi.fresh⟩
    · show Stage _ _ q.has q.serves _ _ _ _
      rw [hhas, hsv]
      by_cases hc : x.conn t = c
      · subst hc
        exact (hi.stage t).leave hw hclosed hserves hp.mem hp.alone
      · have hne : some c ≠ some (x.conn t) := fun heq => hc (Option.some.inj heq).symm
        refine (hi.stage t).elsewhere
          (update_iff (by rw [hserves w c hw]; exact hne) (by simp))
          (update_iff (by rw [hw]; exact hne) (by simp)) fun v hv => ?_
        refine Function.update_of_ne (fun hvw => ?_) ..
        rw [hvw, hw] at hv
        exact hne hv
    · show Function.update s.desk w .openResp v = _
      by_cases hvw : v = w
      · rw [hvw, Function.update_self]
      · rw [Function.update_of_ne hvw]
        refine hi.desk v ?_
        have hv' : q.serves v = none := hv
        rwa [hsv, Function.update_of_ne hvw] at hv'
  | other hhas hsv hidle =>
    have hdesk := hreset hidle
    rw [List.append_nil]
    refine ⟨fun t => ?_, fun v hv => ?_, hi.fresh⟩
    · show Stage _ _ q.has q.serves (s.reset b) _ _ _
      rw [hhas, hsv, hdesk]
      exact hi.stage t
    · show s.reset b v = _
      rw [hdesk]
      exact hi.desk v (hsv ▸ hv)

/-! ## The clients -/

/-- Where a client is changes nothing for the others. -/
theorem Inv.client (hi : Inv x taken s) (hs : (s.setup t).isConnected = false)
    (hstage : Service.Stage (x.conn t) taken s.pool.has s.pool.serves s.desk u bytes
      (s.clients.side t).server) {r : Register.State} :
    Inv x taken { s with
      register := r
      setup := Function.update s.setup t u
      transit := Function.update s.transit t bytes } := by
  refine ⟨fun v => ?_, hi.desk, fun v hv => ?_⟩
  · show Service.Stage _ _ _ _ _ (Function.update s.setup t u v)
      (Function.update s.transit t bytes v) _
    by_cases hvt : v = t
    · subst hvt
      rw [Function.update_self, Function.update_self]
      exact hstage
    · rw [Function.update_of_ne hvt, Function.update_of_ne hvt]
      exact hi.stage v
  · by_cases hvt : v = t
    · subst hvt
      exact hi.fresh v hs
    · have hv' : (Function.update s.setup t u v).isConnected = false := hv
      rw [Function.update_of_ne hvt] at hv'
      exact hi.fresh v hv'

/-- Nobody serves a client that has not registered. -/
theorem Stage.register (h : Stage c taken has serves desk .outside bytes server) :
    bytes = [] ∧ Stage c taken has serves desk .openResp [] server := by
  cases h with
  | apart _ hb hno htaken => exact ⟨hb, .apart (.inr (.inl rfl)) rfl hno htaken⟩
  | served _ hm _ =>
    generalize desk _ = d at hm
    cases hm with
    | apart hu => cases hu
    | opening hu => rcases hu with hu | hu <;> cases hu
    | writing hu => cases hu
    | written _ hu => cases hu
  | left hu => cases hu

omit [DecidableEq T] in
theorem setupStep_unconnected {u : Setup} {bytes : List UInt8} (h : SetupStep x s t u bytes) :
    s.setup t ≠ .outside ∧ (s.setup t).isConnected = false := by
  cases h <;> simp [Setup.isConnected, *]

/-- `ems_setup` goes on. -/
theorem Inv.setup (hx : x.Named) (hp : Pooled x taken s) (hi : Inv x taken s)
    (h : SetupStep x s t u bytes) : Inv x taken { s with
      setup := Function.update s.setup t u
      transit := Function.update s.transit t bytes } := by
  refine hi.client (r := s.register) (setupStep_unconnected h).2 ?_
  cases hi.stage t with
  | apart hu hb hno htaken =>
    cases h with
    | openResp _ => exact .apart (.inr (.inr rfl)) hb hno htaken
    | respOpen _ hw => exact absurd ((hp.serves_iff hx).mp hw) (hno _)
    | reqOpen _ hw => exact absurd ((hp.serves_iff hx).mp hw) (hno _)
    | readPart hst => rw [hst] at hu; simp at hu
    | readLast hst => rw [hst] at hu; simp at hu
    | openReq hst => rw [hst] at hu; simp at hu
  | @served w hw hm hc =>
    exact .served hw (hm.setup (fun v hv => hp.serves_alone ((hp.serves_iff hx).mp hv) hw) h) hc
  | left hu =>
    have hno := (setupStep_unconnected h).2
    rw [hu] at hno
    cases hno

/-- A worker goes on with its client. -/
theorem Inv.advance {d : Desk} (hx : x.Named) (hp : Pooled x taken s) (hi : Inv x taken s)
    (hserves : s.Serves x w t) (h : DeskStep s w t d bytes) : Inv x taken { s with
      desk := Function.update s.desk w d
      transit := Function.update s.transit t bytes } := by
  have hw := (hp.serves_iff hx).mp hserves
  refine ⟨fun v => ?_, fun v hv => ?_, hi.fresh⟩
  · show Service.Stage _ _ _ _ (Function.update s.desk w d) _
      (Function.update s.transit t bytes v) _
    by_cases hvt : v = t
    · subst hvt
      rw [Function.update_self]
      cases hi.stage v with
      | apart _ _ hno _ => exact absurd hw (hno w)
      | @served w' hw' hm hc =>
        cases hp.serves_alone hw' hw
        refine .served hw ?_ fun hd => ?_
        · rw [Function.update_self]
          refine hm.desk (fun hover => ?_) h
          -- a session that has not begun is not over
          cases hcon : (s.setup v).isConnected with
          | true => rfl
          | false =>
            rw [hi.fresh v hcon] at hover
            obtain ⟨status, hover⟩ := hover
            cases hover
        · rw [Function.update_self] at hd
          subst hd
          cases h with
          | close _ hs => exact ⟨_, hs⟩
      | left _ _ _ _ hno => exact absurd (Pool.has_of_serves hw) (hno w)
    · rw [Function.update_of_ne hvt]
      refine (hi.stage v).elsewhere (fun _ => Iff.rfl) (fun _ => Iff.rfl) fun w' hw' => ?_
      refine Function.update_of_ne (fun heq => ?_) ..
      rw [heq, hw] at hw'
      exact hvt (hx.connection_injective (Option.some.inj hw').symm)
  · show Function.update s.desk w d v = _
    by_cases hvw : v = w
    · have hv' : s.pool.serves v = none := hv
      rw [hvw, hw] at hv'
      cases hv'
    · rw [Function.update_of_ne hvw]
      exact hi.desk v hv

/-- A session that has not begun waits for its first byte. -/
theorem Inv.talks_connected {a : Link.Act} {y : Link.State} (hi : Inv x taken s)
    (ht : s.Talks x t a) (h : Link.step (x.stale t) (s.clients.session t) a = some y) :
    (s.setup t).isConnected = true := by
  cases hcon : (s.setup t).isConnected with
  | true => rfl
  | false =>
    have hside := hi.fresh t hcon
    have hno : ¬ (s.setup t).isConnected = true := by rw [hcon]; exact Bool.false_ne_true
    cases Link.step_cases h with
    | client => exact absurd ht hno
    | enter => exact absurd ht hno
    | print => exact absurd ht hno
    | leave => exact absurd ht hno
    | quit => exact absurd ht hno
    | @server k p up bytes hio =>
      have hio' : (s.clients.side t).server.io k (s.clients.side t).up = some (p, up, bytes) := hio
      rw [hside] at hio'
      exact absurd (hio'.symm.trans Link.handleRequest_io_nil) (Option.some_ne_none _)
    | @serve c next hask =>
      have hask' : (s.clients.side t).server = .ask c next := hask
      rw [hside] at hask'
      cases hask'
    | other => exact absurd ht id

/-- A step of a session: the server's end moves only where its worker is in `handle_requests`. -/
theorem Inv.session {a : Link.Act} {c : Link.Clients T} (hx : x.Named) (hp : Pooled x taken s)
    (hi : Inv x taken s) (ht : s.Talks x t a)
    (h : Link.Clients.step x.stale s.clients (t, a) = some c) :
    Inv x taken { s with clients := c } := by
  obtain ⟨-, y, hy, rfl⟩ := Link.Clients.step_own h
  have hcon := hi.talks_connected ht hy
  have hmoves : y.server = (s.clients.side t).server ∨
      ∃ w, s.pool.serves w = some (x.conn t) ∧ s.desk w = .requests := by
    cases Link.step_cases hy with
    | server | serve =>
      obtain ⟨w, hw, hd⟩ := ht
      exact .inr ⟨w, (hp.serves_iff hx).mp hw, hd⟩
    | other => exact absurd ht id
    | _ => exact .inl rfl
  refine ⟨fun v => ?_, hi.desk, fun v hv => ?_⟩
  · show Service.Stage _ _ _ _ _ _ _ (Function.update s.clients.side t y.side v).server
    by_cases hvt : v = t
    · subst hvt
      rw [Function.update_self]
      show Service.Stage _ _ _ _ _ _ _ y.server
      rcases hmoves with hsame | ⟨w, hw, hd⟩
      · rw [hsame]
        exact hi.stage v
      · cases hi.stage v with
        | apart _ _ hno _ => exact absurd hw (hno w)
        | @served w' hw' hm hc =>
          cases hp.serves_alone hw' hw
          exact .served hw hm fun hclosed => by rw [hd] at hclosed; cases hclosed
        | left _ _ _ _ hno => exact absurd (Pool.has_of_serves hw) (hno w)
    · rw [Function.update_of_ne hvt]
      exact hi.stage v
  · have hvt : v ≠ t := by
      rintro rfl
      have hv' : (s.setup v).isConnected = false := hv
      rw [hcon] at hv'
      cases hv'
    exact (Function.update_of_ne hvt ..).trans (hi.fresh v hv)

/-! ## Every run -/

/-- **The stages of the clients.** -/
theorem step_inv {a : Act n T} (hx : x.Named) (hp : Pooled x taken s) (hi : Inv x taken s)
    (h : Step x s a s')
    (hh : ∀ b, poolAct s a = some b → Pool.Hands s.pool b (Pool.takes s.pool b) s'.pool)
    (hnew : ∀ c ∈ (poolAct s a).toList.flatMap (Pool.takes s.pool), c ∉ taken) :
    Inv x (taken ++ (poolAct s a).toList.flatMap (Pool.takes s.pool)) s' := by
  have hpool : ∀ {b : Pool.Act n}, poolAct s a = some b →
      (∀ w, b = .worker w → isServing (s.pool.worker w) = true → s.desk w = .closed) →
      Inv x (taken ++ (poolAct s a).toList.flatMap (Pool.takes s.pool))
        { s with pool := s'.pool, desk := s.reset b } := by
    intro b hb hturns
    have hhands := hh b hb
    rw [hb, Option.toList_some, List.flatMap_cons, List.flatMap_nil, List.append_nil] at hnew ⊢
    exact hi.pool hx hp hhands hnew hturns
  have hstill : poolAct s a = none → Inv x taken s' →
      Inv x (taken ++ (poolAct s a).toList.flatMap (Pool.takes s.pool)) s' := by
    intro hnone hkept
    rw [hnone, Option.toList_none, List.flatMap_nil, List.append_nil]
    exact hkept
  cases h with
  | @register t frame hu _ =>
    have hstage := hi.stage t
    unfold State.Stage at hstage
    rw [hu] at hstage
    obtain ⟨hb, hstage⟩ := hstage.register
    have hkept := hi.client (t := t) (r := s.register) (by rw [hu]; rfl) hstage
    rw [← hb, Function.update_eq_self] at hkept
    exact hstill rfl ⟨hkept.stage, hkept.desk, hkept.fresh⟩
  | loop => exact hstill rfl ⟨hi.stage, hi.desk, hi.fresh⟩
  | @enqueue node buffer c q hm hc hq =>
    have hkept := hpool (b := .connect c) (by simp [poolAct, hm, hc]) fun w hb => by cases hb
    exact ⟨hkept.stage, hkept.desk, hkept.fresh⟩
  | leave =>
    have hkept := hpool (b := .shutdown) rfl fun w hb => by cases hb
    exact ⟨hkept.stage, hkept.desk, hkept.fresh⟩
  | pool ht => exact hpool rfl fun w hb hw => by subst hb; exact ht hw
  | setup hs => exact hstill rfl (hi.setup hx hp hs)
  | desk hw hd => exact hstill rfl (hi.advance hx hp hw hd)
  | session ht hc => exact hstill rfl (hi.session hx hp ht hc)

variable {tr : List (Act n T)}

omit [DecidableEq T] in
theorem Setting.Named.conn_injective (hx : x.Named) : Function.Injective x.conn :=
  fun _ _ h => hx.connection_injective h

/-- The pool has the connections of the clients that have come first, and no two alike. -/
theorem run_enqueued (hx : x.Named) (hcalm : (machine x).Meets Calm tr)
    (hrun : (machine x).run tr = some s) :
    ∃ us, us <+: registered x tr ∧ Pool.enqueued (poolOf x tr) = us.map x.conn ∧
      (us.map x.conn).Nodup := by
  obtain ⟨frame, hf⟩ := hx.framing
  obtain ⟨us, hbegins, -, hmain⟩ := run_arrivals hx hf hcalm hrun
  have hfirst : Pool.enqueued (poolOf x tr) <+: us.map x.conn := ⟨_, hmain⟩
  obtain ⟨vs, hvs, henq⟩ := List.prefix_map_iff.mp hfirst
  have hvs' := hvs.trans hbegins
  exact ⟨vs, hvs', henq,
    (hvs'.sublist.nodup (run_registered hrun).1).map hx.conn_injective⟩

/-- The workers take them in that order. -/
theorem run_taken (hx : x.Named) (hcalm : (machine x).Meets Calm tr)
    (hrun : (machine x).run tr = some s) :
    Pool.taken (poolOf x tr) <+: (registered x tr).map x.conn ∧
      Pooled x (Pool.taken (poolOf x tr)) s := by
  obtain ⟨us, hbegins, henq, hnodup⟩ := run_enqueued hx hcalm hrun
  rw [← henq] at hnodup
  obtain ⟨nodes, hh⟩ := Pool.run_holding ((pool_part x).run hrun) hnodup
  have hsplit : Pool.taken (poolOf x tr) ++ nodes.map s.pool.queue.conn =
      Pool.enqueued (poolOf x tr) := hh.split
  rw [henq] at hsplit
  have htaken : Pool.taken (poolOf x tr) <+: (registered x tr).map x.conn :=
    List.IsPrefix.trans ⟨_, hsplit⟩ (hbegins.map x.conn)
  refine ⟨htaken, hh.mem, hh.alone, fun c hc => ?_⟩
  obtain ⟨t, ht, rfl⟩ := List.mem_map.mp (htaken.subset hc)
  exact ⟨t, rfl, ((run_registered hrun).2 t).mp ht⟩

theorem run_inv (hx : x.Named) (hcalm : (machine x).Meets Calm tr)
    (hrun : (machine x).run tr = some s) : Inv x (Pool.taken (poolOf x tr)) s := by
  refine (machine x).run_invariant (I := fun tr s => (machine x).Meets Calm tr →
    Inv x (Pool.taken (poolOf x tr)) s) (fun _ => ⟨fun t => ?_, fun _ _ => rfl, fun _ _ => rfl⟩)
    (fun tr s a s' hs hi h hcalm => ?_) tr s hrun hcalm
  · exact .apart (.inl rfl) rfl (fun w hw => by cases hw) fun hc => absurd hc List.not_mem_nil
  · have hsnoc := (machine x).run_snoc.mpr ⟨s, hs, h⟩
    have htaken : Pool.taken (poolOf x (tr ++ [a])) = Pool.taken (poolOf x tr) ++
        (poolAct s a).toList.flatMap (Pool.takes s.pool) := by
      unfold Pool.taken poolOf
      rw [(pool_part x).log hsnoc, (pool_part x).log hs, Machine.log_snoc _ _ hs h]
    obtain ⟨nodes, hd⟩ := Pool.run_deliveryInv ((pool_part x).run hs)
    have hnodup : (Pool.taken (poolOf x (tr ++ [a]))).Nodup :=
      (run_taken hx hcalm hsnoc).1.sublist.nodup
        ((run_registered hsnoc).1.map hx.conn_injective)
    rw [htaken] at hnodup ⊢
    refine step_inv hx (run_taken hx hcalm.of_append hs).2 (hi hcalm.of_append) (step_cases h)
      (fun b hb => ?_) fun c hc hold => ?_
    · exact Pool.step_hands hd (Pool.step_cases ((pool_part x).moves h hb))
    · exact (List.nodup_append.mp hnodup).2.2 c hold c hc rfl

/-- The client knows the number of its worker. -/
theorem Meets.known_id {id id' : UInt32} {d : Desk} (h : Meets id d u bytes)
    (hu : u = .connected id') : bytes = [] ∧ id' = id := by
  subst hu
  cases h with
  | apart hu => cases hu
  | opening hu => rcases hu with hu | hu <;> cases hu
  | writing hu => cases hu
  | written _ hu => cases hu
  | talking => exact ⟨rfl, rfl⟩

/-- **Clients and workers meet.** The workers get the clients in the order in which those
have registered; each has one client, and each client one worker at a time. When a worker comes
to the requests its client has read the number of the session, and when a client comes out of
`ems_setup` nothing is left in its response pipe and the number is that of the worker that
serves it, until the session is over. So no two clients are in sessions of the same number. -/
theorem connects (hx : x.Named) (hcalm : (machine x).Meets Calm tr)
    (hrun : (machine x).run tr = some s) :
    Pool.taken (poolOf x tr) <+: (registered x tr).map x.conn ∧
      (∀ w v t u, s.Serves x w t → s.Serves x v u → (w = v ↔ t = u)) ∧
      (∀ w t, s.Serves x w t → s.desk w = .requests → s.transit t = [] ∧
        (s.setup t = .inReq (sessionId w) ∨ s.setup t = .connected (sessionId w))) ∧
      (∀ t id, s.setup t = .connected id → s.transit t = [] ∧
        ((∃ w, s.Serves x w t ∧ id = sessionId w) ∨
          IsOver (s.clients.side t).server ∧ ∀ w, ¬ s.Serves x w t)) ∧
      (n ≤ 2 ^ 32 → ∀ t u id, s.setup t = .connected id → s.setup u = .connected id →
        ¬ IsOver (s.clients.side t).server → ¬ IsOver (s.clients.side u).server → t = u) := by
  obtain ⟨horder, hp⟩ := run_taken hx hcalm hrun
  have hi := run_inv hx hcalm hrun
  have halone : ∀ w v t u, s.Serves x w t → s.Serves x v u → (w = v ↔ t = u) := by
    intro w v t u hw hv
    rw [hp.serves_iff hx] at hw hv
    constructor
    · rintro rfl
      rw [hw] at hv
      exact hx.conn_injective (Option.some.inj hv)
    · rintro rfl
      exact hp.serves_alone hw hv
  have hknows : ∀ t id, s.setup t = .connected id → s.transit t = [] ∧
      ((∃ w, s.Serves x w t ∧ id = sessionId w) ∨
        IsOver (s.clients.side t).server ∧ ∀ w, ¬ s.Serves x w t) := by
    intro t id hu
    cases hi.stage t with
    | apart hu' => rw [hu] at hu'; simp at hu'
    | @served w hw hm _ =>
      obtain ⟨hb, hid⟩ := hm.known_id hu
      exact ⟨hb, .inl ⟨w, (hp.serves_iff hx).mpr hw, hid⟩⟩
    | left _ hb hs _ hno =>
      refine ⟨hb, .inr ⟨hs, fun w hw => hno w (Pool.has_of_serves ((hp.serves_iff hx).mp hw))⟩⟩
  refine ⟨horder, halone, fun w t hw hd => ?_, hknows, fun hn t u id ht hu hlive hlive' => ?_⟩
  · rw [hp.serves_iff hx] at hw
    cases hi.stage t with
    | apart _ _ hno _ => exact absurd hw (hno w)
    | @served w' hw' hm _ =>
      cases hp.serves_alone hw' hw
      rw [hd] at hm
      exact hm.at_requests
    | left _ _ _ _ hno => exact absurd (Pool.has_of_serves hw) (hno w)
  · rcases (hknows t id ht).2 with ⟨w, hw, rfl⟩ | ⟨hover, -⟩
    · rcases (hknows u _ hu).2 with ⟨v, hv, hid⟩ | ⟨hover, -⟩
      · have hsame : w = v := by
          have hnat := congrArg UInt32.toNat hid
          unfold sessionId at hnat
          rw [UInt32.toNat_ofNat_of_lt' (Nat.lt_of_lt_of_le w.2 hn),
            UInt32.toNat_ofNat_of_lt' (Nat.lt_of_lt_of_le v.2 hn)] at hnat
          exact Fin.ext hnat
        exact (halone w v t u hw hv).mp hsame
      · exact absurd hover hlive'
    · exact absurd hover hlive

/-- Two clients, two workers. -/
def twoClients : Setting 2 Bool where
  names t := if t then ⟨[47, 114], [47, 115]⟩ else ⟨[47, 116], [47, 117]⟩
  stack _ := NameArrays.zeros
  stale _ _ := 7
  program _ := Client.session (fun _ => 7) []
  list := createList

theorem twoClients_named : twoClients.Named where
  req t := by cases t <;> exact ⟨by decide, by decide, by decide⟩
  resp t := by cases t <;> exact ⟨by decide, by decide, by decide⟩
  short t := by cases t <;> exact ⟨by decide, by decide⟩
  different t u h := by cases t <;> cases u <;> first | rfl | cases h

/-- The loop hands a request on. -/
def handOn : List (Act 2 Bool) :=
  [.loop .main, .loop (.read 82), .loop .main, .enqueue NameArrays.zeros] ++
    List.replicate 4 (.pool .main)

/-- A worker comes to a client, and they open the pipes. -/
def meetUp (w : Fin 2) (t : Bool) : List (Act 2 Bool) :=
  List.replicate 8 (.pool (.worker w)) ++
    [.setup t 0, .desk w t 0, .setup t 0, .desk w t 0, .desk w t 3, .setup t 2, .desk w t 1,
      .setup t 2, .desk w t 0, .setup t 0, .desk w t 0, .setup t 0]

/-- The client that comes second gets the worker with the smaller number. -/
def bothConnect : List (Act 2 Bool) :=
  [.register true, .register false] ++ handOn ++ handOn ++
    meetUp ⟨1, Nat.one_lt_two⟩ true ++ meetUp ⟨0, Nat.two_pos⟩ false

theorem connects_bothConnect : ∃ s, (machine twoClients).run bothConnect = some s ∧
    s.setup false = .connected 0 ∧ s.setup true = .connected 1 ∧
    Pool.taken (poolOf twoClients bothConnect) <+: [true, false].map twoClients.conn ∧
    s.transit true = [] ∧
    ((∃ w, s.Serves twoClients w true ∧ 1 = sessionId w) ∨
      IsOver (s.clients.side true).server ∧ ∀ w, ¬ s.Serves twoClients w true) := by
  have hends : ((machine twoClients).run bothConnect).map (fun s => (s.setup false, s.setup true)) =
      some (.connected 0, .connected 1) := by decide +kernel
  obtain ⟨s, hrun, hs⟩ := Option.map_eq_some_iff.mp hends
  obtain ⟨hfirst, hsecond⟩ := Prod.mk.inj hs
  have hcalm : (machine twoClients).Meets Calm bothConnect := meets_calm (by decide)
  have hregistered : registered twoClients bothConnect = [true, false] := by decide +kernel
  obtain ⟨horder, -, -, hknows, -⟩ := connects twoClients_named hcalm hrun
  rw [hregistered] at horder
  obtain ⟨hempty, hserved⟩ := hknows true 1 hsecond
  exact ⟨s, hrun, hfirst, hsecond, horder, hempty, hserved⟩

end Ems.Service
