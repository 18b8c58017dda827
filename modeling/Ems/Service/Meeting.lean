import Ems.Service.Names

/-!
# A client and its worker

Both ends of a client's pipes are opened with calls that wait for each other, and in
between the number of the session goes through the response pipe. `Meets` is how far the two
can be apart on the way; neither of them leaves it (`Meets.setup`, `Meets.desk`).
-/

namespace Ems.Service

open Base Conc Wire Proto Server

variable {n : Nat} {T : Type}

/-- What a client has read of the number of its session. -/
def Setup.got : Setup → Option (List UInt8)
  | .inResp => some []
  | .readId got => some got
  | _ => none

/-- The client has not come out of its first `open`. -/
def Setup.isEarly : Setup → Bool
  | .openResp => true
  | .inResp => true
  | _ => false

/-- The worker has sent the number, and is not yet in `handle_requests`. -/
def Desk.hasSent : Desk → Bool
  | .openReq => true
  | .inReq => true
  | _ => false

/-- How far the worker with the number `id` and its client have come, and what is in the
response pipe. -/
inductive Meets (id : UInt32) : Desk → Setup → List UInt8 → Prop where
  | apart {u} (hu : u.isEarly = true) : Meets id .openResp u []
  | opening {u} (hu : u.isEarly = true ∨ u = .readId []) : Meets id .inResp u []
  | writing {left u got bytes} (hu : u.got = some got) (hlen : got.length < 4) (hl : left ≠ [])
      (h : got ++ bytes ++ left = le4 id) : Meets id (.writeId left) u bytes
  | written {d u got bytes} (hd : d.hasSent = true) (hu : u.got = some got)
      (hlen : got.length < 4) (h : got ++ bytes = le4 id) : Meets id d u bytes
  | known {d} (hd : d.hasSent = true) : Meets id d (.openReq id) []
  | entering {d} (hd : d.hasSent = true ∨ d = .requests) : Meets id d (.inReq id) []
  | talking {d} (hd : d.reqOpened = true) : Meets id d (.connected id) []

/-- The session is over at the server's end. -/
def IsOver (server : Proto.Server) : Prop := ∃ status, server = .done status

variable {x : Setting n T} {s : State n T} {w : Fin n} {t : T}

/-! ## Where the worker is -/

section Places

variable {id : UInt32} {u : Setup} {left bytes : List UInt8}

theorem Meets.at_openResp (h : Meets id .openResp u bytes) : u.isEarly = true ∧ bytes = [] := by
  cases h with
  | apart hu => exact ⟨hu, rfl⟩
  | written hd => cases hd
  | known hd => cases hd
  | entering hd => rcases hd with hd | hd <;> cases hd
  | talking hd => cases hd

theorem Meets.at_inResp (h : Meets id .inResp u bytes) :
    (u.isEarly = true ∨ u = .readId []) ∧ bytes = [] := by
  cases h with
  | opening hu => exact ⟨hu, rfl⟩
  | written hd => cases hd
  | known hd => cases hd
  | entering hd => rcases hd with hd | hd <;> cases hd
  | talking hd => cases hd

theorem Meets.at_writeId (h : Meets id (.writeId left) u bytes) :
    ∃ got, u.got = some got ∧ got.length < 4 ∧ left ≠ [] ∧ got ++ bytes ++ left = le4 id := by
  cases h with
  | writing hu hlen hl heq => exact ⟨_, hu, hlen, hl, heq⟩
  | written hd => cases hd
  | known hd => cases hd
  | entering hd => rcases hd with hd | hd <;> cases hd
  | talking hd => cases hd

/-- A worker that handles requests has waited for its client. -/
theorem Meets.at_requests (h : Meets id .requests u bytes) :
    bytes = [] ∧ (u = .inReq id ∨ u = .connected id) := by
  cases h with
  | written hd => cases hd
  | known hd => cases hd
  | entering => exact ⟨rfl, .inl rfl⟩
  | talking => exact ⟨rfl, .inr rfl⟩

theorem Meets.at_closed (h : Meets id .closed u bytes) : bytes = [] ∧ u = .connected id := by
  cases h with
  | written hd => cases hd
  | known hd => cases hd
  | entering hd => rcases hd with hd | hd <;> cases hd
  | talking => exact ⟨rfl, rfl⟩

end Places

/-! ## The steps of the two -/

/-- The client goes on. -/
theorem Meets.setup {u : Setup} {bytes : List UInt8}
    (h : Meets (sessionId w) (s.desk w) (s.setup t) (s.transit t))
    (hw : ∀ v, s.Serves x v t → v = w) (hs : SetupStep x s t u bytes) :
    Meets (sessionId w) (s.desk w) u bytes := by
  cases hs with
  | openResp hst =>
    rw [hst] at h
    generalize s.desk w = d at h ⊢
    generalize s.transit t = b at h ⊢
    cases h with
    | apart => exact .apart rfl
    | opening => exact .opening (.inl rfl)
    | writing hu => cases hu
    | written _ hu => cases hu
  | respOpen hst hv hd =>
    cases hw _ hv
    rw [hst] at h
    generalize s.desk w = d at h hd ⊢
    generalize s.transit t = b at h ⊢
    cases h with
    | apart => cases hd
    | opening => exact .opening (.inr rfl)
    | writing hu hlen hl heq => cases hu; exact .writing rfl hlen hl heq
    | written hd' hu hlen heq => cases hu; exact .written hd' rfl hlen heq
  | @readPart got k hst hpos hk hlen =>
    rw [hst] at h
    generalize s.desk w = d at h ⊢
    generalize s.transit t = b at h hpos hk hlen ⊢
    cases h with
    | apart hu => cases hu
    | opening hu => exact absurd (Nat.le_zero.mp hk) (by omega)
    | writing hu _ hl heq =>
      cases hu
      refine .writing rfl hlen hl ?_
      rw [List.append_assoc got, List.take_append_drop]
      exact heq
    | written hd' hu _ heq =>
      cases hu
      refine .written hd' rfl hlen ?_
      rw [List.append_assoc, List.take_append_drop]
      exact heq
  | @readLast got k hst hpos hk hlen =>
    rw [hst] at h
    generalize s.desk w = d at h ⊢
    generalize s.transit t = b at h hpos hk hlen ⊢
    have hsplit : got ++ b = got ++ b.take k ++ b.drop k := by
      rw [List.append_assoc, List.take_append_drop]
    cases h with
    | apart hu => cases hu
    | opening hu => exact absurd (Nat.le_zero.mp hk) (by omega)
    | writing hu _ hl heq =>
      -- the last byte is still with the worker
      cases hu
      rw [hsplit, List.append_assoc] at heq
      have hfull := congrArg List.length heq
      rw [List.length_append, hlen, le4_length, List.length_append] at hfull
      exact absurd (List.length_pos_iff.mpr hl) (by omega)
    | written hd' hu _ heq =>
      cases hu
      rw [hsplit] at heq
      have hfull := congrArg List.length heq
      rw [List.length_append, hlen, le4_length] at hfull
      have hnil : b.drop k = [] := List.length_eq_zero_iff.mp (by omega)
      rw [hnil, List.append_nil] at heq
      rw [heq, uint_le4, hnil]
      exact .known hd'
  | openReq hst =>
    rw [hst] at h
    generalize s.desk w = d at h ⊢
    generalize s.transit t = b at h ⊢
    cases h with
    | apart hu => cases hu
    | opening hu => rcases hu with hu | hu <;> cases hu
    | writing hu => cases hu
    | written _ hu => cases hu
    | known hd' => exact .entering (.inl hd')
  | reqOpen hst hv hd =>
    cases hw _ hv
    rw [hst] at h
    generalize s.desk w = d at h hd ⊢
    generalize s.transit t = b at h ⊢
    cases h with
    | apart hu => cases hu
    | opening hu => rcases hu with hu | hu <;> cases hu
    | writing hu => cases hu
    | written _ hu => cases hu
    | entering => exact .talking hd

/-- The worker goes on. -/
theorem Meets.desk {d : Desk} {bytes : List UInt8}
    (h : Meets (sessionId w) (s.desk w) (s.setup t) (s.transit t))
    (hover : IsOver (s.clients.side t).server → (s.setup t).isConnected = true)
    (hs : DeskStep s w t d bytes) : Meets (sessionId w) d (s.setup t) bytes := by
  cases hs with
  | openResp hd =>
    rw [hd] at h
    obtain ⟨hu, hb⟩ := h.at_openResp
    rw [hb]
    exact .opening (.inl hu)
  | respOpen hd hu =>
    rw [hd] at h
    obtain ⟨hearly, hb⟩ := h.at_inResp
    have hne : le4 (sessionId w) ≠ [] := fun hnil => by
      have hlen := congrArg List.length hnil
      rw [le4_length] at hlen
      cases hlen
    -- the client has opened the pipe, and read nothing
    have hgot : (s.setup t).got = some [] := by
      generalize s.setup t = u at hu hearly ⊢
      rcases hearly with hearly | rfl
      · cases u with
        | inResp => rfl
        | openResp => cases hu
        | _ => cases hearly
      · rfl
    rw [hb]
    exact .writing hgot (by decide) hne rfl
  | @writePart left k hd hpos hk =>
    rw [hd] at h
    obtain ⟨got, hu, hlen, hl, heq⟩ := h.at_writeId
    refine .writing hu hlen (fun hnil => ?_) ?_
    · have hzero := congrArg List.length hnil
      rw [List.length_drop, List.length_nil] at hzero
      omega
    · rw [← heq]
      simp
  | writeLast hd hpos =>
    rw [hd] at h
    obtain ⟨got, hu, hlen, hl, heq⟩ := h.at_writeId
    refine .written rfl hu hlen ?_
    rw [← heq, List.append_assoc]
  | openReq hd =>
    rw [hd] at h
    generalize s.setup t = u at h ⊢
    generalize s.transit t = b at h ⊢
    cases h with
    | written _ hu hlen heq => exact .written rfl hu hlen heq
    | known => exact .known rfl
    | entering => exact .entering (.inl rfl)
    | talking hd' => cases hd'
  | reqOpen hd hu =>
    rw [hd] at h
    generalize s.setup t = u at h hu ⊢
    generalize s.transit t = b at h ⊢
    cases h with
    | written _ hu' =>
      cases u with
      | inReq => cases hu'
      | connected => cases hu'
      | _ => cases hu
    | known => cases hu
    | entering => exact .entering (.inr rfl)
    | talking => exact .talking rfl
  | close hd hs =>
    have hcon := hover ⟨_, hs⟩
    rw [hd] at h
    obtain ⟨hb, hu⟩ := h.at_requests
    rw [hb]
    rcases hu with hu | hu
    · rw [hu] at hcon
      cases hcon
    · rw [hu]
      exact .talking rfl

end Ems.Service
