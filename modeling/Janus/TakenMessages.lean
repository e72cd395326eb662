import Janus.NonAdmin
import Janus.Revocation

/-!
# The messages that are handled

A step of a transport handles one message, opens or closes a session, or is an event of the
outside. What a step changes follows from the message that it takes and from `serve`.
-/

namespace Janus.Server

set_option autoImplicit false

open Storage

/-- A message that a transport takes, and for whom. -/
structure Taken where
  token : Str
  readFails : Bool
  who : Identity
  env : Env
  req : JSONRPCRequest

def Taken.incoming (m : Taken) : Incoming := ⟨m.env, m.who.name, m.who.role, m.who.scopes, m.req⟩

/-- A notification is not taken. -/
def readMessage (body : Str) : Option JSONRPCRequest :=
  (readRequest body).filter fun req => req.id ≠ .null

def taken (w : World) : Action → Option Taken
  | .postMcp env creds readFails body =>
    (resolveAuth readFails (extractToken creds) w).bind fun who =>
      (readMessage body).map fun req => ⟨extractToken creds, readFails, who, env, req⟩
  | .postMessages env isPost sessionID creds body =>
    if isPost then
      ((lookup sessionID w.sessions).filter fun s => DB.hashToken (extractToken creds) = s.tokenHash).bind
        fun s => (readMessage body).map fun req => ⟨extractToken creds, false, s.identity, env, req⟩
    else none
  | .openSSE _ _ _ | .closeSSE _ | .editToken _ | .oauthChange _ => none

def Action.isMessage : Action → Bool
  | .postMcp _ _ _ _ | .postMessages _ _ _ _ _ => true
  | .openSSE _ _ _ | .closeSSE _ | .editToken _ | .oauthChange _ => false

def Taken.serve (m : Taken) (w : World) : World × List CallEvent :=
  Server.serve m.env m.token m.readFails m.who m.req w

variable {w : World} {a : Action} {m : Taken}

theorem serve_eq (env : Env) (token : Str) (readFails : Bool) (who : Identity) (req : JSONRPCRequest)
    (w : World) : (serve env token readFails who req w).1 = { w with
      srv := if req.id = .null then w.srv else handleIncoming w.srv ⟨env, who.name, who.role, who.scopes, req⟩ } := by
  unfold serve
  split <;> rfl

theorem readMessage_of_read {body : Str} {req : JSONRPCRequest} (h : readRequest body = some req) :
    readMessage body = if req.id = .null then none else some req := by
  unfold readMessage
  rw [h]
  by_cases hid : req.id = .null
  · simp [Option.filter, hid]
  · simp [Option.filter, hid]

theorem readMessage_of_none {body : Str} (h : readRequest body = none) : readMessage body = none := by
  unfold readMessage
  rw [h]
  rfl

theorem readMessage_some {body : Str} {req : JSONRPCRequest} (h : readMessage body = some req) :
    readRequest body = some req ∧ req.id ≠ .null := by
  obtain ⟨hread, hid⟩ := Option.filter_eq_some_iff.mp h
  exact ⟨hread, by simpa using hid⟩

/-- A body is served if it is a message, and changes nothing otherwise. -/
theorem serve_readRequest (env : Env) (token : Str) (readFails : Bool) (who : Identity) (body : Str)
    (w : World) :
    ((readRequest body).elim (w, []) fun req => serve env token readFails who req w) =
      ((readMessage body).elim (w, []) fun req => serve env token readFails who req w) := by
  cases hread : readRequest body with
  | none => rw [readMessage_of_none hread]
  | some req =>
    rw [readMessage_of_read hread]
    by_cases hid : req.id = .null
    · rw [if_pos hid, Option.elim_some, Option.elim_none, serve, if_pos hid]
    · rw [if_neg hid]

/-- What is served of a body, said with the message that it is. -/
theorem serve_read (env : Env) (token : Str) (readFails : Bool) (who : Identity) (body : Str) (w : World) :
    ((readRequest body).elim (w, []) fun req => serve env token readFails who req w) =
      ((readMessage body).map fun req => Taken.mk token readFails who env req).elim (w, []) fun m => m.serve w := by
  rw [serve_readRequest]
  cases readMessage body <;> rfl

/-- A message that is taken is served, and one that is not changes nothing. -/
theorem step_message (h : a.isMessage = true) (w : World) :
    step w a = (taken w a).elim (w, []) fun m => m.serve w := by
  cases a with
  | openSSE _ _ _ | closeSSE _ | editToken _ | oauthChange _ => cases h
  | postMcp env creds readFails body =>
    simp only [step, serveStreamable, taken]
    cases resolveAuth readFails (extractToken creds) w with
    | none => rfl
    | some who =>
      rw [Option.bind_some, ← serve_read]
      cases readRequest body <;> rfl
  | postMessages env isPost sessionID creds body =>
    simp only [step, serveMessages, taken]
    cases isPost with
    | false => rfl
    | true =>
      cases lookup sessionID w.sessions with
      | none => rfl
      | some session =>
        by_cases hhash : DB.hashToken (extractToken creds) = session.tokenHash
        · rw [if_pos rfl, Option.filter_some, if_pos (decide_eq_true hhash), Option.bind_some, ← serve_read]
          simp only [Bool.not_true, Bool.false_eq_true, if_false, hhash, ne_eq, not_true_eq_false]
          cases readRequest body <;> rfl
        · simp [hhash, Option.filter]

/-- Any other event of the transports leaves the server alone. -/
theorem step_other (h : a.isMessage = false) (hedit : ∀ edit, a ≠ .editToken edit) (w : World) :
    ∃ sessions oauth, (step w a).1 = { w with sessions := sessions, oauth := oauth } := by
  cases a with
  | postMcp _ _ _ _ | postMessages _ _ _ _ _ => cases h
  | editToken edit => exact absurd rfl (hedit edit)
  | closeSSE _ | oauthChange _ => exact ⟨_, _, rfl⟩
  | openSSE sessionID creds readFails =>
    simp only [step, serveSSE]
    split
    · exact ⟨w.sessions, w.oauth, rfl⟩
    · split
      · exact ⟨w.sessions, w.oauth, rfl⟩
      · exact ⟨_, w.oauth, rfl⟩

theorem taken_of_other (h : a.isMessage = false) (w : World) : taken w a = none := by
  cases a with
  | postMcp _ _ _ _ | postMessages _ _ _ _ _ => cases h
  | openSSE _ _ _ | closeSSE _ | editToken _ | oauthChange _ => rfl

theorem taken_id (h : taken w a = some m) : m.req.id ≠ .null := by
  cases a with
  | openSSE _ _ _ | closeSSE _ | editToken _ | oauthChange _ => cases h
  | postMcp env creds readFails body =>
    obtain ⟨who, _, h⟩ := Option.bind_eq_some_iff.mp h
    obtain ⟨req, hreq, rfl⟩ := Option.map_eq_some_iff.mp h
    exact (readMessage_some hreq).2
  | postMessages env isPost sessionID creds body =>
    simp only [taken] at h
    split at h
    · obtain ⟨session, _, h⟩ := Option.bind_eq_some_iff.mp h
      obtain ⟨req, hreq, rfl⟩ := Option.map_eq_some_iff.mp h
      exact (readMessage_some hreq).2
    · cases h

/-- The server after a step: it handles the message that is taken. -/
theorem step_srv (hedit : ∀ edit, a ≠ .editToken edit) (w : World) :
    (step w a).1.srv = (taken w a).elim w.srv fun m => handleIncoming w.srv m.incoming := by
  cases h : a.isMessage with
  | false =>
    obtain ⟨_, _, hstep⟩ := step_other h hedit w
    rw [hstep, taken_of_other h]
    rfl
  | true =>
    rw [step_message h]
    cases hm : taken w a with
    | none => rfl
    | some m =>
      rw [Option.elim_some, Option.elim_some, Taken.serve, serve_eq, if_neg (taken_id hm)]
      rfl

/-- A message changes the server only. -/
theorem message_world (h : a.isMessage = true) (w : World) :
    ∃ srv, (step w a).1 = { w with srv := srv } := by
  rw [step_message h]
  cases taken w a with
  | none => exact ⟨w.srv, rfl⟩
  | some m => exact ⟨_, serve_eq m.env m.token m.readFails m.who m.req w⟩

theorem step_gatewayToken (w : World) (a : Action) : (step w a).1.gatewayToken = w.gatewayToken := by
  cases h : a.isMessage with
  | false =>
    by_cases hedit : ∀ edit, a ≠ .editToken edit
    · obtain ⟨_, _, hstep⟩ := step_other h hedit w
      rw [hstep]
    · obtain ⟨edit, rfl⟩ := not_forall_not.mp hedit
      rfl
  | true =>
    obtain ⟨_, hstep⟩ := message_world h w
    rw [hstep]

theorem step_tokens (hedit : ∀ edit, a ≠ .editToken edit) (w : World) :
    (step w a).1.srv.db.tokens = w.srv.db.tokens := by
  rw [step_srv hedit]
  cases taken w a with
  | none => rfl
  | some m => exact tokens_handleRequest m.env m.who.name m.who.role m.who.scopes m.req w.srv

/-- A session after a step was there before, or stands for what its token stood for. -/
theorem step_sessions {id : Str} {session : Session}
    (h : lookup id (step w a).1.sessions = some session) : lookup id w.sessions = some session ∨
      ∃ token readFails, resolveAuth readFails token w = some session.identity ∧
        session.tokenHash = DB.hashToken token := by
  cases hmessage : a.isMessage with
  | true =>
    obtain ⟨_, hstep⟩ := message_world hmessage w
    rw [hstep] at h
    exact .inl h
  | false =>
    cases a with
    | postMcp _ _ _ _ | postMessages _ _ _ _ _ => cases hmessage
    | editToken edit => exact .inl h
    | oauthChange oauth => exact .inl h
    | closeSSE sessionID => exact .inl (lookup_filter_some h)
    | openSSE sessionID creds readFails =>
      simp only [step, serveSSE] at h
      cases hres : resolveAuth readFails (extractToken creds) w with
      | none =>
        rw [hres] at h
        exact .inl h
      | some who =>
        simp only [hres] at h
        split at h
        · exact .inl h
        · by_cases hid : id = sessionID
          · subst hid
            rw [lookup_setMember_self, Option.some.injEq] at h
            subst h
            exact .inr ⟨extractToken creds, readFails, hres, rfl⟩
          · rw [lookup_setMember_of_ne hid] at h
            exact .inl h

/-- Whom a message is for: what its token stands for now, or what it stood for when its session
was opened. -/
theorem taken_cases (h : taken w a = some m) : resolveAuth m.readFails m.token w = some m.who ∨
    ∃ id session, lookup id w.sessions = some session ∧ session.identity = m.who ∧
      DB.hashToken m.token = session.tokenHash := by
  cases a with
  | openSSE _ _ _ | closeSSE _ | editToken _ | oauthChange _ => cases h
  | postMcp env creds readFails body =>
    obtain ⟨who, hwho, h⟩ := Option.bind_eq_some_iff.mp h
    obtain ⟨req, _, rfl⟩ := Option.map_eq_some_iff.mp h
    exact .inl hwho
  | postMessages env isPost sessionID creds body =>
    simp only [taken] at h
    split at h
    · obtain ⟨session, hsession, h⟩ := Option.bind_eq_some_iff.mp h
      obtain ⟨hlookup, hhash⟩ := Option.filter_eq_some_iff.mp hsession
      obtain ⟨req, _, rfl⟩ := Option.map_eq_some_iff.mp h
      exact .inr ⟨sessionID, session, hlookup, rfl, by simpa using hhash⟩
    · cases h

/-- A call on the streamable transport runs under what its token stands for. -/
theorem resolveAuth_of_reached {env : Env} {creds : Credentials} {readFails : Bool} {body : Str}
    {ev : CallEvent} (h : ev ∈ (step w (.postMcp env creds readFails body)).2) :
    resolveAuth ev.readFails ev.token w = some ev.identity := by
  rw [step_message rfl] at h
  cases hm : taken w (.postMcp env creds readFails body) with
  | none =>
    rw [hm] at h
    cases h
  | some m =>
    rw [hm] at h
    obtain ⟨htoken, hreads, hidentity⟩ := event_serve h
    obtain ⟨who, hwho, hbody⟩ := Option.bind_eq_some_iff.mp hm
    obtain ⟨req, _, rfl⟩ := Option.map_eq_some_iff.mp hbody
    rw [htoken, hreads, hidentity]
    exact hwho

end Janus.Server
