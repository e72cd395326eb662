import Mathlib.Data.Set.Function
import Janus.Transports

/-!
# Sessions of the SSE transport

The handlers of streams and of POST requests run at the same time and share the map of
the sessions. `Hub.act` lets them take their steps in any order; what happens under the
lock of the server is one step. A POST keeps the session that it found, also when the
stream closes meanwhile.
-/

namespace Janus.Server

set_option autoImplicit false

open Storage

/-- A session as the map holds it: the stream it belongs to, and what that was opened as. -/
structure SessionRef where
  stream : Nat
  session : Session

inductive StreamPhase where
  | authenticated
  | registered
  | returned
  deriving DecidableEq

structure Stream where
  sessionID : Str
  token : Str
  session : Session
  phase : StreamPhase

inductive PostPhase where
  | arrived
  | found (ref : SessionRef)
  | executed (ref : SessionRef) (resp : JSONRPCResponse)
  | replied (reply : Reply)

structure Post where
  isPost : Bool
  sessionID : Str
  creds : Credentials
  body : Str
  phase : PostPhase

/-- The server with all its handlers, those that have returned included. -/
structure Hub where
  srv : MCPServer
  gatewayToken : Str
  oauth : Option (Str → Option OAuthClaims)
  maxSessions : Nat
  sessions : List (Str × SessionRef)
  streams : Nat → Option Stream
  posts : Nat → Option Post

def newHub (srv : MCPServer) (gatewayToken : Str) (oauth : Option (Str → Option OAuthClaims))
    (maxSessions : Nat) : Hub :=
  ⟨srv, gatewayToken, oauth, maxSessions, [], fun _ => none, fun _ => none⟩

/-- The server as the handlers that are not interrupted see it. -/
def Hub.world (h : Hub) : World where
  srv := h.srv
  gatewayToken := h.gatewayToken
  oauth := h.oauth
  sessions := h.sessions.map fun m => (m.1, m.2.session)
  maxSessions := h.maxSessions

/-- What a POST does to others: a request run under an identity, a response on a stream. -/
inductive Effect where
  | executed (token : Str) (stream : Nat) (who : Identity) (req : JSONRPCRequest)
  | written (token : Str) (stream : Nat) (resp : JSONRPCResponse)

def Hub.setStream (h : Hub) (i : Nat) (st : Stream) : Hub :=
  { h with streams := fun j => if j = i then some st else h.streams j }

def Hub.setPost (h : Hub) (k : Nat) (p : Post) : Hub :=
  { h with posts := fun j => if j = k then some p else h.posts j }

def Hub.streamIn (h : Hub) (phase : StreamPhase) (i : Nat) : Option Stream :=
  (h.streams i).filter fun st => st.phase = phase

/-- Authentication. A writer that cannot be flushed is refused. -/
def Hub.openStream (h : Hub) (i : Nat) (sessionID : Str) (creds : Credentials)
    (readFails flushes : Bool) : Hub :=
  match h.streams i, resolveAuth readFails (extractToken creds) h.world with
  | none, some who =>
    if flushes then
      h.setStream i ⟨sessionID, extractToken creds, ⟨who, DB.hashToken (extractToken creds)⟩,
        .authenticated⟩
    else h
  | _, _ => h

/-- The capacity check and the insertion, under the lock. -/
def Hub.register (h : Hub) (i : Nat) : Hub :=
  match h.streamIn .authenticated i with
  | none => h
  | some st =>
    if h.sessions.length ≥ h.maxSessions then h.setStream i { st with phase := .returned }
    else
      { h.setStream i { st with phase := .registered } with
        sessions := setMember st.sessionID ⟨i, st.session⟩ h.sessions }

/-- The deferred deletion, with which the handler returns. -/
def Hub.unregister (h : Hub) (i : Nat) : Hub :=
  match h.streamIn .registered i with
  | none => h
  | some st =>
    { h.setStream i { st with phase := .returned } with
      sessions := h.sessions.filter fun m => m.1 ≠ st.sessionID }

def Hub.receive (h : Hub) (k : Nat) (isPost : Bool) (sessionID : Str) (creds : Credentials)
    (body : Str) : Hub :=
  match h.posts k with
  | some _ => h
  | none => h.setPost k ⟨isPost, sessionID, creds, body, .arrived⟩

def Hub.replyTo (h : Hub) (k : Nat) (p : Post) (reply : Reply) : Hub :=
  h.setPost k { p with phase := .replied reply }

/-- The lookup, under the lock. -/
def Hub.lookUp (h : Hub) (k : Nat) : Hub :=
  match h.posts k with
  | some ⟨isPost, sessionID, creds, body, .arrived⟩ =>
    let p : Post := ⟨isPost, sessionID, creds, body, .arrived⟩
    if !isPost then h.replyTo k p (.error 405 "Method not allowed".toList)
    else
      match lookup sessionID h.sessions with
      | none => h.replyTo k p (.error 400 "Session not found or expired".toList)
      | some ref => h.setPost k { p with phase := .found ref }
  | _ => h

/-- The comparison of the tokens, and the request run under the identity of the session. -/
def Hub.execute (h : Hub) (k : Nat) (env : Env) : Hub × List Effect :=
  match h.posts k with
  | some ⟨isPost, sessionID, creds, body, .found ref⟩ =>
    let p : Post := ⟨isPost, sessionID, creds, body, .found ref⟩
    if DB.hashToken (extractToken creds) ≠ ref.session.tokenHash then
      (h.replyTo k p (.error 401 "Unauthorized: token does not match session".toList), [])
    else
      match readRequest body with
      | none => (h.replyTo k p (.error 400 "Invalid JSON-RPC request".toList), [])
      | some req =>
        if req.id = .null then (h.replyTo k p .accepted, [])
        else
          let who := ref.session.identity
          let (resp, srv) := handleRequest env who.name who.role who.scopes req h.srv
          ({ h.setPost k { p with phase := .executed ref resp } with srv := srv },
            [.executed (extractToken creds) ref.stream who req])
  | _ => (h, [])

/-- The response goes to the stream, and then into the reply. -/
def Hub.write (h : Hub) (k : Nat) : Hub × List Effect :=
  match h.posts k with
  | some ⟨isPost, sessionID, creds, body, .executed ref resp⟩ =>
    (h.replyTo k ⟨isPost, sessionID, creds, body, .executed ref resp⟩ (.response resp),
      [.written (extractToken creds) ref.stream resp])
  | _ => (h, [])

inductive HubAction where
  | openStream (i : Nat) (sessionID : Str) (creds : Credentials) (readFails flushes : Bool)
  | register (i : Nat)
  | unregister (i : Nat)
  | receive (k : Nat) (isPost : Bool) (sessionID : Str) (creds : Credentials) (body : Str)
  | lookUp (k : Nat)
  | execute (k : Nat) (env : Env)
  | write (k : Nat)
  /-- Anything that the rest of the program does. -/
  | outside (srv : MCPServer) (oauth : Option (Str → Option OAuthClaims))

def Hub.act (h : Hub) : HubAction → Hub × List Effect
  | .openStream i sessionID creds readFails flushes =>
    (h.openStream i sessionID creds readFails flushes, [])
  | .register i => (h.register i, [])
  | .unregister i => (h.unregister i, [])
  | .receive k isPost sessionID creds body => (h.receive k isPost sessionID creds body, [])
  | .lookUp k => (h.lookUp k, [])
  | .execute k env => h.execute k env
  | .write k => h.write k
  | .outside srv oauth => ({ h with srv := srv, oauth := oauth }, [])

def HubAction.token : HubAction → Option Str
  | .openStream _ _ creds _ _ => some (extractToken creds)
  | .receive _ _ _ creds _ => some (extractToken creds)
  | _ => none

def presentedTokens (actions : List HubAction) : Set Str := {t | t ∈ actions.filterMap HubAction.token}

@[simp] theorem Hub.setStream_self (h : Hub) (i : Nat) (st : Stream) :
    (h.setStream i st).streams i = some st := if_pos rfl

@[simp] theorem Hub.setPost_self (h : Hub) (k : Nat) (p : Post) : (h.setPost k p).posts k = some p :=
  if_pos rfl

@[simp] theorem Hub.sessions_setPost (h : Hub) (k : Nat) (p : Post) :
    (h.setPost k p).sessions = h.sessions := rfl

@[simp] theorem Hub.srv_setPost (h : Hub) (k : Nat) (p : Post) : (h.setPost k p).srv = h.srv := rfl

@[simp] theorem Hub.world_setStream (h : Hub) (i : Nat) (st : Stream) :
    (h.setStream i st).world = h.world := rfl

@[simp] theorem Hub.world_setPost (h : Hub) (k : Nat) (p : Post) : (h.setPost k p).world = h.world := rfl

/-- An opening in one piece is `serveSSE`. -/
theorem Hub.world_open (h : Hub) {i : Nat} (hi : h.streams i = none) (sessionID : Str)
    (creds : Credentials) (readFails : Bool) :
    ((h.openStream i sessionID creds readFails true).register i).world =
      serveSSE sessionID creds readFails h.world := by
  have hlen : h.world.sessions.length = h.sessions.length := List.length_map ..
  unfold Hub.openStream serveSSE
  rw [hi]
  cases resolveAuth readFails (extractToken creds) h.world with
  | none => simp only [Hub.register, Hub.streamIn, hi, Option.filter_none]
  | some who =>
    simp only [if_true, Hub.register, Hub.streamIn, Hub.setStream_self, Option.filter_some, decide_true, hlen]
    split
    · rename_i hfull
      exact (if_pos (c := h.sessions.length ≥ h.maxSessions) hfull).symm
    · rename_i hfull
      refine Eq.trans ?_ (if_neg (c := h.sessions.length ≥ h.maxSessions) hfull).symm
      simp only [Hub.world, Hub.setStream, setMember_map SessionRef.session]

theorem Hub.world_unregister (h : Hub) {i : Nat} {st : Stream}
    (hst : h.streamIn .registered i = some st) :
    (h.unregister i).world = (step h.world (.closeSSE st.sessionID)).1 := by
  simp only [Hub.unregister, hst, step, Hub.world, Hub.setStream, List.filter_map, Function.comp_def]

def Hub.post (h : Hub) (k : Nat) (env : Env) (isPost : Bool) (sessionID : Str) (creds : Credentials)
    (body : Str) : Hub :=
  ((((h.receive k isPost sessionID creds body).lookUp k).execute k env).1.write k).1

/-- A POST in one piece is `answerMessages`. -/
theorem Hub.world_post (h : Hub) {k : Nat} (hk : h.posts k = none) (env : Env) (isPost : Bool)
    (sessionID : Str) (creds : Credentials) (body : Str) :
    (h.post k env isPost sessionID creds body).world =
        (answerMessages env isPost sessionID creds body h.world).world ∧
      (h.post k env isPost sessionID creds body).posts k = some ⟨isPost, sessionID, creds, body,
        .replied (answerMessages env isPost sessionID creds body h.world).reply⟩ := by
  have hfind : lookup sessionID h.world.sessions =
      (lookup sessionID h.sessions).map SessionRef.session := lookup_map SessionRef.session ..
  have hreceive : h.receive k isPost sessionID creds body =
      h.setPost k ⟨isPost, sessionID, creds, body, .arrived⟩ := by
    rw [Hub.receive, hk]
  simp only [Hub.post, hreceive, answerMessages, hfind]
  simp only [Hub.lookUp, Hub.setPost_self, Hub.sessions_setPost]
  cases isPost with
  | false => simp [Hub.replyTo, Hub.execute, Hub.write, Posted.refuse]
  | true =>
    cases lookup sessionID h.sessions with
    | none => simp [Hub.replyTo, Hub.execute, Hub.write, Posted.refuse]
    | some ref =>
      simp only [Bool.not_true, Bool.false_eq_true, if_false, Option.map_some, Hub.execute, Hub.setPost_self]
      by_cases hhash : DB.hashToken (extractToken creds) = ref.session.tokenHash
      · simp only [hhash, ne_eq, not_true_eq_false, if_false]
        cases readRequest body with
        | none => simp [Hub.replyTo, Hub.write, Posted.refuse]
        | some req =>
          by_cases hid : req.id = .null
          · simp [hid, Hub.replyTo, Hub.write]
          · simp only [hid, if_false, Hub.write, Hub.setPost_self, Hub.srv_setPost, Hub.replyTo]
            exact ⟨rfl, rfl⟩
      · simp [hhash, Hub.replyTo, Hub.write, Posted.refuse]

/-- The sessions are within the capacity, and the handler of each one's stream runs. -/
structure Hub.Safe (h : Hub) : Prop where
  ids : (h.sessions.map Prod.fst).Nodup
  capacity : h.sessions.length ≤ h.maxSessions
  running : ∀ m ∈ h.sessions, ∃ st, h.streams m.2.stream = some st ∧ st.sessionID = m.1 ∧
    st.session = m.2.session ∧ st.phase ≠ .returned

/-- The POST presented the token that the stream was opened with, and runs as its session. -/
def SameToken (h : Hub) : Effect → Prop
  | .executed token stream who _ =>
    ∃ st, h.streams stream = some st ∧ st.token = token ∧ st.session.identity = who
  | .written token stream _ => ∃ st, h.streams stream = some st ∧ st.token = token

/-- What a POST keeps of the stream that it found. -/
def Hub.Keeps (h : Hub) (p : Post) : Prop :=
  match p.phase with
  | .arrived => True
  | .found ref => ∃ st, h.streams ref.stream = some st ∧ st.session = ref.session
  | .executed ref _ => ∃ st, h.streams ref.stream = some st ∧ st.token = extractToken p.creds
  | .replied _ => True

/-- The invariant. All tokens come from `tokens`. -/
structure Hub.Sound (tokens : Set Str) (h : Hub) : Prop where
  ids : (h.sessions.map Prod.fst).Nodup
  capacity : h.sessions.length ≤ h.maxSessions
  registered : ∀ m ∈ h.sessions, ∃ st, h.streams m.2.stream = some st ∧ st.sessionID = m.1 ∧
    st.session = m.2.session ∧ st.phase = .registered
  opened : ∀ i st, h.streams i = some st →
    st.token ∈ tokens ∧ st.session.tokenHash = DB.hashToken st.token
  presented : ∀ k p, h.posts k = some p → extractToken p.creds ∈ tokens
  keeps : ∀ k p, h.posts k = some p → h.Keeps p

theorem Hub.Sound.safe {tokens : Set Str} {h : Hub} (hs : h.Sound tokens) : h.Safe := by
  refine ⟨hs.ids, hs.capacity, ?_⟩
  intro m hm
  obtain ⟨st, hst, hid, hsession, hphase⟩ := hs.registered m hm
  refine ⟨st, hst, hid, hsession, ?_⟩
  rw [hphase]
  exact StreamPhase.noConfusion

section Streams
variable {tokens : Set Str} {h : Hub} {i : Nat} {st : Stream}

theorem Hub.streamIn_eq_some {phase : StreamPhase} :
    h.streamIn phase i = some st ↔ h.streams i = some st ∧ st.phase = phase := by
  rw [streamIn, Option.filter_eq_some_iff, decide_eq_true_eq]

theorem Hub.setStream_of_ne {j : Nat} (hj : j ≠ i) : (h.setStream i st).streams j = h.streams j :=
  if_neg hj

/-- A stream is there for good, if the one that is set has the token and the session of the one
that it replaces. -/
theorem Hub.streams_setStream {j : Nat} {st' : Stream}
    (hold : ∀ st, h.streams i = some st → st.token = st'.token ∧ st.session = st'.session)
    (hst : h.streams j = some st) : ∃ st'', (h.setStream i st').streams j = some st'' ∧
      st''.token = st.token ∧ st''.session = st.session := by
  by_cases hj : j = i
  · subst hj
    exact ⟨st', setStream_self .., (hold st hst).1.symm, (hold st hst).2.symm⟩
  · exact ⟨st, (setStream_of_ne hj).trans hst, rfl, rfl⟩

theorem Hub.Keeps.mono {h' : Hub} {p : Post} (hkeep : h.Keeps p)
    (hstreams : ∀ j st, h.streams j = some st → ∃ st', h'.streams j = some st' ∧
      st'.token = st.token ∧ st'.session = st.session) : h'.Keeps p := by
  unfold Hub.Keeps at hkeep ⊢
  split
  · trivial
  · rename_i ref href
    rw [href] at hkeep
    obtain ⟨st, hst, hsession⟩ := hkeep
    obtain ⟨st', hst', _, hsame⟩ := hstreams ref.stream st hst
    exact ⟨st', hst', hsame.trans hsession⟩
  · rename_i ref resp href
    rw [href] at hkeep
    obtain ⟨st, hst, htoken⟩ := hkeep
    obtain ⟨st', hst', hsame, _⟩ := hstreams ref.stream st hst
    exact ⟨st', hst', hsame.trans htoken⟩
  · trivial

/-- A stream is set, and the map of the sessions becomes one whose entries are those of other
streams, or the entry of this one when it is registered. -/
theorem Hub.Sound.setStream (hs : h.Sound tokens) (st : Stream) (htoken : st.token ∈ tokens)
    (hhash : st.session.tokenHash = DB.hashToken st.token)
    (hold : ∀ st', h.streams i = some st' → st'.token = st.token ∧ st'.session = st.session)
    {sessions : List (Str × SessionRef)} (hids : (sessions.map Prod.fst).Nodup)
    (hcap : sessions.length ≤ h.maxSessions)
    (hentries : ∀ m ∈ sessions, (m ∈ h.sessions ∧ m.2.stream ≠ i) ∨
      (st.phase = .registered ∧ m = (st.sessionID, ⟨i, st.session⟩))) :
    { h.setStream i st with sessions := sessions }.Sound tokens := by
  refine ⟨hids, hcap, ?_, ?_, hs.presented, ?_⟩
  · intro m hm
    rcases hentries m hm with ⟨hmem, hne⟩ | ⟨hphase, rfl⟩
    · obtain ⟨st', hst', hrest⟩ := hs.registered m hmem
      exact ⟨st', (setStream_of_ne hne).trans hst', hrest⟩
    · exact ⟨st, setStream_self .., rfl, rfl, hphase⟩
  · intro j st' hst'
    by_cases hj : j = i
    · subst hj
      have heq : st = st' := Option.some.inj ((setStream_self h j st).symm.trans hst')
      rw [← heq]
      exact ⟨htoken, hhash⟩
    · exact hs.opened j st' ((setStream_of_ne hj).symm.trans hst')
  · exact fun k p hp => (hs.keeps k p hp).mono fun j st' hst' => streams_setStream hold hst'

theorem Hub.Sound.stream_ne (hs : h.Sound tokens)
    (hnot : ∀ st, h.streams i = some st → st.phase ≠ .registered) :
    ∀ m ∈ h.sessions, m.2.stream ≠ i := by
  rintro m hm rfl
  obtain ⟨st, hst, _, _, hphase⟩ := hs.registered m hm
  exact hnot st hst hphase

theorem Hub.Sound.openStream (hs : h.Sound tokens) {sessionID : Str} {creds : Credentials}
    (htoken : extractToken creds ∈ tokens) (i : Nat) (readFails flushes : Bool) :
    (h.openStream i sessionID creds readFails flushes).Sound tokens := by
  unfold Hub.openStream
  split
  · rename_i who hnone _
    split
    · refine hs.setStream _ htoken rfl ?_ hs.ids hs.capacity ?_
      · intro st hst
        rw [hnone] at hst
        cases hst
      · intro m hm
        refine Or.inl ⟨hm, hs.stream_ne ?_ m hm⟩
        intro st hst
        rw [hnone] at hst
        cases hst
    · exact hs
  · exact hs

theorem Hub.Sound.register (hs : h.Sound tokens) (i : Nat) : (h.register i).Sound tokens := by
  unfold Hub.register
  split
  · exact hs
  · rename_i st hin
    obtain ⟨hst, hphase⟩ := streamIn_eq_some.mp hin
    obtain ⟨htoken, hhash⟩ := hs.opened i st hst
    have hsame : ∀ st', h.streams i = some st' → st'.token = st.token ∧ st'.session = st.session := by
      intro st' hst'
      cases hst.symm.trans hst'
      exact ⟨rfl, rfl⟩
    have hothers : ∀ m ∈ h.sessions, m.2.stream ≠ i := by
      refine hs.stream_ne ?_
      intro st' hst'
      cases hst.symm.trans hst'
      rw [hphase]
      exact StreamPhase.noConfusion
    split
    · exact hs.setStream { st with phase := .returned } htoken hhash hsame hs.ids hs.capacity
        fun m hm => Or.inl ⟨hm, hothers m hm⟩
    · rename_i hfull
      refine hs.setStream { st with phase := .registered } htoken hhash hsame
        (nodup_setMember _ _ hs.ids) ?_ ?_
      · have hlen := length_setMember_le st.sessionID (⟨i, st.session⟩ : SessionRef) h.sessions
        omega
      · intro m hm
        rcases mem_of_mem_setMember hm with hnew | hold
        · exact Or.inr ⟨rfl, hnew⟩
        · exact Or.inl ⟨hold, hothers m hold⟩

theorem Hub.Sound.unregister (hs : h.Sound tokens) (i : Nat) : (h.unregister i).Sound tokens := by
  unfold Hub.unregister
  split
  · exact hs
  · rename_i st hin
    obtain ⟨hst, _⟩ := streamIn_eq_some.mp hin
    obtain ⟨htoken, hhash⟩ := hs.opened i st hst
    refine hs.setStream { st with phase := .returned } htoken hhash ?_ ?_ ?_ ?_
    · intro st' hst'
      cases hst.symm.trans hst'
      exact ⟨rfl, rfl⟩
    · exact hs.ids.sublist (List.filter_sublist.map Prod.fst)
    · exact (List.length_filter_le _ _).trans hs.capacity
    · intro m hm
      obtain ⟨hmem, hid⟩ := List.mem_filter.mp hm
      refine Or.inl ⟨hmem, ?_⟩
      rintro rfl
      -- An entry of this stream would have its id.
      obtain ⟨st', hst', hid', _⟩ := hs.registered m hmem
      cases hst.symm.trans hst'
      exact absurd hid'.symm (by simpa using hid)

end Streams

section Posts
variable {tokens : Set Str} {h : Hub} {k : Nat} {p : Post}

theorem Hub.Sound.setPost (hs : h.Sound tokens) (htoken : extractToken p.creds ∈ tokens)
    (hkeeps : h.Keeps p) (k : Nat) (srv : MCPServer) :
    { h.setPost k p with srv := srv }.Sound tokens := by
  refine ⟨hs.ids, hs.capacity, hs.registered, hs.opened, ?_, ?_⟩
  · intro j q hq
    by_cases hj : j = k
    · have heq : p = q := Option.some.inj ((if_pos hj).symm.trans hq)
      exact heq ▸ htoken
    · exact hs.presented j q ((if_neg hj).symm.trans hq)
  · intro j q hq
    by_cases hj : j = k
    · have heq : p = q := Option.some.inj ((if_pos hj).symm.trans hq)
      exact heq ▸ hkeeps
    · exact hs.keeps j q ((if_neg hj).symm.trans hq)

theorem Hub.Sound.replyTo (hs : h.Sound tokens) (hp : h.posts k = some p) (reply : Reply) :
    (h.replyTo k p reply).Sound tokens :=
  hs.setPost (p := { p with phase := .replied reply }) (hs.presented k p hp) trivial k h.srv

theorem Hub.Sound.receive (hs : h.Sound tokens) {creds : Credentials}
    (htoken : extractToken creds ∈ tokens) (k : Nat) (isPost : Bool) (sessionID body : Str) :
    (h.receive k isPost sessionID creds body).Sound tokens := by
  unfold Hub.receive
  split
  · exact hs
  · exact hs.setPost (p := ⟨isPost, sessionID, creds, body, .arrived⟩) htoken trivial k h.srv

theorem Hub.Sound.lookUp (hs : h.Sound tokens) (k : Nat) : (h.lookUp k).Sound tokens := by
  unfold Hub.lookUp
  split
  · rename_i isPost sessionID creds body hp
    dsimp only
    split
    · exact hs.replyTo hp _
    · split
      · exact hs.replyTo hp _
      · rename_i ref href
        have htoken : extractToken creds ∈ tokens := hs.presented k _ hp
        refine hs.setPost (p := ⟨isPost, sessionID, creds, body, .found ref⟩) htoken ?_ k h.srv
        obtain ⟨st, hst, _, hsession, _⟩ := hs.registered _ (mem_of_lookup href)
        exact ⟨st, hst, hsession⟩
  · exact hs

/-- The tokens are compared by their digests, which do not collide. -/
theorem Hub.Sound.found_token (hs : h.Sound tokens) (hcoll : Set.InjOn DB.hashToken tokens)
    {ref : SessionRef} (hp : h.posts k = some p) (hphase : p.phase = .found ref)
    (hhash : DB.hashToken (extractToken p.creds) = ref.session.tokenHash) :
    ∃ st, h.streams ref.stream = some st ∧ st.token = extractToken p.creds ∧
      st.session = ref.session := by
  have hkeep := hs.keeps k p hp
  unfold Hub.Keeps at hkeep
  rw [hphase] at hkeep
  obtain ⟨st, hst, hsession⟩ := hkeep
  obtain ⟨htoken, hdigest⟩ := hs.opened ref.stream st hst
  refine ⟨st, hst, hcoll htoken (hs.presented k p hp) ?_, hsession⟩
  rw [← hdigest, hsession, hhash]

theorem Hub.Sound.execute (hs : h.Sound tokens) (hcoll : Set.InjOn DB.hashToken tokens) (k : Nat)
    (env : Env) :
    (h.execute k env).1.Sound tokens ∧ ∀ e ∈ (h.execute k env).2, SameToken h e := by
  unfold Hub.execute
  split
  · rename_i isPost sessionID creds body ref hp
    dsimp only
    split
    · exact ⟨hs.replyTo hp _, fun e he => absurd he List.not_mem_nil⟩
    · rename_i hhash
      split
      · exact ⟨hs.replyTo hp _, fun e he => absurd he List.not_mem_nil⟩
      · rename_i req hreq
        split
        · exact ⟨hs.replyTo hp _, fun e he => absurd he List.not_mem_nil⟩
        · obtain ⟨st, hst, htoken, hsession⟩ := hs.found_token hcoll hp rfl (not_not.mp hhash)
          have hpresented : extractToken creds ∈ tokens := hs.presented k _ hp
          constructor
          · exact hs.setPost (p := ⟨isPost, sessionID, creds, body, .executed ref _⟩) hpresented
              ⟨st, hst, htoken⟩ k _
          · intro e he
            rw [List.mem_singleton.mp he]
            exact ⟨st, hst, htoken, congrArg Session.identity hsession⟩
  · exact ⟨hs, fun e he => absurd he List.not_mem_nil⟩

theorem Hub.Sound.write (hs : h.Sound tokens) (k : Nat) :
    (h.write k).1.Sound tokens ∧ ∀ e ∈ (h.write k).2, SameToken h e := by
  unfold Hub.write
  split
  · rename_i isPost sessionID creds body ref resp hp
    refine ⟨hs.replyTo hp _, ?_⟩
    intro e he
    rw [List.mem_singleton.mp he]
    exact hs.keeps k _ hp
  · exact ⟨hs, fun e he => absurd he List.not_mem_nil⟩

end Posts

def Presents (tokens : Set Str) (_ : Hub) (a : HubAction) : Prop := ∀ t, a.token = some t → t ∈ tokens

theorem Hub.Sound.act {tokens : Set Str} {h : Hub} (hs : h.Sound tokens)
    (hcoll : Set.InjOn DB.hashToken tokens) (a : HubAction) (ha : Presents tokens h a) :
    (h.act a).1.Sound tokens ∧ ∀ e ∈ (h.act a).2, SameToken h e := by
  cases a with
  | openStream i sessionID creds readFails flushes =>
    exact ⟨hs.openStream (ha _ rfl) i readFails flushes, fun e he => absurd he List.not_mem_nil⟩
  | register i => exact ⟨hs.register i, fun e he => absurd he List.not_mem_nil⟩
  | unregister i => exact ⟨hs.unregister i, fun e he => absurd he List.not_mem_nil⟩
  | receive k isPost sessionID creds body =>
    exact ⟨hs.receive (ha _ rfl) k isPost sessionID body, fun e he => absurd he List.not_mem_nil⟩
  | lookUp k => exact ⟨hs.lookUp k, fun e he => absurd he List.not_mem_nil⟩
  | execute k env => exact hs.execute hcoll k env
  | write k => exact hs.write k
  | outside srv oauth =>
    exact ⟨⟨hs.ids, hs.capacity, hs.registered, hs.opened, hs.presented, hs.keeps⟩,
      fun e he => absurd he List.not_mem_nil⟩

theorem sound_newHub (tokens : Set Str) (srv : MCPServer) (gatewayToken : Str)
    (oauth : Option (Str → Option OAuthClaims)) (maxSessions : Nat) :
    (newHub srv gatewayToken oauth maxSessions).Sound tokens := by
  refine ⟨List.nodup_nil, Nat.zero_le _, fun m hm => absurd hm List.not_mem_nil, ?_, ?_, ?_⟩
  · intro i st hst
    cases hst
  · intro k p hp
    cases hp
  · intro k p hp
    cases hp

/-- At every point of every run the sessions are safe, and a POST is run as a session, and
answered on its stream, only with the token that opened the stream. -/
theorem sessions_safe (srv : MCPServer) (gatewayToken : Str)
    (oauth : Option (Str → Option OAuthClaims)) (maxSessions : Nat) (actions : List HubAction)
    (hcoll : Set.InjOn DB.hashToken (presentedTokens actions)) :
    (∀ n, (Run.final Hub.act (newHub srv gatewayToken oauth maxSessions) (actions.take n)).Safe) ∧
      ∀ e ∈ Run.trace Hub.act (newHub srv gatewayToken oauth maxSessions) actions,
        SameToken e.1 e.2 := by
  have hstart := sound_newHub (presentedTokens actions) srv gatewayToken oauth maxSessions
  have hpresents : ∀ a ∈ actions, ∀ h, Presents (presentedTokens actions) h a :=
    fun a ha h t ht => List.mem_filterMap.mpr ⟨a, ha, ht⟩
  constructor
  · intro n
    refine (Run.inv_final (fun h a hs ha => (hs.act hcoll a ha).1) (actions.take n) _ hstart ?_).safe
    exact Run.along_of_mem (fun a ha h => hpresents a (List.mem_of_mem_take ha) h) _
  · exact Run.good_trace (fun h a hs ha => (hs.act hcoll a ha).1)
      (fun h a hs ha => (hs.act hcoll a ha).2) actions _ hstart (Run.along_of_mem hpresents _)

/-- A stream is opened and two POSTs find its session, one of them with another token; then the
stream is closed, and after that the POSTs go on. -/
def hijackRun : List HubAction :=
  [.openStream 0 ['s'] tokenCreds false true, .register 0, .receive 0 true ['s'] tokenCreds callBody,
    .receive 1 true ['s'] ⟨[], ['x']⟩ callBody, .lookUp 0, .lookUp 1, .unregister 0,
    .execute 1 quietEnv, .execute 0 quietEnv, .write 0]

theorem injOn_hijackRun : Set.InjOn DB.hashToken (presentedTokens hijackRun) := by
  have htokens : hijackRun.filterMap HubAction.token = [['t'], ['t'], ['x']] := by decide +kernel
  have hne : DB.hashToken ['t'] ≠ DB.hashToken ['x'] := by decide +kernel
  intro a ha b hb heq
  simp only [presentedTokens, htokens, Set.mem_ofPred_eq, List.mem_cons, List.not_mem_nil, or_false,
    or_self_left] at ha hb
  rcases ha with rfl | rfl
  · rcases hb with rfl | rfl
    · rfl
    · exact absurd heq hne
  · rcases hb with rfl | rfl
    · exact absurd heq.symm hne
    · rfl

theorem length_hijackRun :
    (Run.trace Hub.act (newHub tokenWorld.srv [] none 1000) hijackRun).length = 2 := by
  decide +kernel

theorem hijackRun_safe :
    Run.trace Hub.act (newHub tokenWorld.srv [] none 1000) hijackRun ≠ [] ∧
      (∀ n, (Run.final Hub.act (newHub tokenWorld.srv [] none 1000) (hijackRun.take n)).Safe) ∧
      ∀ e ∈ Run.trace Hub.act (newHub tokenWorld.srv [] none 1000) hijackRun, SameToken e.1 e.2 := by
  refine ⟨?_, sessions_safe tokenWorld.srv [] none 1000 hijackRun injOn_hijackRun⟩
  intro hnil
  have hlen := length_hijackRun
  rw [hnil] at hlen
  cases hlen

end Janus.Server
