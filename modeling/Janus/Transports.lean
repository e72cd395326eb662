import Janus.Lib.JsonCompact
import Janus.Revocation

/-!
# The three transports

A message reaches the server over stdio, as a streamable POST, or as a POST to the stream
of a session. `Handled` is what a transport does with one message. The two POST handlers
do the same with every sequence of messages; the loop over stdio has no test for a
notification, and does the same exactly on the sequences that have none.
-/

namespace Janus.Server

set_option autoImplicit false

open Storage

/-- What a transport does with one message: the responses it writes and the calls it runs. -/
structure Handled where
  responses : List JSONRPCResponse
  calls : List (Identity × CallToolRequest)
  deriving DecidableEq

def callOf (env : Env) (who : Identity) (req : JSONRPCRequest) (srv : MCPServer) :
    List (Identity × CallToolRequest) :=
  (reachedCall env who.role who.scopes req srv).toList.map fun call => (who, call)

/-- The identity of the process, from the token in its environment. -/
def stdioIdentity (readFails : Bool) (token : Str) (w : World) : Identity :=
  if token = [] || verifyGatewayToken w.gatewayToken token then
    ⟨"master".toList, "admin".toList, [['*']]⟩
  else
    match if readFails then none else (w.srv.db.getClientToken token).filter ClientToken.enabled with
    | some ct => ⟨ct.clientName, ct.clientRole, splitScopes ct.scopes⟩
    | none => ⟨"invalid-token".toList, "unauthenticated".toList, []⟩

def decodeNext (stream : Str) : Option (JSONRPCRequest × Str) :=
  (JsonText.parseValue (stream.length + 1) stream).bind fun (v, rest) =>
    (decodeRequest v).map fun req => (req, rest)

/-- The loop. The outside has one `Env` for each pass it lets the loop make. -/
def stdioLoop (who : Identity) : List Env → Str → MCPServer → List Handled
  | [], _, _ => []
  | env :: envs, stdin, srv =>
    match decodeNext stdin with
    | none => []
    | some (req, rest) =>
      let (resp, srv') := handleRequest env who.name who.role who.scopes req srv
      ⟨[resp], callOf env who req srv⟩ :: stdioLoop who envs rest srv'

def startStdioMode (readFails : Bool) (token : Str) (envs : List Env) (stdin : Str) (w : World) :
    List Handled :=
  stdioLoop (stdioIdentity readFails token w) envs stdin w.srv

inductive Reply where
  | error (status : Nat) (text : Str)
  | accepted
  | response (resp : JSONRPCResponse)
  deriving DecidableEq

/-- What a POST comes to. A response to a message of a session is also pushed on its stream. -/
structure Posted where
  reply : Reply
  pushed : Option JSONRPCResponse
  calls : List (Identity × CallToolRequest)
  world : World

def Posted.refuse (status : Nat) (text : String) (w : World) : Posted :=
  ⟨.error status text.toList, none, [], w⟩

/-- `serveStreamable` with what it writes. -/
def answerStreamable (env : Env) (creds : Credentials) (readFails : Bool) (body : Str) (w : World) :
    Posted :=
  match resolveAuth readFails (extractToken creds) w with
  | none => .refuse 401 "Unauthorized: Invalid gateway token" w
  | some who =>
    match readRequest body with
    | none => .refuse 400 "Invalid JSON-RPC request" w
    | some req =>
      if req.id = .null then ⟨.accepted, none, [], w⟩
      else
        let (resp, srv) := handleRequest env who.name who.role who.scopes req w.srv
        ⟨.response resp, none, callOf env who req w.srv, { w with srv := srv }⟩

/-- `serveMessages` with what it writes. -/
def answerMessages (env : Env) (isPost : Bool) (sessionID : Str) (creds : Credentials) (body : Str)
    (w : World) : Posted :=
  if !isPost then .refuse 405 "Method not allowed" w
  else
    match lookup sessionID w.sessions with
    | none => .refuse 400 "Session not found or expired" w
    | some session =>
      if DB.hashToken (extractToken creds) ≠ session.tokenHash then
        .refuse 401 "Unauthorized: token does not match session" w
      else
        match readRequest body with
        | none => .refuse 400 "Invalid JSON-RPC request" w
        | some req =>
          if req.id = .null then ⟨.accepted, none, [], w⟩
          else
            let who := session.identity
            let (resp, srv) := handleRequest env who.name who.role who.scopes req w.srv
            ⟨.response resp, some resp, callOf env who req w.srv, { w with srv := srv }⟩

def Posted.events (token : Str) (readFails : Bool) (p : Posted) : List CallEvent :=
  p.calls.map fun c => ⟨token, readFails, c.1, c.2.name⟩

theorem serveStreamable_eq (env : Env) (creds : Credentials) (readFails : Bool) (body : Str)
    (w : World) : serveStreamable env creds readFails body w =
      ((answerStreamable env creds readFails body w).world,
        (answerStreamable env creds readFails body w).events (extractToken creds) readFails) := by
  unfold serveStreamable answerStreamable
  cases resolveAuth readFails (extractToken creds) w with
  | none => rfl
  | some who =>
    cases readRequest body with
    | none => rfl
    | some req =>
      dsimp only
      by_cases hid : req.id = .null
      · rw [serve, if_pos hid, if_pos hid]
        rfl
      · rw [serve, if_neg hid, if_neg hid]
        simp only [Posted.events, callOf, List.map_map, Function.comp_def]

theorem serveMessages_eq (env : Env) (isPost : Bool) (sessionID : Str) (creds : Credentials)
    (body : Str) (w : World) : serveMessages env isPost sessionID creds body w =
      ((answerMessages env isPost sessionID creds body w).world,
        (answerMessages env isPost sessionID creds body w).events (extractToken creds) false) := by
  unfold serveMessages answerMessages
  split
  · rfl
  · cases lookup sessionID w.sessions with
    | none => rfl
    | some session =>
      dsimp only
      split
      · rfl
      · cases readRequest body with
        | none => rfl
        | some req =>
          dsimp only
          by_cases hid : req.id = .null
          · rw [serve, if_pos hid, if_pos hid]
            rfl
          · rw [serve, if_neg hid, if_neg hid]
            simp only [Posted.events, callOf, List.map_map, Function.comp_def]

/-- The reply to a message of a session carries the response that its stream carries. -/
theorem answerMessages_pushed (env : Env) (isPost : Bool) (sessionID : Str) (creds : Credentials)
    (body : Str) (w : World) (resp : JSONRPCResponse) :
    (answerMessages env isPost sessionID creds body w).pushed = some resp ↔
      (answerMessages env isPost sessionID creds body w).reply = .response resp := by
  unfold answerMessages
  split
  · simp [Posted.refuse]
  · split
    · simp [Posted.refuse]
    · split
      · simp [Posted.refuse]
      · split
        · simp [Posted.refuse]
        · split
          · simp
          · simp

/-- A token that a POST is accepted with stands for the same over stdio, unless only the OAuth
validator accepts it. -/
theorem stdioIdentity_of_resolveAuth {readFails : Bool} {token : Str} {w : World} {who : Identity}
    (hne : token ≠ []) (hoauth : w.oauth = none) (h : resolveAuth readFails token w = some who) :
    stdioIdentity readFails token w = who := by
  unfold resolveAuth at h
  unfold stdioIdentity
  split at h
  · rename_i hmaster
    cases h
    simp [hmaster]
  · rename_i hmaster
    rw [if_neg (by simp [hne, hmaster])]
    generalize (if readFails then none
      else (w.srv.db.getClientToken token).filter ClientToken.enabled) = row at h ⊢
    cases row with
    | some ct =>
      cases h
      rfl
    | none =>
      rw [hoauth] at h
      cases h

/-- A JSON-RPC message as its sender writes it: a document that decodes as a request. -/
structure Message where
  before : JsonText.Space
  doc : JsonText.Cst Empty
  request : JSONRPCRequest
  decodes : decodeRequest doc.value = some request

def Message.text (m : Message) : Str := m.before.text ++ m.doc.print Empty.elim

theorem Message.head (m : Message) : ∃ c cs, m.doc.print Empty.elim = c :: cs ∧
    JsonText.isNumChar c = false := by
  have hd := m.decodes
  cases hdoc : m.doc with
  | null => exact ⟨'n', _, rfl, rfl⟩
  | objEmpty ws => exact ⟨'{', _, rfl, rfl⟩
  | obj ms => exact ⟨'{', _, rfl, rfl⟩
  | hole h => exact h.elim
  | bool b =>
    rw [hdoc] at hd
    cases hd
  | num n =>
    rw [hdoc] at hd
    cases hd
  | str ps =>
    rw [hdoc] at hd
    cases hd
  | arrEmpty ws =>
    rw [hdoc] at hd
    cases hd
  | arr xs =>
    rw [hdoc] at hd
    cases hd

theorem decodeNext_text (m : Message) {rest : Str} (hrest : JsonText.Delimited rest) :
    decodeNext (m.text ++ rest) = some (m.request, rest) := by
  have hlen : (m.doc.print Empty.elim).length ≤ (m.text ++ rest).length := by
    simp only [Message.text, List.length_append]
    omega
  have hparse := JsonText.parseValue_print m.before m.doc (m.text ++ rest).length rest hlen hrest
  have hsame : m.before.text ++ (m.doc.print Empty.elim ++ rest) = m.text ++ rest := by
    rw [Message.text, List.append_assoc]
  rw [hsame] at hparse
  simp only [decodeNext, hparse, Option.bind_some, m.decodes, Option.map_some]

theorem readRequest_text (m : Message) : readRequest m.text = some m.request := by
  have h : decodeNext (m.text ++ []) = some (m.request, []) := decodeNext_text m trivial
  rw [List.append_nil] at h
  simp only [decodeNext, readRequest] at h ⊢
  cases hp : JsonText.parseValue (m.text.length + 1) m.text with
  | none =>
    rw [hp] at h
    cases h
  | some out =>
    rw [hp] at h
    simp only [Option.bind_some] at h ⊢
    obtain ⟨req, hreq, heq⟩ := Option.map_eq_some_iff.mp h
    rw [hreq, (Prod.mk.inj heq).1]

def streamOf (ms : List (Env × Message)) (tail : JsonText.Space) : Str :=
  ms.flatMap (fun m => m.2.text) ++ tail.text

theorem delimited_streamOf (ms : List (Env × Message)) (tail : JsonText.Space) :
    JsonText.Delimited (streamOf ms tail) := by
  cases ms with
  | nil =>
    rw [streamOf, List.flatMap_nil, List.nil_append]
    cases htail : tail.text with
    | nil => trivial
    | cons c cs =>
      exact JsonText.isNumChar_of_isSpace (List.all_eq_true.mp tail.valid c (by simp [htail]))
  | cons m ms =>
    obtain ⟨c, cs, hprint, hc⟩ := m.2.head
    simp only [streamOf, List.flatMap_cons, Message.text, hprint, List.append_assoc, List.cons_append]
    exact JsonText.delimited_append_space m.2.before hc _

theorem decodeNext_space (tail : JsonText.Space) : decodeNext tail.text = none := by
  have hsp : JsonText.skipSpace tail.text = [] := by
    rw [JsonText.skipSpace, List.dropWhile_eq_nil_iff]
    exact List.all_eq_true.mp tail.valid
  rw [decodeNext, JsonText.parseValue, hsp]
  rfl

def handle (who : Identity) (srv : MCPServer) (m : Env × Message) : MCPServer × List Handled :=
  ((handleRequest m.1 who.name who.role who.scopes m.2.request srv).2,
    [⟨[(handleRequest m.1 who.name who.role who.scopes m.2.request srv).1],
      callOf m.1 who m.2.request srv⟩])

/-- The same, but a notification is dropped. -/
def handleUnlessNotification (who : Identity) (srv : MCPServer) (m : Env × Message) :
    MCPServer × List Handled :=
  if m.2.request.id = .null then (srv, [⟨[], []⟩]) else handle who srv m

def Reply.responses : Reply → List JSONRPCResponse
  | .error _ _ => []
  | .accepted => []
  | .response resp => [resp]

def postStreamable (creds : Credentials) (w : World) (m : Env × Message) : World × List Handled :=
  let p := answerStreamable m.1 creds false m.2.text w
  (p.world, [⟨p.reply.responses, p.calls⟩])

def postMessages (sessionID : Str) (creds : Credentials) (w : World) (m : Env × Message) :
    World × List Handled :=
  let p := answerMessages m.1 true sessionID creds m.2.text w
  (p.world, [⟨p.pushed.toList, p.calls⟩])

theorem handleRequest_id (env : Env) (identity role : Str) (scopes : List Str) (req : JSONRPCRequest)
    (srv : MCPServer) : (handleRequest env identity role scopes req srv).1.id = req.id := by
  unfold handleRequest
  split
  · rfl
  · split
    · rfl
    · split
      · rfl
      · rfl

/-- The loop handles every message of the stream and ends with it. -/
theorem stdioLoop_streamOf (who : Identity) (ms : List (Env × Message)) (more : List Env)
    (tail : JsonText.Space) (srv : MCPServer) :
    stdioLoop who (ms.map Prod.fst ++ more) (streamOf ms tail) srv =
      Run.events (handle who) srv ms := by
  induction ms generalizing srv with
  | nil =>
    cases more with
    | nil => rfl
    | cons env envs =>
      have hend : streamOf [] tail = tail.text := rfl
      simp only [List.map_nil, List.nil_append, stdioLoop, hend, decodeNext_space]
      rfl
  | cons m ms ih =>
    have hnext : decodeNext (streamOf (m :: ms) tail) = some (m.2.request, streamOf ms tail) := by
      rw [streamOf, List.flatMap_cons, List.append_assoc]
      exact decodeNext_text m.2 (delimited_streamOf ms tail)
    rw [Run.events_cons, List.map_cons, List.cons_append, stdioLoop, hnext]
    exact congrArg _ (ih _)

/-- The world has the server, and the credentials stand for the identity. -/
def ServesAs (creds : Credentials) (who : Identity) (w : World) (srv : MCPServer) : Prop :=
  w.srv = srv ∧ resolveAuth false (extractToken creds) w = some who

/-- The world has the server, and the session was opened with the credentials. -/
def SessionOf (sessionID : Str) (creds : Credentials) (who : Identity) (w : World) (srv : MCPServer) :
    Prop :=
  w.srv = srv ∧ lookup sessionID w.sessions = some ⟨who, DB.hashToken (extractToken creds)⟩

theorem answerStreamable_text {creds : Credentials} {who : Identity} {w : World} {srv : MCPServer}
    (h : ServesAs creds who w srv) (m : Env × Message) :
    answerStreamable m.1 creds false m.2.text w =
      if m.2.request.id = .null then ⟨.accepted, none, [], w⟩
      else
        ⟨.response (handleRequest m.1 who.name who.role who.scopes m.2.request srv).1, none,
          callOf m.1 who m.2.request srv,
          { w with srv := (handleRequest m.1 who.name who.role who.scopes m.2.request srv).2 }⟩ := by
  obtain ⟨rfl, hauth⟩ := h
  simp only [answerStreamable, hauth, readRequest_text]

theorem answerMessages_text {sessionID : Str} {creds : Credentials} {who : Identity} {w : World}
    {srv : MCPServer} (h : SessionOf sessionID creds who w srv) (m : Env × Message) :
    answerMessages m.1 true sessionID creds m.2.text w =
      if m.2.request.id = .null then ⟨.accepted, none, [], w⟩
      else
        ⟨.response (handleRequest m.1 who.name who.role who.scopes m.2.request srv).1,
          some (handleRequest m.1 who.name who.role who.scopes m.2.request srv).1,
          callOf m.1 who m.2.request srv,
          { w with srv := (handleRequest m.1 who.name who.role who.scopes m.2.request srv).2 }⟩ := by
  obtain ⟨rfl, hsession⟩ := h
  simp [answerMessages, hsession, readRequest_text]

theorem servesAs_post {creds : Credentials} {who : Identity} {w : World} {srv : MCPServer}
    (h : ServesAs creds who w srv) (m : Env × Message) :
    ServesAs creds who (postStreamable creds w m).1 (handleUnlessNotification who srv m).1 ∧
      (postStreamable creds w m).2 = (handleUnlessNotification who srv m).2 := by
  simp only [postStreamable, answerStreamable_text h m, handleUnlessNotification]
  split
  · exact ⟨h, rfl⟩
  · obtain ⟨rfl, hauth⟩ := h
    have htok := tokens_handleRequest m.1 who.name who.role who.scopes m.2.request w.srv
    refine ⟨⟨rfl, ?_⟩, rfl⟩
    rw [← hauth]
    apply resolveAuth_congr
    · rfl
    · rfl
    · exact htok

theorem sessionOf_post {sessionID : Str} {creds : Credentials} {who : Identity} {w : World}
    {srv : MCPServer} (h : SessionOf sessionID creds who w srv) (m : Env × Message) :
    SessionOf sessionID creds who (postMessages sessionID creds w m).1
        (handleUnlessNotification who srv m).1 ∧
      (postMessages sessionID creds w m).2 = (handleUnlessNotification who srv m).2 := by
  simp only [postMessages, answerMessages_text h m, handleUnlessNotification]
  split
  · exact ⟨h, rfl⟩
  · exact ⟨⟨rfl, h.2⟩, rfl⟩

/-- One response under the id of the message, or nothing at all for a notification. -/
def Answered (m : Env × Message) (h : Handled) : Prop :=
  if m.2.request.id = .null then h = ⟨[], []⟩
  else ∃ resp, h.responses = [resp] ∧ resp.id = m.2.request.id

/-- The three transports do the same, and answer each message that is not a notification. -/
structure Agree (ms : List (Env × Message)) (stdio streamable messages : List Handled) : Prop where
  streamable : streamable = stdio
  messages : messages = stdio
  answered : List.Forall₂ Answered ms stdio

theorem answered_unlessNotification (who : Identity) (srv : MCPServer) (m : Env × Message) :
    ∃ h, (handleUnlessNotification who srv m).2 = [h] ∧ Answered m h := by
  unfold handleUnlessNotification Answered
  split
  · exact ⟨_, rfl, rfl⟩
  · exact ⟨_, rfl, _, rfl, handleRequest_id ..⟩

/-- The POST handlers do the same with every sequence, and answer as they should. -/
theorem posts_agree {sessionID : Str} {creds : Credentials} {who : Identity} {w : World}
    (hauth : resolveAuth false (extractToken creds) w = some who)
    (hsession : lookup sessionID w.sessions = some ⟨who, DB.hashToken (extractToken creds)⟩)
    (ms : List (Env × Message)) :
    Run.events (postStreamable creds) w ms = Run.events (handleUnlessNotification who) w.srv ms ∧
      Run.events (postMessages sessionID creds) w ms =
        Run.events (handleUnlessNotification who) w.srv ms := by
  constructor
  · exact Run.events_congr (R := ServesAs creds who) (P := fun _ => True)
      (fun _ _ m h _ => (servesAs_post h m).1) (fun _ _ m h _ => (servesAs_post h m).2) ms w w.srv
      ⟨rfl, hauth⟩ fun _ _ => trivial
  · exact Run.events_congr (R := SessionOf sessionID creds who) (P := fun _ => True)
      (fun _ _ m h _ => (sessionOf_post h m).1) (fun _ _ m h _ => (sessionOf_post h m).2) ms w w.srv
      ⟨rfl, hsession⟩ fun _ _ => trivial

theorem no_notification_of_answered (who : Identity) (ms : List (Env × Message)) (srv : MCPServer)
    (h : List.Forall₂ Answered ms (Run.events (handle who) srv ms)) :
    ∀ m ∈ ms, m.2.request.id ≠ .null := by
  induction ms generalizing srv with
  | nil =>
    intro m hm
    cases hm
  | cons m ms ih =>
    rw [Run.events_cons] at h
    obtain ⟨hm, hrest⟩ := List.forall₂_cons.mp h
    intro m' hm'
    rcases List.mem_cons.mp hm' with rfl | hmem
    · intro hnull
      rw [Answered, if_pos hnull] at hm
      cases hm
    · exact ih _ hrest m' hmem

/-- The transports agree on a sequence of messages under an identity exactly when none of the
messages is a notification. -/
theorem transports_agree_iff (who : Identity) (creds : Credentials) (sessionID : Str) (w : World)
    (hauth : resolveAuth false (extractToken creds) w = some who)
    (hsession : lookup sessionID w.sessions = some ⟨who, DB.hashToken (extractToken creds)⟩)
    (ms : List (Env × Message)) (more : List Env) (tail : JsonText.Space) :
    Agree ms (stdioLoop who (ms.map Prod.fst ++ more) (streamOf ms tail) w.srv)
        (Run.events (postStreamable creds) w ms) (Run.events (postMessages sessionID creds) w ms) ↔
      ∀ m ∈ ms, m.2.request.id ≠ .null := by
  obtain ⟨hstreamable, hmessages⟩ := posts_agree hauth hsession ms
  rw [stdioLoop_streamOf, hstreamable, hmessages]
  constructor
  · intro h
    exact no_notification_of_answered who ms w.srv h.answered
  · intro hids
    have hsame : Run.events (handleUnlessNotification who) w.srv ms =
        Run.events (handle who) w.srv ms := by
      refine Run.events_congr (R := Eq) (P := fun m => m.2.request.id ≠ .null) ?_ ?_ ms w.srv w.srv
        rfl hids
      · rintro srv _ m rfl hm
        rw [handleUnlessNotification, if_neg hm]
      · rintro srv _ m rfl hm
        rw [handleUnlessNotification, if_neg hm]
    refine ⟨hsame, hsame, ?_⟩
    rw [← hsame]
    exact Run.forall₂_events (fun srv m => answered_unlessNotification who srv m) ms w.srv

def registerParams : Json :=
  .obj [("name".toList, .str "admin_register_vault_secret".toList),
    ("arguments".toList, .obj [("key".toList, .str ['k']), ("value".toList, .str ['v'])])]

def registerNotification : Message where
  before := JsonText.noSpace
  doc := .ofJson (.obj [("method".toList, .str "tools/call".toList), ("params".toList, registerParams)])
  request := ⟨"tools/call".toList, some registerParams, .null⟩
  decodes := by
    rw [JsonText.value_ofJson]
    decide +kernel

def registerWithID : Message where
  before := JsonText.noSpace
  doc := .ofJson (.obj [("id".toList, .str ['1']), ("method".toList, .str "tools/call".toList),
    ("params".toList, registerParams)])
  request := ⟨"tools/call".toList, some registerParams, .str ['1']⟩
  decodes := by
    rw [JsonText.value_ofJson]
    decide +kernel

def master : Identity := ⟨"master".toList, "admin".toList, [['*']]⟩

def masterCreds : Credentials := ⟨[], ['m']⟩

def masterWorld : World :=
  { tokenWorld with
    gatewayToken := ['m'], sessions := [(['s'], ⟨master, DB.hashToken ['m']⟩)] }

theorem resolveAuth_masterCreds :
    resolveAuth false (extractToken masterCreds) masterWorld = some master := by
  decide +kernel

/-- The call is run and answered over stdio, and dropped by the POST handlers. -/
theorem registerNotification_not_agree :
    ¬ Agree [(quietEnv, registerNotification)]
        (startStdioMode false ['m'] [quietEnv] (streamOf [(quietEnv, registerNotification)] JsonText.noSpace)
          masterWorld)
        (Run.events (postStreamable masterCreds) masterWorld [(quietEnv, registerNotification)])
        (Run.events (postMessages ['s'] masterCreds) masterWorld [(quietEnv, registerNotification)]) := by
  intro h
  have hsame := h.streamable
  revert hsame
  decide +kernel

theorem registerWithID_agree :
    Agree [(quietEnv, registerWithID)]
      (stdioLoop master [quietEnv] (streamOf [(quietEnv, registerWithID)] JsonText.noSpace) masterWorld.srv)
      (Run.events (postStreamable masterCreds) masterWorld [(quietEnv, registerWithID)])
      (Run.events (postMessages ['s'] masterCreds) masterWorld [(quietEnv, registerWithID)]) := by
  refine (transports_agree_iff master masterCreds ['s'] masterWorld resolveAuth_masterCreds rfl
    [(quietEnv, registerWithID)] [] JsonText.noSpace).mpr ?_
  intro m hm
  rw [List.mem_singleton.mp hm]
  decide

end Janus.Server
