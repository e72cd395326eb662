import Janus.ConfigCache

/-!
# Calls between writes

A strict call resolves its tool twice, once for the pinning check and once for the
execution, and each time it reads the endpoints and then the connections. Every read
looks into its cache, queries the table on a miss and stores the rows, with nothing
around these steps. `raceStep` lets them happen in any order with the reads of other
requests, with the writes of other requests and with the purges that follow a write.
Where nothing changes while somebody holds rows of the tables, a call acts on the tables
of one moment.
-/

namespace Janus.Server

set_option autoImplicit false

open Storage Cache

/-- The endpoints are read first, then the connections. -/
inductive Find where
  | endpoints (f : Fetch APIEndpoint)
  | connections (eps : List APIEndpoint) (f : Fetch APIConnection)

def Find.begin : Find := .endpoints .lookup

inductive Found where
  | running (f : Find)
  | done (r : Option (APIEndpoint × APIConnection))
  | failed (e : CallError)

/-- One step of `findEndpoint`. -/
def Find.step (now : Nat) (fault : Option Str) (name : Str) (db : DB) (find : Find) (c : Caches) :
    Found × Caches :=
  match find with
  | .endpoints f =>
    let (r, cache) := f.step now fault db.getAllEndpoints c.endpoints
    (match r with
      | .running g => .running (.endpoints g)
      | .done eps => .running (.connections eps .lookup)
      | .failed cause => .failed (.loadEndpoints cause), { c with endpoints := cache })
  | .connections eps f =>
    let (r, cache) := f.step now fault db.getConnections c.connections
    (match r with
      | .running g => .running (.connections eps g)
      | .done conns => .done (findIn conns name eps)
      | .failed cause => .failed (.loadConnections cause), { c with connections := cache })

/-- What is handed to the gateway client, and the endpoint whose definition was checked. -/
structure Passed where
  name : Str
  checked : Option APIEndpoint
  ep : APIEndpoint
  conn : APIConnection

inductive Call where
  | idle
  | checking (name : Str) (find : Find)
  | calling (name : Str) (checked : Option APIEndpoint) (find : Find)
  | executing (p : Passed)

/-- The part of a call in which the tables are read. -/
def Call.reading : Call → Bool
  | .checking _ _ => true
  | .calling _ _ _ => true
  | _ => false

def Call.active : Call → Bool
  | .executing _ => true
  | call => call.reading

/-- The check of `toolDefinitionChanged`; a tool that is not there counts as unchanged. -/
def definitionChanged (name : Str) (r : Option (APIEndpoint × APIConnection)) : Bool :=
  match r with
  | none => false
  | some (ep, _) => ToolIntegrity.changed ep.definitionHash (liveToolDef name ep)

/-- A call that is refused or fails is over. -/
def afterCheck (name : Str) : Found → Call
  | .running f => .checking name f
  | .failed _ => .idle
  | .done r =>
    if definitionChanged name r then .idle else .calling name (r.map Prod.fst) .begin

theorem toolDefinitionChanged_eq {name : Str} (h : Text.hasPrefix name adminPrefix = false) (db : DB) :
    toolDefinitionChanged noFaults name db =
      .ok (definitionChanged name (findIn db.getConnections name db.getAllEndpoints)) := by
  unfold toolDefinitionChanged
  rw [h, if_neg Bool.false_ne_true]
  unfold findEndpoint noFaults
  dsimp only
  cases findIn db.getConnections name db.getAllEndpoints with
  | none => rfl
  | some found => rfl

def afterFind (name : Str) (checked : Option APIEndpoint) : Found → Call
  | .running f => .calling name checked f
  | .failed _ => .idle
  | .done none => .idle
  | .done (some (ep, conn)) => .executing ⟨name, checked, ep, conn⟩

/-- A replica with its database. `during` lists the databases since the call started. -/
structure Replica where
  db : DB
  caches : Caches
  call : Call
  during : List DB
  readers : Nat → Option Reader
  writers : Nat → Option Purge

inductive RaceStep where
  | start (name : Str)
  | advance (now : Nat) (fault : Option Str)
  | finish
  | readEndpoints (reader : Nat)
  | readConnections (reader : Nat)
  | advanceReader (reader now : Nat) (fault : Option Str)
  | commit (writer : Nat) (c : Commit)
  /-- A write of another replica, which purges only its own caches. -/
  | commitElsewhere (c : Commit)
  | purge (writer : Nat)
  | evict (now : Nat)

def setReader (reader : Nat) (r : Option Reader) (s : Replica) : Replica :=
  { s with readers := fun n => if n = reader then r else s.readers n }

def setWriter (writer : Nat) (p : Option Purge) (s : Replica) : Replica :=
  { s with writers := fun n => if n = writer then p else s.writers n }

/-- The tables after a write. -/
def setDB (db : DB) (s : Replica) : Replica :=
  { s with db := db, during := if s.call.active then s.during ++ [db] else s.during }

def startCall (name : Str) (s : Replica) : Replica :=
  if s.call.active || Text.hasPrefix name adminPrefix then s
  else { s with call := .checking name .begin, during := [s.db] }

def advanceCall (now : Nat) (fault : Option Str) (s : Replica) : Replica :=
  match s.call with
  | .checking name f =>
    let (r, caches) := f.step now fault name s.db s.caches
    { s with call := afterCheck name r, caches := caches }
  | .calling name checked f =>
    let (r, caches) := f.step now fault name s.db s.caches
    { s with call := afterFind name checked r, caches := caches }
  | _ => s

def Fetched.next {α : Type} (wrap : Fetch α → Reader) : Fetched α → Option Reader
  | .running f => some (wrap f)
  | _ => none

def advanceReader (reader now : Nat) (fault : Option Str) (s : Replica) : Replica :=
  match s.readers reader with
  | none => s
  | some (.endpoints f) =>
    let (r, cache) := f.step now fault s.db.getAllEndpoints s.caches.endpoints
    setReader reader (r.next .endpoints) { s with caches := { s.caches with endpoints := cache } }
  | some (.connections f) =>
    let (r, cache) := f.step now fault s.db.getConnections s.caches.connections
    setReader reader (r.next .connections) { s with caches := { s.caches with connections := cache } }

/-- The connections are purged first. -/
def purgeStep (writer : Nat) (s : Replica) : Replica :=
  match s.writers writer with
  | none => s
  | some .both =>
    setWriter writer (some .endpoints)
      { s with caches := { s.caches with connections := s.caches.connections.purge } }
  | some .endpoints =>
    setWriter writer none { s with caches := { s.caches with endpoints := s.caches.endpoints.purge } }

/-- The end of an executed call. -/
def finishCall (s : Replica) : Replica × List Passed :=
  match s.call with
  | .executing p => ({ s with call := .idle }, [p])
  | _ => (s, [])

def beginRead (reader : Nat) (r : Reader) (s : Replica) : Replica :=
  if (s.readers reader).isSome then s else setReader reader (some r) s

def commitHere (writer : Nat) (c : Commit) (s : Replica) : Replica :=
  if (s.writers writer).isSome then s
  else
    match c.exec s.db with
    | .error _ => s
    | .ok db => setWriter writer (some .both) (setDB db s)

def commitElsewhere (c : Commit) (s : Replica) : Replica :=
  match c.exec s.db with
  | .error _ => s
  | .ok db => setDB db s

def evictCaches (now : Nat) (s : Replica) : Replica :=
  { s with caches :=
    ⟨s.caches.endpoints.evictExpired now, s.caches.connections.evictExpired now⟩ }

/-- A step of anybody. A call that was executed is emitted when it ends. -/
def raceStep (s : Replica) : RaceStep → Replica × List Passed
  | .start name => (startCall name s, [])
  | .advance now fault => (advanceCall now fault s, [])
  | .finish => finishCall s
  | .readEndpoints reader => (beginRead reader (.endpoints .lookup) s, [])
  | .readConnections reader => (beginRead reader (.connections .lookup) s, [])
  | .advanceReader reader now fault => (advanceReader reader now fault s, [])
  | .commit writer c => (commitHere writer c s, [])
  | .commitElsewhere c => (commitElsewhere c s, [])
  | .purge writer => (purgeStep writer s, [])
  | .evict now => (evictCaches now s, [])

/-- A replica that has just come up. -/
def startReplica (ttl : Nat) (db : DB) : Replica :=
  ⟨db, ⟨.new ttl, .new ttl⟩, .idle, [], fun _ => none, fun _ => none⟩

/-- The name resolves to what was passed on, in one of the databases since the call started,
and the checked definition is the one of the endpoint there. -/
def OneMoment (s : Replica) (p : Passed) : Prop :=
  ∃ db ∈ s.during, findEndpoint noFaults p.name db = .ok (some (p.ep, p.conn)) ∧
    p.checked.map (liveToolDef p.name) = some (liveToolDef p.name p.ep)

/-- The write leaves both tables as they are, or it is refused. -/
def Commit.Idle (c : Commit) (db : DB) : Prop :=
  ∀ db', c.exec db = .ok db' →
    db'.getAllEndpoints = db.getAllEndpoints ∧ db'.getConnections = db.getConnections

/-- Nobody holds rows of the tables: the call is not between its first and its last read,
and no other request has rows that it still has to cache. -/
def Replica.NoneHeld (s : Replica) : Prop :=
  s.call.reading = false ∧
    (∀ reader rows, s.readers reader ≠ some (.endpoints (.store rows))) ∧
    ∀ reader rows, s.readers reader ≠ some (.connections (.store rows))

def Call.looksUpEndpoints : Call → Prop
  | .checking _ f => f = .endpoints .lookup
  | .calling _ _ f => f = .endpoints .lookup
  | _ => False

def Call.looksUpConnections : Call → Prop
  | .checking _ f => ∃ eps, f = .connections eps .lookup
  | .calling _ _ f => ∃ eps, f = .connections eps .lookup
  | _ => False

/-- A write that changes a table commits while nobody holds rows, and the call looks into a
cache after the purges of it. A write of another replica finds the caches empty. -/
def Quiet (s : Replica) : RaceStep → Prop
  | .commit _ c => c.Idle s.db ∨ s.NoneHeld
  | .commitElsewhere c =>
    c.Idle s.db ∨ s.NoneHeld ∧ s.caches.endpoints.m = [] ∧ s.caches.connections.m = []
  | .advance _ _ =>
    (s.call.looksUpEndpoints → ∀ writer, s.writers writer = none) ∧
      (s.call.looksUpConnections → ∀ writer, s.writers writer ≠ some .both)
  | _ => True

def Find.Holds (db : DB) : Find → Prop
  | .endpoints f => f.Holds db.getAllEndpoints
  | .connections eps f => eps = db.getAllEndpoints ∧ f.Holds db.getConnections

def Reader.Holds (db : DB) : Reader → Prop
  | .endpoints f => f.Holds db.getAllEndpoints
  | .connections f => f.Holds db.getConnections

/-- What the call has read so far, it would read again. -/
def Call.Holds (s : Replica) : Call → Prop
  | .idle => True
  | .checking _ f => f.Holds s.db ∧ s.db ∈ s.during
  | .calling name checked f =>
    f.Holds s.db ∧ s.db ∈ s.during ∧
      checked = (findIn s.db.getConnections name s.db.getAllEndpoints).map Prod.fst
  | .executing p => OneMoment s p

theorem Call.Holds.same {s s' : Replica} {call : Call} (h : call.Holds s) (hdb : s'.db = s.db)
    (hduring : s'.during = s.during) : call.Holds s' := by
  unfold Call.Holds OneMoment at h ⊢
  rwa [hdb, hduring]

/-- Rows that are on the way or cached are those of the tables; a cache that holds others is
going to be purged. -/
structure Coherent (s : Replica) : Prop where
  endpoints : Current s.db.getAllEndpoints s.caches.endpoints ∨ ∃ writer, s.writers writer ≠ none
  connections : Current s.db.getConnections s.caches.connections ∨
    ∃ writer, s.writers writer = some .both
  readers : ∀ reader r, s.readers reader = some r → r.Holds s.db
  call : s.call.Holds s

theorem coherent_start (ttl : Nat) (db : DB) : Coherent (startReplica ttl db) where
  endpoints := Or.inl fun m hm => by cases hm
  connections := Or.inl fun m hm => by cases hm
  readers _ _ h := by cases h
  call := trivial

theorem find_running {now : Nat} {fault : Option Str} {name : Str} {db : DB} {f g : Find} {c : Caches}
    (h : (f.step now fault name db c).1 = .running g) (hf : f.Holds db)
    (hc : f = .endpoints .lookup → Current db.getAllEndpoints c.endpoints) : g.Holds db := by
  cases f with
  | endpoints f =>
    simp only [Find.step] at h
    split at h
    · rename_i g' hg
      cases h
      exact holds_fetch hg
    · rename_i eps hdone
      cases h
      exact ⟨fetch_done hf (fun hl => hc (by rw [hl])) hdone, holds_lookup _⟩
    · cases h
  | connections eps f =>
    simp only [Find.step] at h
    split at h
    · rename_i g' hg
      cases h
      exact ⟨hf.1, holds_fetch hg⟩
    · cases h
    · cases h

theorem find_done {now : Nat} {fault : Option Str} {name : Str} {db : DB} {f : Find} {c : Caches}
    {r : Option (APIEndpoint × APIConnection)} (h : (f.step now fault name db c).1 = .done r)
    (hf : f.Holds db)
    (hc : ∀ eps, f = .connections eps .lookup → Current db.getConnections c.connections) :
    r = findIn db.getConnections name db.getAllEndpoints := by
  cases f with
  | endpoints f =>
    simp only [Find.step] at h
    split at h
    · cases h
    · cases h
    · cases h
  | connections eps f =>
    simp only [Find.step] at h
    split at h
    · cases h
    · rename_i conns hdone
      cases h
      rw [fetch_done hf.2 (fun hl => hc eps (by rw [hl])) hdone, hf.1]
    · cases h

theorem current_find (now : Nat) (fault : Option Str) (name : Str) {db : DB} {f : Find} (c : Caches)
    (hf : f.Holds db) :
    (Current db.getAllEndpoints c.endpoints →
        Current db.getAllEndpoints (f.step now fault name db c).2.endpoints) ∧
      (Current db.getConnections c.connections →
        Current db.getConnections (f.step now fault name db c).2.connections) := by
  cases f with
  | endpoints f => exact ⟨fun hc => current_fetch now fault hf hc, id⟩
  | connections eps f => exact ⟨id, fun hc => current_fetch now fault hf.2 hc⟩

/-- A step of the call writes only what is current to the caches. -/
theorem coherent_call {s : Replica} (h : Coherent s) (now : Nat) (fault : Option Str) (name : Str)
    {f : Find} (hf : f.Holds s.db) {call : Call} (hcall : call.Holds s) :
    Coherent { s with call := call, caches := (f.step now fault name s.db s.caches).2 } where
  endpoints := h.endpoints.imp_left (current_find now fault name s.caches hf).1
  connections := h.connections.imp_left (current_find now fault name s.caches hf).2
  readers := h.readers
  call := hcall.same rfl rfl

theorem current_endpoints {s : Replica} (h : Coherent s) (hw : ∀ writer, s.writers writer = none) :
    Current s.db.getAllEndpoints s.caches.endpoints := by
  rcases h.endpoints with hc | ⟨writer, hne⟩
  · exact hc
  · exact absurd (hw writer) hne

theorem current_connections {s : Replica} (h : Coherent s)
    (hw : ∀ writer, s.writers writer ≠ some .both) :
    Current s.db.getConnections s.caches.connections := by
  rcases h.connections with hc | ⟨writer, heq⟩
  · exact hc
  · exact absurd heq (hw writer)

/-- The outcome of a step that read current rows. -/
def Found.Holds (name : Str) (db : DB) : Found → Prop
  | .running f => f.Holds db
  | .done r => r = findIn db.getConnections name db.getAllEndpoints
  | .failed _ => True

theorem holds_find {s : Replica} (h : Coherent s) (now : Nat) (fault : Option Str) (name : Str)
    {f : Find} (hf : f.Holds s.db)
    (hqe : f = .endpoints .lookup → ∀ writer, s.writers writer = none)
    (hqc : (∃ eps, f = .connections eps .lookup) → ∀ writer, s.writers writer ≠ some .both) :
    (f.step now fault name s.db s.caches).1.Holds name s.db := by
  cases hstep : (f.step now fault name s.db s.caches).1 with
  | running g => exact find_running hstep hf fun hl => current_endpoints h (hqe hl)
  | done r => exact find_done hstep hf fun eps hl => current_connections h (hqc ⟨eps, hl⟩)
  | failed e => trivial

theorem holds_afterCheck {s : Replica} {name : Str} {r : Found} (hr : r.Holds name s.db)
    (hdb : s.db ∈ s.during) : (afterCheck name r).Holds s := by
  cases r with
  | running f => exact ⟨hr, hdb⟩
  | failed e => trivial
  | done r =>
    unfold afterCheck
    dsimp only
    split
    · trivial
    · exact ⟨holds_lookup _, hdb, congrArg (Option.map Prod.fst) hr⟩

theorem holds_afterFind {s : Replica} {name : Str} {checked : Option APIEndpoint} {r : Found}
    (hr : r.Holds name s.db) (hdb : s.db ∈ s.during)
    (hchecked : checked = (findIn s.db.getConnections name s.db.getAllEndpoints).map Prod.fst) :
    (afterFind name checked r).Holds s := by
  cases r with
  | running f => exact ⟨hr, hdb, hchecked⟩
  | failed e => trivial
  | done r =>
    have hfound : r = findIn s.db.getConnections name s.db.getAllEndpoints := hr
    rw [← hfound] at hchecked
    cases r with
    | none => trivial
    | some found =>
      obtain ⟨ep, conn⟩ := found
      refine ⟨s.db, hdb, congrArg Except.ok hfound.symm, ?_⟩
      rw [hchecked]
      rfl

theorem coherent_advance {s : Replica} (h : Coherent s) {now : Nat} {fault : Option Str}
    (hq : Quiet s (.advance now fault)) : Coherent (advanceCall now fault s) := by
  obtain ⟨hqe, hqc⟩ := hq
  unfold advanceCall
  cases hcall : s.call with
  | idle => exact h
  | executing p => exact h
  | checking name f =>
    have hold := h.call
    rw [hcall] at hold hqe hqc
    obtain ⟨hf, hdb⟩ := hold
    exact coherent_call h now fault name hf
      (holds_afterCheck (holds_find h now fault name hf hqe hqc) hdb)
  | calling name checked f =>
    have hold := h.call
    rw [hcall] at hold hqe hqc
    obtain ⟨hf, hdb, hchecked⟩ := hold
    exact coherent_call h now fault name hf
      (holds_afterFind (holds_find h now fault name hf hqe hqc) hdb hchecked)

theorem coherent_startCall {s : Replica} (h : Coherent s) (name : Str) :
    Coherent (startCall name s) := by
  unfold startCall
  split
  · exact h
  · exact ⟨h.endpoints, h.connections, h.readers, holds_lookup _, List.mem_singleton_self _⟩

theorem coherent_finish {s : Replica} (h : Coherent s) : Coherent (finishCall s).1 := by
  unfold finishCall
  split
  · exact ⟨h.endpoints, h.connections, h.readers, trivial⟩
  · exact h

theorem coherent_setReader {s : Replica} (h : Coherent s) (reader : Nat) {r : Option Reader}
    (hr : ∀ r', r = some r' → r'.Holds s.db) : Coherent (setReader reader r s) where
  endpoints := h.endpoints
  connections := h.connections
  readers n r' hn := by
    unfold setReader at hn
    dsimp only at hn
    split at hn
    · exact hr r' hn
    · exact h.readers n r' hn
  call := h.call.same rfl rfl

theorem coherent_beginRead {s : Replica} (h : Coherent s) (reader : Nat) {r : Reader}
    (hr : r.Holds s.db) : Coherent (beginRead reader r s) := by
  unfold beginRead
  split
  · exact h
  · refine coherent_setReader h reader ?_
    intro r' h'
    cases h'
    exact hr

theorem holds_next {α : Type} {now : Nat} {fault : Option Str} {table : List α} {f : Fetch α}
    {cache : TTLCache (List α)} {wrap : Fetch α → Reader} {r : Reader}
    (h : (f.step now fault table cache).1.next wrap = some r) : ∃ g, r = wrap g ∧ g.Holds table := by
  cases hstep : (f.step now fault table cache).1 with
  | running g =>
    rw [hstep] at h
    cases h
    exact ⟨g, rfl, holds_fetch hstep⟩
  | done rows =>
    rw [hstep] at h
    cases h
  | failed cause =>
    rw [hstep] at h
    cases h

theorem coherent_advanceReader {s : Replica} (h : Coherent s) (reader now : Nat)
    (fault : Option Str) : Coherent (advanceReader reader now fault s) := by
  unfold advanceReader
  split
  · exact h
  · rename_i f hf
    have hold : f.Holds s.db.getAllEndpoints := h.readers reader _ hf
    have hcaches : Coherent { s with caches := { s.caches with endpoints :=
        (f.step now fault s.db.getAllEndpoints s.caches.endpoints).2 } } :=
      ⟨h.endpoints.imp_left (current_fetch now fault hold), h.connections, h.readers, h.call.same rfl rfl⟩
    refine coherent_setReader hcaches reader ?_
    intro r hr
    obtain ⟨g, rfl, hg⟩ := holds_next hr
    exact hg
  · rename_i f hf
    have hold : f.Holds s.db.getConnections := h.readers reader _ hf
    have hcaches : Coherent { s with caches := { s.caches with connections :=
        (f.step now fault s.db.getConnections s.caches.connections).2 } } :=
      ⟨h.endpoints, h.connections.imp_left (current_fetch now fault hold), h.readers, h.call.same rfl rfl⟩
    refine coherent_setReader hcaches reader ?_
    intro r hr
    obtain ⟨g, rfl, hg⟩ := holds_next hr
    exact hg

theorem during_setDB (s : Replica) (db : DB) :
    (∀ d ∈ s.during, d ∈ (setDB db s).during) ∧ (s.call.active → db ∈ (setDB db s).during) := by
  unfold setDB
  dsimp only
  split
  · exact ⟨fun d hd => List.mem_append_left _ hd, fun _ => by simp⟩
  · rename_i hno
    exact ⟨fun d hd => hd, fun hyes => absurd hyes hno⟩

theorem OneMoment.setDB {s : Replica} {p : Passed} (h : OneMoment s p) (db : DB) :
    OneMoment (setDB db s) p := by
  obtain ⟨d, hd, hfound⟩ := h
  exact ⟨d, (during_setDB s db).1 d hd, hfound⟩

section Write

variable {s : Replica} {db : DB}

theorem readers_idle (h : Coherent s) (he : db.getAllEndpoints = s.db.getAllEndpoints)
    (hc : db.getConnections = s.db.getConnections) :
    ∀ reader r, s.readers reader = some r → r.Holds db := by
  intro reader r hr
  have hold := h.readers reader r hr
  unfold Reader.Holds at hold ⊢
  rwa [he, hc]

theorem readers_noneHeld (hn : s.NoneHeld) : ∀ reader r, s.readers reader = some r → r.Holds db := by
  obtain ⟨_, hne, hnc⟩ := hn
  intro reader r hr
  cases r with
  | endpoints f =>
    intro rows hf
    rw [hf] at hr
    exact absurd hr (hne reader rows)
  | connections f =>
    intro rows hf
    rw [hf] at hr
    exact absurd hr (hnc reader rows)

theorem call_idle (h : Coherent s) (he : db.getAllEndpoints = s.db.getAllEndpoints)
    (hc : db.getConnections = s.db.getConnections) : s.call.Holds (setDB db s) := by
  have hold := h.call
  obtain ⟨_, hdb⟩ := during_setDB s db
  have hfind {f : Find} (hf : f.Holds s.db) : f.Holds db := by
    unfold Find.Holds at hf ⊢
    rwa [he, hc]
  cases hcall : s.call with
  | idle => trivial
  | checking name f =>
    rw [hcall] at hold hdb
    exact ⟨hfind hold.1, hdb rfl⟩
  | calling name checked f =>
    rw [hcall] at hold hdb
    refine ⟨hfind hold.1, hdb rfl, ?_⟩
    rw [hold.2.2, ← he, ← hc]
    rfl
  | executing p =>
    rw [hcall] at hold
    exact OneMoment.setDB hold db

theorem call_noneHeld (h : Coherent s) (hn : s.NoneHeld) : s.call.Holds (setDB db s) := by
  have hold := h.call
  have hreading := hn.1
  cases hcall : s.call with
  | idle => trivial
  | checking name f =>
    rw [hcall] at hreading
    cases hreading
  | calling name checked f =>
    rw [hcall] at hreading
    cases hreading
  | executing p =>
    rw [hcall] at hold
    exact OneMoment.setDB hold db

/-- A write that changes nothing, or finds nobody holding rows, leaves what is held current. -/
theorem holds_commit {c : Commit} (h : Coherent s) (hq : c.Idle s.db ∨ s.NoneHeld)
    (hdb : c.exec s.db = .ok db) :
    (∀ reader r, s.readers reader = some r → r.Holds db) ∧ s.call.Holds (setDB db s) := by
  rcases hq with hidle | hn
  · obtain ⟨he, hc⟩ := hidle db hdb
    exact ⟨readers_idle h he hc, call_idle h he hc⟩
  · exact ⟨readers_noneHeld hn, call_noneHeld h hn⟩

end Write

theorem coherent_commitHere {s : Replica} (h : Coherent s) (writer : Nat) {c : Commit}
    (hq : c.Idle s.db ∨ s.NoneHeld) : Coherent (commitHere writer c s) := by
  unfold commitHere
  split
  · exact h
  · split
    · exact h
    · rename_i db hdb
      have hpending : (setWriter writer (some .both) (setDB db s)).writers writer = some .both :=
        if_pos rfl
      obtain ⟨hreaders, hcall⟩ := holds_commit h hq hdb
      refine ⟨Or.inr ⟨writer, ?_⟩, Or.inr ⟨writer, hpending⟩, hreaders, ?_⟩
      · rw [hpending]
        exact Option.some_ne_none _
      · exact hcall.same rfl rfl

theorem coherent_commitElsewhere {s : Replica} (h : Coherent s) {c : Commit}
    (hq : Quiet s (.commitElsewhere c)) : Coherent (commitElsewhere c s) := by
  unfold commitElsewhere
  split
  · exact h
  · rename_i db hdb
    obtain ⟨hreaders, hcall⟩ := holds_commit h (hq.imp_right And.left) hdb
    rcases hq with hidle | ⟨_, hempty, hempty'⟩
    · obtain ⟨he, hc⟩ := hidle db hdb
      refine ⟨?_, ?_, hreaders, hcall⟩
      · exact h.endpoints.imp_left fun hcur m hm => (hcur m hm).trans he.symm
      · exact h.connections.imp_left fun hcur m hm => (hcur m hm).trans hc.symm
    · refine ⟨Or.inl ?_, Or.inl ?_, hreaders, hcall⟩
      · intro m hm
        rw [show (setDB db s).caches.endpoints.m = [] from hempty] at hm
        cases hm
      · intro m hm
        rw [show (setDB db s).caches.connections.m = [] from hempty'] at hm
        cases hm

theorem coherent_purgeStep {s : Replica} (h : Coherent s) (writer : Nat) :
    Coherent (purgeStep writer s) := by
  unfold purgeStep
  split
  · exact h
  · refine ⟨Or.inr ⟨writer, ?_⟩, Or.inl ?_, h.readers, h.call.same rfl rfl⟩
    · rw [show (setWriter writer (some Purge.endpoints) _).writers writer = some .endpoints from
        if_pos rfl]
      exact Option.some_ne_none _
    · intro m hm
      cases hm
  · rename_i hpending
    refine ⟨Or.inl ?_, ?_, h.readers, h.call.same rfl rfl⟩
    · intro m hm
      cases hm
    · refine h.connections.imp_right ?_
      rintro ⟨w, hw⟩
      have hne : w ≠ writer := by
        rintro rfl
        rw [hpending] at hw
        cases hw
      exact ⟨w, (if_neg hne).trans hw⟩

theorem coherent_evictCaches {s : Replica} (h : Coherent s) (now : Nat) :
    Coherent (evictCaches now s) :=
  ⟨h.endpoints.imp_left fun hc => current_evictExpired hc now,
    h.connections.imp_left fun hc => current_evictExpired hc now, h.readers, h.call.same rfl rfl⟩

theorem coherent_raceStep (s : Replica) (a : RaceStep) (h : Coherent s) (hq : Quiet s a) :
    Coherent (raceStep s a).1 := by
  cases a with
  | start name => exact coherent_startCall h name
  | advance now fault => exact coherent_advance h hq
  | finish => exact coherent_finish h
  | readEndpoints reader => exact coherent_beginRead h reader (holds_lookup _)
  | readConnections reader => exact coherent_beginRead h reader (holds_lookup _)
  | advanceReader reader now fault => exact coherent_advanceReader h reader now fault
  | commit writer c => exact coherent_commitHere h writer hq
  | commitElsewhere c => exact coherent_commitElsewhere h hq
  | purge writer => exact coherent_purgeStep h writer
  | evict now => exact coherent_evictCaches h now

/-- What a call hands to the client is what its name resolves to at one moment of it. -/
theorem oneMoment_emitted (s : Replica) (a : RaceStep) (h : Coherent s) :
    ∀ p ∈ (raceStep s a).2, OneMoment s p := by
  intro p hp
  cases a with
  | finish =>
    unfold raceStep finishCall at hp
    dsimp only at hp
    split at hp
    · rename_i p' hcall
      have hold := h.call
      rw [hcall] at hold
      rw [List.mem_singleton.mp hp]
      exact hold
    · cases hp
  | _ => cases hp

/-- In every quiet run, every call acts on the tables of one moment. -/
theorem oneMoment_of_quiet (ttl : Nat) (db : DB) (steps : List RaceStep)
    (h : Run.Along raceStep Quiet (startReplica ttl db) steps) :
    ∀ e ∈ Run.trace raceStep (startReplica ttl db) steps, OneMoment e.1 e.2 :=
  Run.good_trace coherent_raceStep (fun s a hs _ => oneMoment_emitted s a hs) steps
    (startReplica ttl db) (coherent_start ttl db) h

def raceConn (baseURL : String) : APIConnection :=
  ⟨['c'], ['c'], [], baseURL.toList, "none".toList, [], true, []⟩

/-- A write of the connection with its purges. -/
def editConn (baseURL : String) : List RaceStep :=
  [.commit 0 (.saveConnection false (raceConn baseURL)), .purge 0, .purge 0]

def editPath (seen : Option (Str × Nat)) (path : Str) : List RaceStep :=
  [.commit 0 (.saveEndpoint false seen (versionEndpoint path)), .purge 0, .purge 0]

/-- A read of a table that is not cached takes three steps. -/
def reads (n : Nat) : List RaceStep := List.replicate (3 * n) (.advance 0 none)

/-- After the call has read the endpoints for its execution, the path of the tool and then
the host of its connection change. -/
def mixedSteps : List RaceStep :=
  editConn "http://a" ++ editPath none ['/', 'a'] ++ [.start ['t']] ++ reads 3 ++
    editPath (some (savedHash (versionEndpoint ['/', 'a']), 1)) ['/', 'b'] ++ editConn "http://b" ++
    reads 1 ++ [.finish]

/-- The path and the host that a call was executed with, and those that its name resolved
to since its start. -/
def pathAndHost (e : Replica × Passed) : (Str × Str) × List (Option (Str × Str)) :=
  ((e.2.ep.path, e.2.conn.baseURL), e.1.during.map fun db =>
    (findIn db.getConnections e.2.name db.getAllEndpoints).map fun r => (r.1.path, r.2.baseURL))

theorem pathAndHost_mixedSteps :
    (Run.trace raceStep (startReplica 0 (.empty true)) mixedSteps).map pathAndHost =
      [((['/', 'a'], "http://b".toList),
        [some (['/', 'a'], "http://a".toList), some (['/', 'b'], "http://a".toList),
          some (['/', 'b'], "http://b".toList)])] := by
  decide +kernel

/-- The old path is called at the new host. -/
theorem mixedSteps_not_oneMoment :
    ¬ ∀ e ∈ Run.trace raceStep (startReplica 0 (.empty true)) mixedSteps, OneMoment e.1 e.2 := by
  intro h
  have hmem := List.mem_map.mp (pathAndHost_mixedSteps ▸ List.mem_singleton_self _)
  obtain ⟨e, he, hp⟩ := hmem
  obtain ⟨db, hdb, hfind, _⟩ := h e he
  have hseen : some (e.2.ep.path, e.2.conn.baseURL) ∈ (pathAndHost e).2 := by
    refine List.mem_map.mpr ⟨db, hdb, ?_⟩
    rw [Except.ok.inj hfind]
    rfl
  rw [show (e.2.ep.path, e.2.conn.baseURL) = (pathAndHost e).1 from rfl, hp] at hseen
  revert hseen
  decide

/-- The steps of the call itself. -/
def RaceStep.OfCall : RaceStep → Prop
  | .start _ => True
  | .advance _ _ => True
  | .finish => True
  | _ => False

theorem writers_ofCall (s : Replica) {a : RaceStep} (ha : a.OfCall) :
    (raceStep s a).1.writers = s.writers := by
  cases a with
  | start name =>
    simp only [raceStep, startCall]
    split <;> rfl
  | advance now fault =>
    simp only [raceStep, advanceCall]
    split <;> rfl
  | finish =>
    simp only [raceStep, finishCall]
    split <;> rfl
  | _ => cases ha

/-- A call that nobody interferes with is quiet. -/
theorem quiet_ofCall {s : Replica} (hw : ∀ writer, s.writers writer = none) {steps : List RaceStep}
    (h : ∀ a ∈ steps, a.OfCall) : Run.Along raceStep Quiet s steps := by
  induction steps generalizing s with
  | nil => trivial
  | cons a as ih =>
    have ha := h a List.mem_cons_self
    constructor
    · cases a with
      | advance now fault =>
        refine ⟨fun _ => hw, fun _ writer heq => ?_⟩
        rw [hw writer] at heq
        cases heq
      | _ => trivial
    · refine ih ?_ fun b hb => h b (List.mem_cons_of_mem a hb)
      rw [writers_ofCall s ha]
      exact hw

theorem writers_purgeStep (s : Replica) (writer n : Nat) :
    (purgeStep writer s).writers n =
      if n = writer then (s.writers writer).bind Purge.rest else s.writers n := by
  unfold purgeStep
  split
  · rename_i hnone
    split
    · rename_i heq
      rw [heq, hnone]
      rfl
    · rfl
  · rename_i hboth
    rw [hboth]
    rfl
  · rename_i hendpoints
    rw [hendpoints]
    rfl

/-- Two purges after its commit a write is over. -/
theorem writers_write {s : Replica} (hw : ∀ n, s.writers n = none) (writer : Nat) (c : Commit) (n : Nat) :
    (purgeStep writer (purgeStep writer (commitHere writer c s))).writers n = none := by
  have hcommit : (commitHere writer c s).writers n = if n = writer then
      (commitHere writer c s).writers writer else none := by
    split
    · rename_i heq
      rw [heq]
    · rename_i hne
      unfold commitHere
      split
      · exact hw n
      · split
        · exact hw n
        · exact (if_neg hne).trans (hw n)
  rw [writers_purgeStep, writers_purgeStep, writers_purgeStep, if_pos rfl]
  split
  · cases (commitHere writer c s).writers writer with
    | none => rfl
    | some p => cases p <;> rfl
  · rename_i hne
    rw [if_neg hne] at hcommit
    exact hcommit

def pairDB : DB := runOps
  [.saveConnection false (raceConn "http://a"), .saveEndpoint false (versionEndpoint ['/', 'a'])]
  (.empty true)

/-- The host changes before the call. -/
def orderedSteps : List RaceStep :=
  editConn "http://b" ++ ([.start ['t']] ++ reads 3 ++ [.finish])

theorem pathAndHost_orderedSteps :
    (Run.trace raceStep (startReplica 5 pairDB) orderedSteps).map pathAndHost =
      [((['/', 'a'], "http://b".toList), [some (['/', 'a'], "http://b".toList)])] := by
  decide +kernel

theorem orderedSteps_oneMoment :
    (∃ e, e ∈ Run.trace raceStep (startReplica 5 pairDB) orderedSteps) ∧
      ∀ e ∈ Run.trace raceStep (startReplica 5 pairDB) orderedSteps, OneMoment e.1 e.2 := by
  constructor
  · obtain ⟨e, he, _⟩ := List.mem_map.mp (pathAndHost_orderedSteps ▸ List.mem_singleton_self _)
    exact ⟨e, he⟩
  · refine oneMoment_of_quiet 5 pairDB orderedSteps ⟨Or.inr ⟨rfl, ?_, ?_⟩, trivial, trivial, ?_⟩
    · intro reader rows h
      cases h
    · intro reader rows h
      cases h
    · apply quiet_ofCall
      · intro n
        exact writers_write (s := startReplica 5 pairDB) (fun _ => rfl) 0
          (.saveConnection false (raceConn "http://b")) n
      · intro a ha
        change a ∈ [RaceStep.start ['t']] ++ reads 3 ++ [RaceStep.finish] at ha
        rcases List.mem_append.mp ha with ha | ha
        · rcases List.mem_append.mp ha with ha | ha
          · rw [List.mem_singleton.mp ha]
            trivial
          · rw [List.eq_of_mem_replicate ha]
            trivial
        · rw [List.mem_singleton.mp ha]
          trivial

end Janus.Server
