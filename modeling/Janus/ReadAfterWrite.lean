import Janus.ConfigCache

/-!
# Reads after a write

The fill of the cache is a step of its own behind the query, so a reader can put rows
into the cache that a write has outdated and whose purge is over. `sharedStep` is one
step of any reader or writer, and `history` lists the states of the tables. As long as
no such fill happens, a read that starts after a write has returned sees the write.
-/

namespace Janus.Server

set_option autoImplicit false

open Storage Cache

section Since

variable {α : Type} {view : DB → List α}

/-- The rows are those of the state `n` of the history, or of a later one. -/
def Since (view : DB → List α) (n : Nat) (history : List DB) (rows : List α) : Prop :=
  ∃ i db, n ≤ i ∧ history[i]? = some db ∧ rows = view db

theorem Since.mono {m n : Nat} {history : List DB} {rows : List α} (h : Since view n history rows)
    (hmn : m ≤ n) : Since view m history rows := by
  obtain ⟨i, db, hi, hdb, hrows⟩ := h
  exact ⟨i, db, Nat.le_trans hmn hi, hdb, hrows⟩

theorem Since.append {n : Nat} {history : List DB} {rows : List α} (h : Since view n history rows)
    (later : List DB) : Since view n (history ++ later) rows := by
  obtain ⟨i, db, hi, hdb, hrows⟩ := h
  refine ⟨i, db, hi, ?_, hrows⟩
  rw [List.getElem?_append_left (List.getElem?_eq_some_iff.mp hdb).1]
  exact hdb

def CacheSince (view : DB → List α) (n : Nat) (history : List DB) (cache : TTLCache (List α)) : Prop :=
  ∀ m ∈ cache.m, Since view n history m.2.value

theorem CacheSince.mono {m n : Nat} {history : List DB} {cache : TTLCache (List α)}
    (h : CacheSince view n history cache) (hmn : m ≤ n) : CacheSince view m history cache :=
  fun e he => (h e he).mono hmn

def Fetch.HoldsSince (view : DB → List α) (n : Nat) (history : List DB) (f : Fetch α) : Prop :=
  ∀ rows, f = .store rows → Since view n history rows

theorem holdsSince_lookup (n : Nat) (history : List DB) :
    (Fetch.lookup : Fetch α).HoldsSince view n history := by
  intro rows h
  cases h

theorem cacheSince_nil (n : Nat) (history : List DB) {cache : TTLCache (List α)} (h : cache.m = []) :
    CacheSince view n history cache := by
  intro m hm
  rw [h] at hm
  cases hm

theorem holdsSince_fetch {now n : Nat} {fault : Option Str} {history : List DB} {db : DB} {f g : Fetch α}
    {cache : TTLCache (List α)} (hdb : Since view n history (view db))
    (h : (f.step now fault (view db) cache).1 = .running g) : g.HoldsSince view n history := by
  intro rows hg
  rw [holds_fetch h rows hg]
  exact hdb

theorem since_of_done {now n : Nat} {fault : Option Str} {history : List DB} {table : List α}
    {f : Fetch α} {cache : TTLCache (List α)} {rows : List α} (hf : f.HoldsSince view n history)
    (hc : CacheSince view n history cache) (h : (f.step now fault table cache).1 = .done rows) :
    Since view n history rows := by
  cases f with
  | lookup =>
    simp only [Fetch.step] at h
    split at h
    · rename_i v hget
      cases h
      obtain ⟨e, he, rfl⟩ := TTLCache.mem_of_get hget
      exact hc _ he
    · cases h
  | query =>
    simp only [Fetch.step] at h
    split at h
    · cases h
    · cases h
  | store v =>
    cases h
    exact hf rows rfl

theorem cacheSince_fetch {n : Nat} (now : Nat) (fault : Option Str) {history : List DB}
    (table : List α) {f : Fetch α} {cache : TTLCache (List α)} (hf : f.HoldsSince view n history)
    (hc : CacheSince view n history cache) :
    CacheSince view n history (f.step now fault table cache).2 := by
  cases f with
  | lookup =>
    simp only [Fetch.step]
    split
    · exact hc
    · exact hc
  | query =>
    simp only [Fetch.step]
    split
    · exact hc
    · exact hc
  | store rows =>
    intro m hm
    rcases TTLCache.mem_set hm with ⟨_, hv⟩ | hold
    · rw [hv]
      exact hf rows rfl
    · exact hc m hold

end Since

/-- The database with its caches, and everybody who is using it. `history` ends with the
present state, `connsPurged` and `acked` are the places in it of the last write that has
purged the connections, and of the last one that has returned. A reader knows what `acked`
was when it started, a writer its own place. -/
structure SharedDB where
  db : DB
  caches : Caches
  history : List DB
  connsPurged : Nat
  acked : Nat
  readers : Nat → Option (Reader × Nat)
  writers : Nat → Option (Purge × Nat)

inductive SharedStep where
  | readEndpoints (reader : Nat)
  | readConnections (reader : Nat)
  | advance (reader now : Nat) (fault : Option Str)
  | commit (writer : Nat) (c : Commit)
  | purge (writer : Nat)
  | evict (now : Nat)

/-- What a read returns, and the last write that had returned when it started. -/
inductive Answer where
  | endpoints (rows : List APIEndpoint) (since : Nat)
  | connections (rows : List APIConnection) (since : Nat)

namespace SharedDB

def setReader (reader : Nat) (r : Option (Reader × Nat)) (s : SharedDB) : SharedDB :=
  { s with readers := fun n => if n = reader then r else s.readers n }

def setWriter (writer : Nat) (p : Option (Purge × Nat)) (s : SharedDB) : SharedDB :=
  { s with writers := fun n => if n = writer then p else s.writers n }

def beginRead (reader : Nat) (r : Reader) (s : SharedDB) : SharedDB :=
  if (s.readers reader).isSome then s else s.setReader reader (some (r, s.acked))

/-- The next step of a reader; the last one returns the rows. -/
def advance (reader now : Nat) (fault : Option Str) (s : SharedDB) : SharedDB × List Answer :=
  match s.readers reader with
  | none => (s, [])
  | some (.endpoints f, since) =>
    let (r, cache) := f.step now fault s.db.getAllEndpoints s.caches.endpoints
    let s := { s with caches := { s.caches with endpoints := cache } }
    match r with
    | .running g => (s.setReader reader (some (.endpoints g, since)), [])
    | .done rows => (s.setReader reader none, [.endpoints rows since])
    | .failed _ => (s.setReader reader none, [])
  | some (.connections f, since) =>
    let (r, cache) := f.step now fault s.db.getConnections s.caches.connections
    let s := { s with caches := { s.caches with connections := cache } }
    match r with
    | .running g => (s.setReader reader (some (.connections g, since)), [])
    | .done rows => (s.setReader reader none, [.connections rows since])
    | .failed _ => (s.setReader reader none, [])

def commit (writer : Nat) (c : Commit) (s : SharedDB) : SharedDB :=
  if (s.writers writer).isSome then s
  else
    match c.exec s.db with
    | .error _ => s
    | .ok db =>
      { s with db := db, history := s.history ++ [db] }.setWriter writer (some (.both, s.history.length))

/-- A write returns behind its second purge. -/
def purge (writer : Nat) (s : SharedDB) : SharedDB :=
  match s.writers writer with
  | none => s
  | some (.both, place) =>
    { s with
      caches := { s.caches with connections := s.caches.connections.purge }
      connsPurged := max s.connsPurged place }.setWriter writer (some (.endpoints, place))
  | some (.endpoints, place) =>
    { s with
      caches := { s.caches with endpoints := s.caches.endpoints.purge }
      acked := max s.acked place }.setWriter writer none

def evict (now : Nat) (s : SharedDB) : SharedDB :=
  { s with caches :=
    ⟨s.caches.endpoints.evictExpired now, s.caches.connections.evictExpired now⟩ }

end SharedDB

def sharedStep (s : SharedDB) : SharedStep → SharedDB × List Answer
  | .readEndpoints reader => (s.beginRead reader (.endpoints .lookup), [])
  | .readConnections reader => (s.beginRead reader (.connections .lookup), [])
  | .advance reader now fault => s.advance reader now fault
  | .commit writer c => (s.commit writer c, [])
  | .purge writer => (s.purge writer, [])
  | .evict now => (s.evict now, [])

def startShared (ttl : Nat) (db : DB) : SharedDB :=
  ⟨db, ⟨.new ttl, .new ttl⟩, [db], 0, 0, fun _ => none, fun _ => none⟩

/-- The rows are a snapshot that has every write that had returned when the read started. -/
def SeesWrites (s : SharedDB) : Answer → Prop
  | .endpoints rows since => Since DB.getAllEndpoints since s.history rows
  | .connections rows since => Since DB.getConnections since s.history rows

/-- A fill puts rows into the cache that are no older than the last purge of it. -/
def NoLateFill (s : SharedDB) : SharedStep → Prop
  | .advance reader _ _ =>
    (∀ rows since, s.readers reader = some (.endpoints (.store rows), since) →
        Since DB.getAllEndpoints s.acked s.history rows) ∧
      ∀ rows since, s.readers reader = some (.connections (.store rows), since) →
        Since DB.getConnections s.connsPurged s.history rows
  | _ => True

def Reader.HoldsSince (n : Nat) (history : List DB) : Reader → Prop
  | .endpoints f => f.HoldsSince DB.getAllEndpoints n history
  | .connections f => f.HoldsSince DB.getConnections n history

/-- Rows are as recent as the last purge of their cache, those of a reader as recent as the
last write that had returned when it started. -/
structure Recent (s : SharedDB) : Prop where
  present : s.history[s.history.length - 1]? = some s.db
  acked : s.acked ≤ s.connsPurged
  connsPurged : s.connsPurged ≤ s.history.length - 1
  endpoints : CacheSince DB.getAllEndpoints s.acked s.history s.caches.endpoints
  connections : CacheSince DB.getConnections s.connsPurged s.history s.caches.connections
  readers : ∀ reader r since, s.readers reader = some (r, since) →
    since ≤ s.acked ∧ r.HoldsSince since s.history
  writers : ∀ writer p place, s.writers writer = some (p, place) →
    place ≤ s.history.length - 1 ∧ (p = .endpoints → place ≤ s.connsPurged)

theorem recent_start (ttl : Nat) (db : DB) : Recent (startShared ttl db) where
  present := rfl
  acked := Nat.le_refl 0
  connsPurged := Nat.le_refl 0
  endpoints := cacheSince_nil 0 [db] rfl
  connections := cacheSince_nil 0 [db] rfl
  readers _ _ _ h := by cases h
  writers _ _ _ h := by cases h

theorem recent_setReader {s : SharedDB} (h : Recent s) (reader : Nat) {r : Option (Reader × Nat)}
    (hr : ∀ r' since, r = some (r', since) → since ≤ s.acked ∧ r'.HoldsSince since s.history) :
    Recent (s.setReader reader r) := by
  refine ⟨h.present, h.acked, h.connsPurged, h.endpoints, h.connections, ?_, h.writers⟩
  intro n r' since hn
  unfold SharedDB.setReader at hn
  dsimp only at hn
  split at hn
  · exact hr r' since hn
  · exact h.readers n r' since hn

theorem recent_setReader_none {s : SharedDB} (h : Recent s) (reader : Nat) :
    Recent (s.setReader reader none) := by
  apply recent_setReader h
  intro r since heq
  cases heq

theorem recent_setReader_some {s : SharedDB} (h : Recent s) (reader : Nat) {r : Reader} {since : Nat}
    (hsince : since ≤ s.acked) (hr : r.HoldsSince since s.history) :
    Recent (s.setReader reader (some (r, since))) := by
  apply recent_setReader h
  intro r' since' heq
  cases heq
  exact ⟨hsince, hr⟩

theorem recent_beginRead {s : SharedDB} (h : Recent s) (reader : Nat) {r : Reader}
    (hr : r.HoldsSince s.acked s.history) : Recent (s.beginRead reader r) := by
  unfold SharedDB.beginRead
  split
  · exact h
  · exact recent_setReader_some h reader (Nat.le_refl _) hr

theorem since_present {α : Type} {view : DB → List α} {s : SharedDB} (h : Recent s) {n : Nat}
    (hn : n ≤ s.acked) : Since view n s.history (view s.db) := by
  have h1 := h.acked
  have h2 := h.connsPurged
  exact ⟨s.history.length - 1, s.db, by omega, h.present, rfl⟩

theorem recent_advance {s : SharedDB} (h : Recent s) {reader now : Nat} {fault : Option Str}
    (hq : NoLateFill s (.advance reader now fault)) :
    Recent (s.advance reader now fault).1 ∧
      ∀ answer ∈ (s.advance reader now fault).2, SeesWrites s answer := by
  obtain ⟨hqe, hqc⟩ := hq
  unfold SharedDB.advance
  split
  · exact ⟨h, by simp⟩
  · rename_i f since hreader
    obtain ⟨hsince, hf⟩ := h.readers reader _ since hreader
    have hfill : f.HoldsSince DB.getAllEndpoints s.acked s.history := by
      intro rows hrows
      exact hqe rows since (hrows ▸ hreader)
    have hcache := cacheSince_fetch now fault s.db.getAllEndpoints hfill h.endpoints
    have hnext : Recent { s with caches := { s.caches with endpoints :=
        (f.step now fault s.db.getAllEndpoints s.caches.endpoints).2 } } :=
      ⟨h.present, h.acked, h.connsPurged, hcache, h.connections, h.readers, h.writers⟩
    cases hstep : (f.step now fault s.db.getAllEndpoints s.caches.endpoints).1 with
    | running g =>
      simp only [hstep]
      refine ⟨recent_setReader_some hnext reader hsince ?_, fun _ ha => absurd ha List.not_mem_nil⟩
      exact holdsSince_fetch (since_present h hsince) hstep
    | done rows =>
      simp only [hstep]
      refine ⟨recent_setReader_none hnext reader, ?_⟩
      intro answer ha
      rw [List.mem_singleton.mp ha]
      exact since_of_done hf (h.endpoints.mono hsince) hstep
    | failed cause =>
      simp only [hstep]
      exact ⟨recent_setReader_none hnext reader, fun _ ha => absurd ha List.not_mem_nil⟩
  · rename_i f since hreader
    obtain ⟨hsince, hf⟩ := h.readers reader _ since hreader
    have hfill : f.HoldsSince DB.getConnections s.connsPurged s.history := by
      intro rows hrows
      exact hqc rows since (hrows ▸ hreader)
    have hcache := cacheSince_fetch now fault s.db.getConnections hfill h.connections
    have hnext : Recent { s with caches := { s.caches with connections :=
        (f.step now fault s.db.getConnections s.caches.connections).2 } } :=
      ⟨h.present, h.acked, h.connsPurged, h.endpoints, hcache, h.readers, h.writers⟩
    cases hstep : (f.step now fault s.db.getConnections s.caches.connections).1 with
    | running g =>
      simp only [hstep]
      refine ⟨recent_setReader_some hnext reader hsince ?_, fun _ ha => absurd ha List.not_mem_nil⟩
      exact holdsSince_fetch (since_present h hsince) hstep
    | done rows =>
      simp only [hstep]
      refine ⟨recent_setReader_none hnext reader, ?_⟩
      intro answer ha
      rw [List.mem_singleton.mp ha]
      exact since_of_done hf (h.connections.mono (Nat.le_trans hsince h.acked)) hstep
    | failed cause =>
      simp only [hstep]
      exact ⟨recent_setReader_none hnext reader, fun _ ha => absurd ha List.not_mem_nil⟩

theorem Reader.HoldsSince.append {n : Nat} {history : List DB} {r : Reader}
    (h : r.HoldsSince n history) (later : List DB) : r.HoldsSince n (history ++ later) := by
  cases r with
  | endpoints f => exact fun rows hf => (h rows hf).append later
  | connections f => exact fun rows hf => (h rows hf).append later

theorem recent_commit {s : SharedDB} (h : Recent s) (writer : Nat) (c : Commit) :
    Recent (s.commit writer c) := by
  unfold SharedDB.commit
  split
  · exact h
  · split
    · exact h
    · rename_i db _
      have hplace := h.connsPurged
      refine ⟨?_, h.acked, ?_, ?_, ?_, ?_, ?_⟩
      · simp [SharedDB.setWriter]
      · simp only [SharedDB.setWriter, List.length_append, List.length_singleton]
        omega
      · exact fun m hm => (h.endpoints m hm).append [db]
      · exact fun m hm => (h.connections m hm).append [db]
      · intro reader r since hr
        obtain ⟨hsince, hholds⟩ := h.readers reader r since hr
        exact ⟨hsince, hholds.append [db]⟩
      · intro n p place hn
        simp only [SharedDB.setWriter, List.length_append, List.length_singleton] at hn ⊢
        split at hn
        · cases hn
          exact ⟨by omega, by simp⟩
        · obtain ⟨hlt, hdone⟩ := h.writers n p place hn
          exact ⟨by omega, hdone⟩

/-- A purge empties its cache, so whatever it asks for holds of it. -/
theorem recent_purge {s : SharedDB} (h : Recent s) (writer : Nat) : Recent (s.purge writer) := by
  have hacked := h.acked
  have hconns := h.connsPurged
  unfold SharedDB.purge
  split
  · exact h
  · rename_i place hwriter
    obtain ⟨hplace, _⟩ := h.writers writer _ place hwriter
    refine ⟨h.present, ?_, ?_, h.endpoints, cacheSince_nil _ _ rfl, h.readers, ?_⟩
    · simp only [SharedDB.setWriter]
      omega
    · simp only [SharedDB.setWriter]
      omega
    · intro n p place' hn
      simp only [SharedDB.setWriter] at hn ⊢
      split at hn
      · cases hn
        exact ⟨hplace, fun _ => by omega⟩
      · obtain ⟨hlt, hdone⟩ := h.writers n p place' hn
        exact ⟨hlt, fun hp => Nat.le_trans (hdone hp) (Nat.le_max_left _ _)⟩
  · rename_i place hwriter
    obtain ⟨hplace, hdone⟩ := h.writers writer _ place hwriter
    have hpurged := hdone rfl
    refine ⟨h.present, ?_, hconns, cacheSince_nil _ _ rfl, h.connections, ?_, ?_⟩
    · simp only [SharedDB.setWriter]
      omega
    · intro reader r since hr
      obtain ⟨hsince, hholds⟩ := h.readers reader r since hr
      exact ⟨Nat.le_trans hsince (Nat.le_max_left _ _), hholds⟩
    · intro n p place' hn
      simp only [SharedDB.setWriter] at hn
      split at hn
      · cases hn
      · exact h.writers n p place' hn

theorem recent_evict {s : SharedDB} (h : Recent s) (now : Nat) : Recent (s.evict now) :=
  ⟨h.present, h.acked, h.connsPurged,
    fun m hm => h.endpoints m (TTLCache.mem_of_mem_evictExpired hm),
    fun m hm => h.connections m (TTLCache.mem_of_mem_evictExpired hm), h.readers, h.writers⟩

theorem recent_sharedStep (s : SharedDB) (a : SharedStep) (h : Recent s) (hq : NoLateFill s a) :
    Recent (sharedStep s a).1 := by
  cases a with
  | readEndpoints reader => exact recent_beginRead h reader (holdsSince_lookup _ _)
  | readConnections reader => exact recent_beginRead h reader (holdsSince_lookup _ _)
  | advance reader now fault => exact (recent_advance h hq).1
  | commit writer c => exact recent_commit h writer c
  | purge writer => exact recent_purge h writer
  | evict now => exact recent_evict h now

theorem seesWrites_sharedStep (s : SharedDB) (a : SharedStep) (h : Recent s) (hq : NoLateFill s a) :
    ∀ answer ∈ (sharedStep s a).2, SeesWrites s answer := by
  cases a with
  | advance reader now fault => exact (recent_advance h hq).2
  | _ =>
    intro answer ha
    cases ha

/-- In every interleaving without late fills, every read sees every write that had returned
when the read started. -/
theorem seesWrites_of_noLateFill (ttl : Nat) (db : DB) (steps : List SharedStep)
    (h : Run.Along sharedStep NoLateFill (startShared ttl db) steps) :
    ∀ e ∈ Run.trace sharedStep (startShared ttl db) steps, SeesWrites e.1 e.2 :=
  Run.good_trace recent_sharedStep seesWrites_sharedStep steps (startShared ttl db)
    (recent_start ttl db) h

def lateConn : APIConnection :=
  ⟨['c'], ['c'], [], "http://a".toList, "none".toList, [], true, []⟩

def writeConn : List SharedStep :=
  [.commit 0 (.saveConnection false lateConn), .purge 0, .purge 0]

/-- The first reader has queried before the write and fills the cache behind it. -/
def lateSteps : List SharedStep :=
  [.readConnections 1, .advance 1 0 none, .advance 1 0 none] ++ writeConn ++
    [.advance 1 0 none, .readConnections 2, .advance 2 1 none]

/-- The number of rows of an answer, and since when; and the numbers of connections since
the start. -/
def rowCounts (e : SharedDB × Answer) : Option (Nat × Nat) × List Nat :=
  (match e.2 with
    | .connections rows since => some (rows.length, since)
    | .endpoints _ _ => none, e.1.history.map fun db => db.getConnections.length)

theorem rowCounts_lateSteps :
    (Run.trace sharedStep (startShared 5 (.empty false)) lateSteps).map rowCounts =
      [(some (0, 0), [0, 1]), (some (0, 1), [0, 1])] := by
  decide +kernel

theorem lateSteps_not_seesWrites :
    ¬ ∀ e ∈ Run.trace sharedStep (startShared 5 (.empty false)) lateSteps, SeesWrites e.1 e.2 := by
  intro h
  have hmem : (some (0, 1), [0, 1]) ∈
      (Run.trace sharedStep (startShared 5 (.empty false)) lateSteps).map rowCounts := by
    rw [rowCounts_lateSteps]
    exact List.mem_cons_of_mem _ (List.mem_singleton_self _)
  obtain ⟨⟨s, answer⟩, he, hcounts⟩ := List.mem_map.mp hmem
  have hsees := h _ he
  obtain ⟨hanswer, hhistory⟩ := Prod.mk.inj hcounts
  cases answer with
  | endpoints rows since => cases hanswer
  | connections rows since =>
    obtain ⟨hlen, rfl⟩ := Prod.mk.inj (Option.some.inj hanswer)
    obtain ⟨i, db, hi, hdb, rfl⟩ := hsees
    have hcount : (s.history.map fun db => db.getConnections.length)[i]? = some 0 := by
      rw [List.getElem?_map, hdb, ← hlen]
      rfl
    rw [hhistory] at hcount
    match i, hi with
    | 1, _ => cases hcount
    | n + 2, _ => simp at hcount

/-- The reader queries behind the write. -/
def timelySteps : List SharedStep :=
  writeConn ++ [.readConnections 1, .advance 1 0 none, .advance 1 0 none, .advance 1 0 none]

theorem rowCounts_timelySteps :
    (Run.trace sharedStep (startShared 5 (.empty false)) timelySteps).map rowCounts =
      [(some (1, 1), [0, 1])] := by
  decide +kernel

theorem timelySteps_seesWrites :
    Run.trace sharedStep (startShared 5 (.empty false)) timelySteps ≠ [] ∧
      ∀ e ∈ Run.trace sharedStep (startShared 5 (.empty false)) timelySteps, SeesWrites e.1 e.2 := by
  refine ⟨?_, seesWrites_of_noLateFill 5 (.empty false) timelySteps
    ⟨trivial, trivial, trivial, trivial, ?_, ?_, ?_, trivial⟩⟩
  · intro hnil
    have hcounts := rowCounts_timelySteps
    rw [hnil] at hcounts
    cases hcounts
  · constructor
    · intro rows since h
      cases h
    · intro rows since h
      cases h
  · constructor
    · intro rows since h
      cases h
    · intro rows since h
      cases h
  · constructor
    · intro rows since h
      cases h
    · intro rows since h
      cases h
      exact ⟨1, _, Nat.le_refl 1, rfl, rfl⟩

end Janus.Server
