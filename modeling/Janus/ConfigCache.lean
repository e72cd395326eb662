import Janus.ConcurrentSaves

/-!
# The configuration cache

The reads of all connections and of all endpoints go through a cache each, and every
write that succeeds purges both. In a sequential run a live entry is always the table, so
the cache changes nothing but the answer to a read whose query fails.
-/

namespace Janus.Server

set_option autoImplicit false

open Storage Cache

section Fetch

variable {α : Type}

inductive Fetch (α : Type) where
  | lookup
  | query
  | store (rows : List α)

inductive Fetched (α : Type) where
  | running (f : Fetch α)
  | done (rows : List α)
  | failed (cause : Str)

def cacheKey : Str := "all".toList

def Fetch.step (now : Nat) (fault : Option Str) (table : List α) (f : Fetch α)
    (cache : TTLCache (List α)) : Fetched α × TTLCache (List α) :=
  match f with
  | .lookup =>
    match cache.get now cacheKey with
    | some rows => (.done rows, cache)
    | none => (.running .query, cache)
  | .query =>
    match fault with
    | some cause => (.failed cause, cache)
    | none => (.running (.store table), cache)
  | .store rows => (.done rows, cache.set now cacheKey rows)

def Current (table : List α) (cache : TTLCache (List α)) : Prop :=
  ∀ m ∈ cache.m, m.2.value = table

def Fetch.Holds (table : List α) (f : Fetch α) : Prop := ∀ rows, f = .store rows → rows = table

theorem holds_lookup (table : List α) : (Fetch.lookup : Fetch α).Holds table := by
  intro rows h
  cases h

theorem current_set {table : List α} {cache : TTLCache (List α)} (hc : Current table cache)
    (now : Nat) : Current table (cache.set now cacheKey table) := by
  intro m hm
  rcases TTLCache.mem_set hm with ⟨_, hv⟩ | hold
  · exact hv
  · exact hc m hold

theorem current_evictExpired {table : List α} {cache : TTLCache (List α)}
    (hc : Current table cache) (now : Nat) : Current table (cache.evictExpired now) :=
  fun m hm => hc m (TTLCache.mem_of_mem_evictExpired hm)

theorem current_fetch (now : Nat) (fault : Option Str) {table : List α} {f : Fetch α}
    {cache : TTLCache (List α)} (hf : f.Holds table) (hc : Current table cache) :
    Current table (f.step now fault table cache).2 := by
  cases f with
  | lookup =>
    unfold Fetch.step
    dsimp only
    split
    · exact hc
    · exact hc
  | query =>
    unfold Fetch.step
    dsimp only
    split
    · exact hc
    · exact hc
  | store rows =>
    rw [hf rows rfl]
    exact current_set hc now

theorem holds_fetch {now : Nat} {fault : Option Str} {table : List α} {f g : Fetch α}
    {cache : TTLCache (List α)} (h : (f.step now fault table cache).1 = .running g) :
    g.Holds table := by
  intro rows hg
  subst hg
  cases f with
  | lookup =>
    simp only [Fetch.step] at h
    split at h
    · cases h
    · cases h
  | query =>
    simp only [Fetch.step] at h
    split at h
    · cases h
    · cases h
      rfl
  | store v => cases h

/-- What a read returns is the table, unless it found something else in the cache. -/
theorem fetch_done {now : Nat} {fault : Option Str} {table : List α} {f : Fetch α}
    {cache : TTLCache (List α)} {rows : List α} (hf : f.Holds table)
    (hc : f = .lookup → Current table cache)
    (h : (f.step now fault table cache).1 = .done rows) : rows = table := by
  cases f with
  | lookup =>
    simp only [Fetch.step] at h
    split at h
    · rename_i v hget
      cases h
      obtain ⟨e, he, rfl⟩ := TTLCache.mem_of_get hget
      exact hc rfl _ he
    · cases h
  | query =>
    simp only [Fetch.step] at h
    split at h
    · cases h
    · cases h
  | store v =>
    cases h
    exact hf rows rfl

end Fetch

inductive Reader where
  | endpoints (f : Fetch APIEndpoint)
  | connections (f : Fetch APIConnection)

structure Caches where
  endpoints : TTLCache (List APIEndpoint)
  connections : TTLCache (List APIConnection)

/-- The purges that a committed write has still to do. -/
inductive Purge where
  | both
  | endpoints
  deriving DecidableEq

/-- The purge that is left after the next one. -/
def Purge.rest : Purge → Option Purge
  | .both => some .endpoints
  | .endpoints => none

/-- A write at its commit. The version of a saved endpoint comes from an earlier read. -/
inductive Commit where
  | saveConnection (fails : Bool) (conn : APIConnection)
  | deleteConnection (fails : Bool) (id : Str)
  | saveEndpoint (fails : Bool) (seen : Option (Str × Nat)) (ep : APIEndpoint)
  | deleteEndpoint (fails : Bool) (id : Str)

def Commit.exec (db : DB) : Commit → Except StoreError DB
  | .saveConnection fails conn => db.saveConnection fails conn
  | .deleteConnection fails id => db.deleteConnection fails id
  | .saveEndpoint fails seen ep => upsertEndpoint fails (versioned seen ep) db
  | .deleteEndpoint fails id => db.deleteEndpoint fails id

structure CachedDB where
  db : DB
  caches : Caches

def enableConfigCache (ttl : Nat) (db : DB) : CachedDB := ⟨db, ⟨.new ttl, .new ttl⟩⟩

def invalidateCaches (c : Caches) : Caches := ⟨c.endpoints.purge, c.connections.purge⟩

/-- A read by itself. It looks into the cache at `now` and fills it at `filled`. -/
def readThrough {α : Type} (now filled : Nat) (fault : Option Str) (table : List α)
    (cache : TTLCache (List α)) : Except Str (List α) × TTLCache (List α) :=
  match cache.get now cacheKey with
  | some rows => (.ok rows, cache)
  | none =>
    match fault with
    | some cause => (.error cause, cache)
    | none => (.ok table, cache.set filled cacheKey table)

/-- Time passes between any two operations, and `fault` is what the query of a read comes to. -/
inductive CacheOp where
  | getConnections (now filled : Nat) (fault : Option Str)
  | getAllEndpoints (now filled : Nat) (fault : Option Str)
  | write (op : DbOp)

inductive Output where
  | connections (r : Except Str (List APIConnection))
  | endpoints (r : Except Str (List APIEndpoint))
  | written (e : Option StoreError)

def cacheStep (s : CachedDB) : CacheOp → CachedDB × List Output
  | .getConnections now filled fault =>
    let (r, cache) := readThrough now filled fault s.db.getConnections s.caches.connections
    ({ s with caches := { s.caches with connections := cache } }, [.connections r])
  | .getAllEndpoints now filled fault =>
    let (r, cache) := readThrough now filled fault s.db.getAllEndpoints s.caches.endpoints
    ({ s with caches := { s.caches with endpoints := cache } }, [.endpoints r])
  | .write op =>
    match op.exec s.db with
    | .error e => (s, [.written (some e)])
    | .ok db => (⟨db, invalidateCaches s.caches⟩, [.written none])

def outputs (s : CachedDB) (ops : List CacheOp) : List Output :=
  (Run.trace cacheStep s ops).map Prod.snd

def CacheOp.healthy : CacheOp → CacheOp
  | .getConnections now filled _ => .getConnections now filled none
  | .getAllEndpoints now filled _ => .getAllEndpoints now filled none
  | .write op => .write op

def Output.Failed : Output → Prop
  | .connections r => ∃ cause, r = .error cause
  | .endpoints r => ∃ cause, r = .error cause
  | .written _ => False

/-- What is returned without the cache, or, where the query fails there, perhaps what it
would return if the query succeeded. -/
def Serves (out : Output) (plain : Output × Output) : Prop :=
  out = plain.1 ∨ (plain.1.Failed ∧ out = plain.2)

/-- A read by itself is the steps of a read, taken without a break. -/
theorem readThrough_steps {α : Type} (now filled : Nat) (fault : Option Str) (table : List α)
    (cache : TTLCache (List α)) :
    (∃ rows, readThrough now filled fault table cache = (.ok rows, cache) ∧
        Fetch.lookup.step now fault table cache = (.done rows, cache)) ∨
      (Fetch.lookup.step now fault table cache = (.running .query, cache) ∧
        ((∃ cause, readThrough now filled fault table cache = (.error cause, cache) ∧
            Fetch.query.step now fault table cache = (.failed cause, cache)) ∨
          ∃ rows cache', readThrough now filled fault table cache = (.ok rows, cache') ∧
            Fetch.query.step now fault table cache = (.running (.store rows), cache) ∧
            (Fetch.store rows).step filled fault table cache = (.done rows, cache'))) := by
  unfold readThrough Fetch.step
  cases cache.get now cacheKey with
  | some rows => exact Or.inl ⟨rows, rfl, rfl⟩
  | none =>
    refine Or.inr ⟨rfl, ?_⟩
    cases fault with
    | some cause => exact Or.inl ⟨cause, rfl, rfl⟩
    | none => exact Or.inr ⟨table, _, rfl, rfl, rfl⟩

/-- With current entries a read returns the table, and leaves current entries. -/
theorem readThrough_current {α : Type} (now filled : Nat) (fault : Option Str) {table : List α}
    {cache : TTLCache (List α)} (hc : Current table cache) :
    ((readThrough now filled fault table cache).1 = .ok table ∨
        ∃ cause, fault = some cause ∧ (readThrough now filled fault table cache).1 = .error cause) ∧
      Current table (readThrough now filled fault table cache).2 := by
  unfold readThrough
  cases hget : cache.get now cacheKey with
  | some rows =>
    obtain ⟨e, he, rfl⟩ := TTLCache.mem_of_get hget
    exact ⟨Or.inl (congrArg Except.ok (hc _ he)), hc⟩
  | none =>
    cases fault with
    | some cause => exact ⟨Or.inr ⟨cause, rfl, rfl⟩, hc⟩
    | none => exact ⟨Or.inl rfl, current_set hc filled⟩

theorem readThrough_disabled {α : Type} (now filled : Nat) (fault : Option Str) (table : List α) :
    readThrough now filled fault table (.new 0) =
      (match fault with | some cause => .error cause | none => .ok table, .new 0) := by
  cases fault with
  | some cause => rfl
  | none => rfl

/-- Live entries are the tables. -/
structure CachesCurrent (s : CachedDB) : Prop where
  endpoints : Current s.db.getAllEndpoints s.caches.endpoints
  connections : Current s.db.getConnections s.caches.connections

theorem cachesCurrent_start (ttl : Nat) (db : DB) : CachesCurrent (enableConfigCache ttl db) where
  endpoints _ hm := by cases hm
  connections _ hm := by cases hm

/-- Every operation keeps the entries current. A write that succeeds leaves none. -/
theorem cachesCurrent_step {s : CachedDB} (h : CachesCurrent s) (op : CacheOp) :
    CachesCurrent (cacheStep s op).1 := by
  cases op with
  | getConnections now filled fault =>
    exact ⟨h.endpoints, (readThrough_current now filled fault h.connections).2⟩
  | getAllEndpoints now filled fault =>
    exact ⟨(readThrough_current now filled fault h.endpoints).2, h.connections⟩
  | write op =>
    unfold cacheStep
    dsimp only
    cases op.exec s.db with
    | error e => exact h
    | ok db => exact ⟨fun _ hm => (List.not_mem_nil hm).elim, fun _ hm => (List.not_mem_nil hm).elim⟩

def CachedDB.plain (s : CachedDB) : CachedDB := enableConfigCache 0 s.db

theorem plain_step (s : CachedDB) (op : CacheOp) :
    (cacheStep s.plain op).1 = (cacheStep s op).1.plain ∧
      (cacheStep s.plain op.healthy).1 = (cacheStep s op).1.plain := by
  cases op with
  | getConnections now filled fault =>
    simp only [cacheStep, CacheOp.healthy, CachedDB.plain, enableConfigCache, readThrough_disabled]
    exact ⟨trivial, trivial⟩
  | getAllEndpoints now filled fault =>
    simp only [cacheStep, CacheOp.healthy, CachedDB.plain, enableConfigCache, readThrough_disabled]
    exact ⟨trivial, trivial⟩
  | write op =>
    simp only [cacheStep, CacheOp.healthy, CachedDB.plain, enableConfigCache]
    cases op.exec s.db with
    | error e => exact ⟨rfl, rfl⟩
    | ok db => exact ⟨rfl, rfl⟩

/-- Each operation returns one thing, and it serves what is returned without the cache. -/
theorem serves_step {s : CachedDB} (h : CachesCurrent s) (op : CacheOp) :
    ∃ out plain healthy, (cacheStep s op).2 = [out] ∧ (cacheStep s.plain op).2 = [plain] ∧
      (cacheStep s.plain op.healthy).2 = [healthy] ∧ Serves out (plain, healthy) := by
  cases op with
  | getConnections now filled fault =>
    refine ⟨_, _, _, rfl, rfl, rfl, ?_⟩
    simp only [CachedDB.plain, enableConfigCache]
    rcases (readThrough_current now filled fault h.connections).1 with hok | ⟨cause, rfl, herr⟩
    · cases fault with
      | none => exact Or.inl (congrArg Output.connections hok)
      | some cause => exact Or.inr ⟨⟨cause, rfl⟩, congrArg Output.connections hok⟩
    · exact Or.inl (congrArg Output.connections herr)
  | getAllEndpoints now filled fault =>
    refine ⟨_, _, _, rfl, rfl, rfl, ?_⟩
    simp only [CachedDB.plain, enableConfigCache]
    rcases (readThrough_current now filled fault h.endpoints).1 with hok | ⟨cause, rfl, herr⟩
    · cases fault with
      | none => exact Or.inl (congrArg Output.endpoints hok)
      | some cause => exact Or.inr ⟨⟨cause, rfl⟩, congrArg Output.endpoints hok⟩
    · exact Or.inl (congrArg Output.endpoints herr)
  | write op =>
    simp only [cacheStep, CacheOp.healthy, CachedDB.plain, enableConfigCache]
    cases op.exec s.db with
    | error e => exact ⟨_, _, _, rfl, rfl, rfl, Or.inl rfl⟩
    | ok db => exact ⟨_, _, _, rfl, rfl, rfl, Or.inl rfl⟩

theorem outputs_cons (s : CachedDB) (op : CacheOp) (ops : List CacheOp) :
    outputs s (op :: ops) = (cacheStep s op).2 ++ outputs (cacheStep s op).1 ops := by
  simp [outputs, Run.trace, Function.comp_def]

theorem outputs_serve {s : CachedDB} (h : CachesCurrent s) (ops : List CacheOp) :
    List.Forall₂ Serves (outputs s ops)
      ((outputs s.plain ops).zip (outputs s.plain (ops.map CacheOp.healthy))) := by
  induction ops generalizing s with
  | nil => exact .nil
  | cons op ops ih =>
    obtain ⟨out, plain, healthy, hout, hplain, hhealthy, hserves⟩ := serves_step h op
    obtain ⟨hnext, hnext'⟩ := plain_step s op
    rw [List.map_cons, outputs_cons, outputs_cons, outputs_cons, hout, hplain, hhealthy, hnext, hnext']
    exact .cons hserves (ih (cachesCurrent_step h op))

/-- In every sequential run, every read whose query succeeds without the cache returns the
same with it. One whose query fails there returns that error, or the rows of the tables. -/
theorem configCache_serves (ttl : Nat) (db : DB) (ops : List CacheOp) :
    List.Forall₂ Serves (outputs (enableConfigCache ttl db) ops)
      ((outputs (enableConfigCache 0 db) ops).zip
        (outputs (enableConfigCache 0 db) (ops.map CacheOp.healthy))) :=
  outputs_serve (cachesCurrent_start ttl db) ops

def outageOps : List CacheOp :=
  [.getConnections 0 0 none, .getConnections 1 1 (some "database is closed".toList)]

/-- The cache answers the second read, which fails without it. -/
theorem outageOps_differ :
    outputs (enableConfigCache 5 (.empty false)) outageOps ≠
      outputs (enableConfigCache 0 (.empty false)) outageOps := by
  intro h
  cases h

end Janus.Server
