import Janus.Cache
import Janus.Lib.Run

/-!
# Runs of the TTL cache

What a read of the cache returns, over all runs of reads, writes and sweeps. A run is
compared with the entries that the writes alone leave. A sweep takes out entries that
no later read returns.
-/

namespace Janus.CacheRuns

set_option autoImplicit false

open Cache (Entry TTLCache)

variable {V : Type}

/-- One call, or one sweep. A read looks the key up and reads the clock `wait` later. A
sweep has read the clock `age` before it gets the lock. -/
inductive Act (V : Type) where
  | tick (d : Nat)
  | set (key : Str) (value : V)
  | get (key : Str) (wait : Nat)
  | delete (key : Str)
  | purge
  | sweep (age : Nat)

/-- The cache as its callers hold it: nil before it is created. -/
structure Clocked (V : Type) where
  now : Nat
  cache : Option (TTLCache V)

def Clocked.get (s : Clocked V) (key : Str) (wait : Nat) : Option V :=
  s.cache.bind fun c => c.get (s.now + wait) key

def step (s : Clocked V) : Act V → Clocked V × List (Option V)
  | .tick d => ({ s with now := s.now + d }, [])
  | .set key value => ({ s with cache := s.cache.map (.set s.now key value) }, [])
  | .get key wait => (s, [s.get key wait])
  | .delete key => ({ s with cache := s.cache.map (.delete key) }, [])
  | .purge => ({ s with cache := s.cache.map .purge }, [])
  | .sweep age => ({ s with cache := s.cache.map (.evictExpired (s.now - age)) }, [])

/-- The results of the reads of a run. -/
def results (s : Clocked V) (as : List (Act V)) : List (Option V) := Run.events step s as

/-- The entry every key holds, expired or not. -/
abbrev Held (V : Type) := Str → Option (Entry V)

namespace Held

def store (key : Str) (e : Option (Entry V)) (h : Held V) : Held V :=
  fun k => if k = key then e else h k

@[simp] theorem store_self (key : Str) (e : Option (Entry V)) (h : Held V) :
    h.store key e key = e :=
  if_pos rfl

@[simp] theorem store_of_ne {key k : Str} (hne : k ≠ key) (e : Option (Entry V)) (h : Held V) :
    h.store key e k = h k :=
  if_neg hne

/-- What a read at `now` makes of the entry. -/
def read (now : Nat) (key : Str) (h : Held V) : Option V :=
  match h key with
  | none => none
  | some e => if e.expires < now then none else some e.value

theorem read_eq_some_iff {now : Nat} {key : Str} {v : V} {h : Held V} :
    h.read now key = some v ↔ ∃ x, h key = some ⟨v, x⟩ ∧ now ≤ x := by
  unfold read
  cases h key with
  | none => simp
  | some e =>
    obtain ⟨w, x⟩ := e
    dsimp only
    split
    · constructor
      · intro hv
        cases hv
      · rintro ⟨y, hy, hle⟩
        cases hy
        omega
    · constructor
      · intro hv
        cases hv
        exact ⟨x, rfl, by omega⟩
      · rintro ⟨y, hy, _⟩
        cases hy
        rfl

end Held

/-- A clock and the entries, none of which a sweep takes out. -/
structure Ideal (V : Type) where
  now : Nat
  held : Held V

def Ideal.start (now : Nat) : Ideal V := ⟨now, fun _ => none⟩

def idealStep (ttl : Nat) (s : Ideal V) : Act V → Ideal V × List (Option V)
  | .tick d => ({ s with now := s.now + d }, [])
  | .set key value => ({ s with held := s.held.store key (some ⟨value, s.now + ttl⟩) }, [])
  | .get key wait => (s, [s.held.read (s.now + wait) key])
  | .delete key => ({ s with held := s.held.store key none }, [])
  | .purge => ({ s with held := fun _ => none }, [])
  | .sweep _ => (s, [])

/-- The cache has the entries the writes leave, but for some that have expired. -/
structure Follows (ttl : Nat) (s : Clocked V) (t : Ideal V) (c : TTLCache V) : Prop where
  cache : s.cache = some c
  lifetime : c.ttl = ttl
  now : s.now = t.now
  keys : (c.m.map Prod.fst).Nodup
  entries : ∀ k, lookup k c.m = t.held k ∨
    (lookup k c.m = none ∧ ∃ e, t.held k = some e ∧ e.expires < t.now)

namespace Follows

variable {ttl : Nat} {s : Clocked V} {t : Ideal V} {c : TTLCache V}

theorem start (ttl now : Nat) :
    Follows ttl ⟨now, some (.new ttl : TTLCache V)⟩ (.start now) (.new ttl) :=
  ⟨rfl, rfl, rfl, List.nodup_nil, fun _ => .inl rfl⟩

theorem get (h : Follows ttl s t c) (hpos : 0 < ttl) (key : Str) (wait : Nat) :
    s.get key wait = t.held.read (t.now + wait) key := by
  have henabled : c.enabled = true := by
    rw [TTLCache.enabled, h.lifetime]
    exact decide_eq_true hpos
  rw [Clocked.get, h.cache, Option.bind_some, TTLCache.get, henabled, h.now, Held.read]
  rcases h.entries key with heq | ⟨hnone, e, he, hexpired⟩
  · rw [heq]
    rfl
  · have hlate : e.expires < t.now + wait := by omega
    rw [hnone, he]
    simp [hlate]

theorem tick (h : Follows ttl s t c) (d : Nat) :
    Follows ttl { s with now := s.now + d } { t with now := t.now + d } c := by
  refine ⟨h.cache, h.lifetime, congrArg (· + d) h.now, h.keys, ?_⟩
  intro k
  rcases h.entries k with heq | ⟨hnone, e, he, hexpired⟩
  · exact .inl heq
  · exact .inr ⟨hnone, e, he, by dsimp only; omega⟩

/-- A write of one key that the cache and the entries make alike. -/
theorem write (h : Follows ttl s t c) {key : Str} {e : Option (Entry V)} {ms : List (Str × Entry V)}
    (hkeys : (ms.map Prod.fst).Nodup) (hself : lookup key ms = e)
    (hother : ∀ k, k ≠ key → lookup k ms = lookup k c.m) :
    Follows ttl { s with cache := some { c with m := ms } } { t with held := t.held.store key e }
      { c with m := ms } := by
  refine ⟨rfl, h.lifetime, h.now, hkeys, ?_⟩
  intro k
  dsimp only
  by_cases hk : k = key
  · subst hk
    rw [Held.store_self]
    exact .inl hself
  · rw [Held.store_of_ne hk, hother k hk]
    exact h.entries k

/-- A sweep takes out entries that expired before it read the clock. -/
theorem sweep (h : Follows ttl s t c) (age : Nat) :
    Follows ttl { s with cache := some (c.evictExpired (s.now - age)) } t
      (c.evictExpired (s.now - age)) := by
  refine ⟨rfl, h.lifetime, h.now, (List.filter_sublist.map Prod.fst).nodup h.keys, ?_⟩
  intro k
  have hlookup : lookup k (c.evictExpired (s.now - age)).m =
      (lookup k c.m).filter fun e => !decide (e.expires < s.now - age) :=
    lookup_filter h.keys k fun m => !decide (m.2.expires < s.now - age)
  rw [hlookup]
  rcases h.entries k with heq | ⟨hnone, hexpired⟩
  · cases he : lookup k c.m with
    | none =>
      rw [he] at heq
      exact .inl heq
    | some e =>
      rw [he] at heq
      by_cases hlate : e.expires < s.now - age
      · refine .inr ⟨by simp [Option.filter, hlate], e, heq.symm, ?_⟩
        have hnow := h.now
        omega
      · exact .inl (by simpa [Option.filter, hlate] using heq)
  · rw [hnone]
    exact .inr ⟨rfl, hexpired⟩

theorem step (h : Follows ttl s t c) (hpos : 0 < ttl) (a : Act V) :
    ∃ c', Follows ttl (step s a).1 (idealStep ttl t a).1 c' := by
  have hcache := h.cache
  cases a with
  | tick d => exact ⟨c, h.tick d⟩
  | set key value =>
    have henabled : c.enabled = true := by
      rw [TTLCache.enabled, h.lifetime]
      exact decide_eq_true hpos
    have hw := h.write (nodup_setMember key ⟨value, t.now + ttl⟩ h.keys)
      (lookup_setMember_self key _ c.m) fun k hk => lookup_setMember_of_ne hk _ c.m
    refine ⟨c.set s.now key value, ?_⟩
    simpa [CacheRuns.step, idealStep, hcache, TTLCache.set, henabled, h.lifetime, h.now] using hw
  | get key wait => exact ⟨c, h⟩
  | delete key =>
    refine ⟨c.delete key, ?_⟩
    simp only [CacheRuns.step, idealStep, hcache, Option.map_some, TTLCache.delete]
    refine h.write ((List.filter_sublist.map Prod.fst).nodup h.keys) ?_
      fun k hk => lookup_filter_of_ne hk c.m
    exact lookup_eq_none_of_forall fun m hm => by simpa using (List.mem_filter.mp hm).2
  | purge =>
    refine ⟨c.purge, ?_⟩
    simp only [CacheRuns.step, idealStep, hcache, Option.map_some]
    exact ⟨rfl, h.lifetime, h.now, List.nodup_nil, fun _ => .inl rfl⟩
  | sweep age =>
    refine ⟨c.evictExpired (s.now - age), ?_⟩
    simp only [CacheRuns.step, idealStep, hcache, Option.map_some]
    exact h.sweep age

end Follows

/-- The cache with its sweeps returns what the entries without sweeps return. -/
theorem results_eq_ideal {ttl : Nat} (hpos : 0 < ttl) {s : Clocked V} {t : Ideal V}
    (h : ∃ c, Follows ttl s t c) (as : List (Act V)) :
    results s as = Run.events (idealStep ttl) t as := by
  refine Run.events_congr (R := fun s t => ∃ c, Follows ttl s t c) (P := fun _ => True)
    ?_ ?_ as s t h fun _ _ => trivial
  · rintro s t a ⟨c, hc⟩ _
    exact hc.step hpos a
  · rintro s t a ⟨c, hc⟩ _
    cases a with
    | get key wait => exact congrArg (fun r => [r]) (hc.get hpos key wait)
    | _ => rfl

/-- The time that passes with one action. -/
def Act.elapsed : Act V → Nat
  | .tick d => d
  | _ => 0

def elapsed (as : List (Act V)) : Nat := (as.map Act.elapsed).sum

/-- The action replaces or removes what the key holds. -/
def Act.Clears (key : Str) : Act V → Prop
  | .set k _ => k = key
  | .delete k => k = key
  | .purge => True
  | _ => False

/-- The run sets the key to the value `n` after its start, and nothing clears the key after that. -/
def LatestSet (key : Str) (v : V) (n : Nat) (as : List (Act V)) : Prop :=
  ∃ before after, as = before ++ .set key v :: after ∧ (∀ a ∈ after, ¬ a.Clears key) ∧
    elapsed before = n

theorem latestSet_cons {key : Str} {v : V} {n : Nat} {a : Act V} {as : List (Act V)} :
    LatestSet key v n (a :: as) ↔ (a = .set key v ∧ (∀ b ∈ as, ¬ b.Clears key) ∧ n = 0) ∨
      ∃ m, LatestSet key v m as ∧ n = a.elapsed + m := by
  constructor
  · rintro ⟨before, after, heq, hclear, rfl⟩
    cases before with
    | nil =>
      cases heq
      exact .inl ⟨rfl, hclear, rfl⟩
    | cons b before =>
      cases heq
      exact .inr ⟨elapsed before, ⟨before, after, rfl, hclear, rfl⟩, by simp [elapsed]⟩
  · rintro (⟨rfl, hclear, rfl⟩ | ⟨m, ⟨before, after, rfl, hclear, rfl⟩, rfl⟩)
    · exact ⟨[], as, rfl, hclear, rfl⟩
    · exact ⟨a :: before, after, rfl, hclear, by simp [elapsed]⟩

theorem now_idealStep (ttl : Nat) (t : Ideal V) (a : Act V) :
    (idealStep ttl t a).1.now = t.now + a.elapsed := by
  cases a with
  | tick d => rfl
  | _ => rfl

theorem held_idealStep_iff {ttl : Nat} {t : Ideal V} {a : Act V} {key : Str} {v : V} {x : Nat} :
    (idealStep ttl t a).1.held key = some ⟨v, x⟩ ↔
      (¬ a.Clears key ∧ t.held key = some ⟨v, x⟩) ∨ (a = .set key v ∧ x = t.now + ttl) := by
  cases a with
  | set k w =>
    by_cases hk : key = k
    · subst hk
      simp [idealStep, Act.Clears, eq_comm]
    · have hne : ¬ k = key := fun he => hk he.symm
      simp [idealStep, Act.Clears, hk, hne]
  | delete k =>
    by_cases hk : key = k
    · subst hk
      simp [idealStep, Act.Clears]
    · have hne : ¬ k = key := fun he => hk he.symm
      simp [idealStep, Act.Clears, hk, hne]
  | _ => simp [idealStep, Act.Clears]

/-- A key holds what it held before the run if nothing cleared it, or what was set last. -/
theorem held_final_iff {ttl : Nat} {key : Str} {v : V} {x : Nat} (as : List (Act V)) (t : Ideal V) :
    (Run.final (idealStep ttl) t as).held key = some ⟨v, x⟩ ↔
      (t.held key = some ⟨v, x⟩ ∧ ∀ a ∈ as, ¬ a.Clears key) ∨
        ∃ n, LatestSet key v n as ∧ x = t.now + n + ttl := by
  induction as generalizing t with
  | nil =>
    constructor
    · intro h
      exact .inl ⟨h, fun _ hm => by cases hm⟩
    · rintro (⟨h, _⟩ | ⟨n, ⟨before, after, heq, _⟩, _⟩)
      · exact h
      · simp at heq
  | cons a as ih =>
    rw [Run.final, ih, held_idealStep_iff, now_idealStep, List.forall_mem_cons]
    constructor
    · rintro (⟨⟨hkeep, hheld⟩ | ⟨rfl, rfl⟩, hclear⟩ | ⟨m, hlatest, rfl⟩)
      · exact .inl ⟨hheld, hkeep, hclear⟩
      · exact .inr ⟨0, latestSet_cons.mpr (.inl ⟨rfl, hclear, rfl⟩), rfl⟩
      · refine .inr ⟨a.elapsed + m, latestSet_cons.mpr ?_, by omega⟩
        exact .inr ⟨m, hlatest, rfl⟩
    · rintro (⟨hheld, hkeep, hclear⟩ | ⟨n, hlatest, rfl⟩)
      · exact .inl ⟨.inl ⟨hkeep, hheld⟩, hclear⟩
      · rcases latestSet_cons.mp hlatest with ⟨rfl, hclear, rfl⟩ | ⟨m, hlater, rfl⟩
        · exact .inl ⟨.inr ⟨rfl, rfl⟩, hclear⟩
        · exact .inr ⟨m, hlater, by omega⟩

def Act.isSweep : Act V → Bool
  | .sweep _ => true
  | _ => false

theorem ideal_events_without_sweeps (ttl : Nat) (t : Ideal V) (as : List (Act V)) :
    Run.events (idealStep ttl) t (as.filter fun a => !a.isSweep) = Run.events (idealStep ttl) t as := by
  induction as generalizing t with
  | nil => rfl
  | cons a as ih =>
    by_cases ha : a.isSweep
    · cases a with
      | sweep age =>
        rw [Run.events_cons]
        exact ih t
      | _ => cases ha
    · rw [List.filter_cons_of_pos (by simpa using ha), Run.events_cons, Run.events_cons, ih]

/-- The state after the cache is created with a lifetime. -/
def opened (ttl : Int) (start : Nat) : Clocked V := ⟨start, some (.ofDuration ttl)⟩

/-- No cache, or one that is disabled. -/
def Disabled (s : Clocked V) : Prop := ∀ c, s.cache = some c → c.ttl = 0

theorem disabled_step {s : Clocked V} (h : Disabled s) (a : Act V) : Disabled (step s a).1 := by
  have hmap {f : TTLCache V → TTLCache V} (hf : ∀ c, (f c).ttl = c.ttl) :
      ∀ c, s.cache.map f = some c → c.ttl = 0 := by
    intro c hc
    obtain ⟨c', hc', rfl⟩ := Option.map_eq_some_iff.mp hc
    rw [hf]
    exact h c' hc'
  cases a with
  | tick d => exact h
  | set key value => exact hmap fun c => TTLCache.ttl_set c s.now key value
  | get key wait => exact h
  | delete key => exact hmap fun _ => rfl
  | purge => exact hmap fun _ => rfl
  | sweep age => exact hmap fun _ => rfl

theorem disabled_final {s : Clocked V} (h : Disabled s) (as : List (Act V)) :
    Disabled (Run.final step s as) := by
  induction as generalizing s with
  | nil => exact h
  | cons a as ih => exact ih (disabled_step h a)

theorem get_of_disabled {s : Clocked V} (h : Disabled s) (as : List (Act V)) (key : Str) (wait : Nat) :
    (Run.final step s as).get key wait = none := by
  have hd := disabled_final h as
  cases hc : (Run.final step s as).cache with
  | none => simp [Clocked.get, hc]
  | some c => simp [Clocked.get, hc, TTLCache.get, TTLCache.enabled, hd c hc]

theorem follows_final {ttl : Nat} (hpos : 0 < ttl) {s : Clocked V} {t : Ideal V}
    (h : ∃ c, Follows ttl s t c) (as : List (Act V)) :
    ∃ c, Follows ttl (Run.final step s as) (Run.final (idealStep ttl) t as) c := by
  induction as generalizing s t with
  | nil => exact h
  | cons a as ih =>
    obtain ⟨c, hc⟩ := h
    exact ih (hc.step hpos a)

theorem now_final_ideal (ttl : Nat) (t : Ideal V) (as : List (Act V)) :
    (Run.final (idealStep ttl) t as).now = t.now + elapsed as := by
  induction as generalizing t with
  | nil => rfl
  | cons a as ih =>
    rw [Run.final, ih, now_idealStep, elapsed, elapsed, List.map_cons, List.sum_cons]
    omega

/-- A read returns the value set last if nothing cleared the key since and the read is no later
than a lifetime after that write. -/
theorem get_final_iff {ttl : Int} (hpos : 0 < ttl) (start : Nat) (as : List (Act V)) (key : Str)
    (wait : Nat) (v : V) :
    (Run.final step (opened ttl start) as).get key wait = some v ↔
      ∃ n, LatestSet key v n as ∧ (elapsed as + wait : Int) ≤ n + ttl := by
  have hnat : 0 < ttl.toNat := by omega
  obtain ⟨c, hc⟩ := follows_final hnat ⟨_, Follows.start ttl.toNat start⟩ as
  have hget : (Run.final step (opened ttl start) as).get key wait = _ := hc.get hnat key wait
  rw [hget, Held.read_eq_some_iff, now_final_ideal]
  constructor
  · rintro ⟨x, hheld, hle⟩
    rcases (held_final_iff as _).mp hheld with ⟨habsurd, _⟩ | ⟨n, hlatest, rfl⟩
    · cases habsurd
    · refine ⟨n, hlatest, ?_⟩
      dsimp only [Ideal.start] at hle
      omega
  · rintro ⟨n, hlatest, hle⟩
    refine ⟨start + n + ttl.toNat, (held_final_iff as _).mpr (.inr ⟨n, hlatest, rfl⟩), ?_⟩
    dsimp only [Ideal.start]
    omega

theorem results_without_sweeps {ttl : Int} (hpos : 0 < ttl) (start : Nat) (as : List (Act V)) :
    results (opened ttl start) (as.filter fun a => !a.isSweep) = results (opened ttl start) as := by
  have hnat : 0 < ttl.toNat := by omega
  have hstart : ∃ c, Follows ttl.toNat (opened ttl start : Clocked V) (.start start) c :=
    ⟨_, Follows.start ttl.toNat start⟩
  rw [results_eq_ideal hnat hstart, results_eq_ideal hnat hstart, ideal_events_without_sweeps]

/-- The cache over all its runs: what a read returns, that sweeps are invisible, and that a
disabled cache has nothing. -/
theorem cache_reads (ttl : Int) (start : Nat) :
    (0 < ttl →
      (∀ (as : List (Act V)) key wait v,
        (Run.final step (opened ttl start) as).get key wait = some v ↔
          ∃ n, LatestSet key v n as ∧ (elapsed as + wait : Int) ≤ n + ttl) ∧
      ∀ as : List (Act V),
        results (opened ttl start) (as.filter fun a => !a.isSweep) = results (opened ttl start) as) ∧
    (ttl ≤ 0 → ∀ (as : List (Act V)) key wait,
      (Run.final step (opened ttl start) as).get key wait = none) ∧
    ∀ (as : List (Act V)) key wait, (Run.final step ⟨start, none⟩ as).get key wait = none := by
  refine ⟨?_, ?_, ?_⟩
  · intro hpos
    exact ⟨get_final_iff hpos start, results_without_sweeps hpos start⟩
  · intro hle
    apply get_of_disabled
    intro c hc
    cases hc
    show ttl.toNat = 0
    omega
  · apply get_of_disabled
    intro c hc
    cases hc

/-- A sweep whose clock reading is old leaves an entry that expires at the time of the read. -/
theorem cache_reads_at_expiry :
    (Run.final step (opened 2 0) [.set ['k'] 7, .tick 2, .sweep 1]).get ['k'] 0 = some 7 :=
  ((cache_reads 2 0).1 (by decide)).1 [.set ['k'] 7, .tick 2, .sweep 1] ['k'] 0 7 |>.mpr
    ⟨0, ⟨[], [.tick 2, .sweep 1], rfl, by simp [Act.Clears], rfl⟩, by decide⟩

end Janus.CacheRuns
