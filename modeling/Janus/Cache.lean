import Janus.Lib.Json

/-!
# The TTL cache

Embedding of `pkg/cache`. Times are natural numbers of one clock; a cache that was
never created and one with a lifetime of zero or less both store nothing.
-/

namespace Janus.Cache

set_option autoImplicit false

structure Entry (V : Type) where
  value : V
  expires : Nat
  deriving Repr, DecidableEq

structure TTLCache (V : Type) where
  ttl : Nat
  m : List (Str × Entry V)
  deriving Repr, DecidableEq

namespace TTLCache
variable {V : Type}

def new (ttl : Nat) : TTLCache V := ⟨ttl, []⟩

/-- A lifetime below zero disables the cache as zero does. -/
def ofDuration (ttl : Int) : TTLCache V := new ttl.toNat

def enabled (c : TTLCache V) : Bool := 0 < c.ttl

def get (now : Nat) (key : Str) (c : TTLCache V) : Option V :=
  if !c.enabled then none
  else
    match lookup key c.m with
    | none => none
    | some e => if e.expires < now then none else some e.value

def set (now : Nat) (key : Str) (value : V) (c : TTLCache V) : TTLCache V :=
  if !c.enabled then c else { c with m := setMember key ⟨value, now + c.ttl⟩ c.m }

def delete (key : Str) (c : TTLCache V) : TTLCache V :=
  { c with m := c.m.filter fun e => !decide (e.1 = key) }

def purge (c : TTLCache V) : TTLCache V := { c with m := [] }

/-- What the background sweep removes. -/
def evictExpired (now : Nat) (c : TTLCache V) : TTLCache V :=
  { c with m := c.m.filter fun e => !(e.2.expires < now) }

/-- What is served is an entry that has not expired. -/
theorem live_of_get {c : TTLCache V} {now : Nat} {key : Str} {v : V} (h : c.get now key = some v) :
    ∃ e, (key, e) ∈ c.m ∧ e.value = v ∧ now ≤ e.expires := by
  unfold get at h
  split at h
  · cases h
  · cases he : lookup key c.m with
    | none => simp [he] at h
    | some e =>
      simp only [he] at h
      split at h
      · cases h
      · rename_i hlive
        exact ⟨e, mem_of_lookup he, Option.some.inj h, Nat.le_of_not_lt hlive⟩

theorem mem_of_get {c : TTLCache V} {now : Nat} {key : Str} {v : V} (h : c.get now key = some v) :
    ∃ e, (key, e) ∈ c.m ∧ e.value = v := by
  obtain ⟨e, he, hv, _⟩ := live_of_get h
  exact ⟨e, he, hv⟩

theorem eq_or_mem_of_mem_set {c : TTLCache V} {now : Nat} {key : Str} {v : V} {m : Str × Entry V}
    (h : m ∈ (c.set now key v).m) : m = (key, ⟨v, now + c.ttl⟩) ∨ m ∈ c.m := by
  unfold set at h
  split at h
  · exact Or.inr h
  · exact mem_of_mem_setMember h

theorem mem_set {c : TTLCache V} {now : Nat} {key : Str} {v : V} {m : Str × Entry V}
    (h : m ∈ (c.set now key v).m) : (m.1 = key ∧ m.2.value = v) ∨ m ∈ c.m := by
  rcases eq_or_mem_of_mem_set h with rfl | hold
  · exact Or.inl ⟨rfl, rfl⟩
  · exact Or.inr hold

@[simp] theorem ttl_set (c : TTLCache V) (now : Nat) (key : Str) (v : V) :
    (c.set now key v).ttl = c.ttl := by
  unfold set
  split
  · rfl
  · rfl

theorem mem_of_mem_evictExpired {c : TTLCache V} {now : Nat} {m : Str × Entry V}
    (h : m ∈ (c.evictExpired now).m) : m ∈ c.m :=
  (List.mem_filter.mp h).1

end TTLCache
end Janus.Cache
