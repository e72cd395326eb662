import Janus.Lib.Run
import Janus.ResponseCache

/-!
# Rotated secrets

A call takes its secret from the vault or from the secret cache of the client, which no
write to the vault purges. In every run of one process the credentials of a request are
made from what the vault held at the time of the call, or at an earlier time that lies no
further back than the lifetime of the cache.
-/

namespace Janus.Gateway

set_option autoImplicit false

open Storage Cache Vault

/-- One process: its vault, its client, and the vaults of the past with their times. -/
structure Process where
  vault : Provider
  client : Client
  clock : Nat
  held : List (Nat × Provider)

inductive ProcessAction where
  | setSecret (now : Nat) (fault : Option Str) (nonce name value : Str)
  | deleteSecret (now : Nat) (fault : Option Str) (name : Str)
  | call (env : CallEnv) (conn : APIConnection) (ep : APIEndpoint) (args : Option Params)
  /-- The background sweep of both caches. -/
  | sweep (now : Nat)

def ProcessAction.now : ProcessAction → Nat
  | .setSecret now _ _ _ _ => now
  | .deleteSecret now _ _ => now
  | .call env _ _ _ => env.now
  | .sweep now => now

structure Sent where
  now : Nat
  conn : APIConnection
  req : Request

def Process.act (p : Process) (a : ProcessAction) : Process × List Sent :=
  let held := p.held ++ [(a.now, p.vault)]
  match a with
  | .setSecret now fault nonce name value =>
    (⟨(p.vault.setSecret fault nonce name value).1, p.client, now, held⟩, [])
  | .deleteSecret now fault name => (⟨(p.vault.deleteSecret fault name).1, p.client, now, held⟩, [])
  | .call env conn ep args =>
    let out := executeCall env p.vault conn ep args p.client
    (⟨p.vault, out.client, env.now, held⟩, (out.request.map fun req => ⟨env.now, conn, req⟩).toList)
  | .sweep now =>
    (⟨p.vault, { p.client with
        secretCache := p.client.secretCache.evictExpired now
        respCache := p.client.respCache.evictExpired now }, now, held⟩, [])

def OnTime (p : Process) (a : ProcessAction) : Prop := p.clock ≤ a.now

/-- The vault held the value at the time: now, or at a time of the past. -/
def HeldAt (p : Process) (now t : Nat) (ref value : Str) : Prop :=
  ∃ vault, ((t, vault) ∈ p.held ∨ (t = now ∧ vault = p.vault)) ∧
    vault.getSecret none ref = .ok value

/-- The request has no credentials because the connection asks for none, or they are made from
a value that the vault held no longer than `ttl` ago. -/
def Recent (ttl : Nat) (p : Process) (x : Sent) : Prop :=
  ((x.conn.authType = "none".toList ∨ x.conn.authSecretRef = []) ∧ x.req.credential = .none) ∨
    ∃ t value, HeldAt p x.now t x.conn.authSecretRef value ∧ t ≤ x.now ∧ x.now ≤ t + ttl ∧
      credentialOf x.conn.authType value = .ok x.req.credential

section Call
variable {env : CallEnv} {vault : Provider} {conn : APIConnection} {ref : Str} {c : Client}

theorem getSecret_cases {value : Str} {c' : Client} (h : getSecret env vault ref c = (.ok value, c')) :
    (c.secretCache.get env.now ref = some value ∧ c' = c) ∨
      (vault.getSecret none ref = .ok value ∧
        c' = { c with secretCache := c.secretCache.set env.now ref value }) := by
  unfold getSecret at h
  split at h
  · rename_i v hv
    cases h
    exact Or.inl ⟨hv, rfl⟩
  · split at h
    · cases h
    · rename_i v hv
      cases h
      exact Or.inr ⟨getSecret_of_ok hv, rfl⟩

theorem injectAuth_cases {credential : Credential} {c' : Client}
    (h : injectAuth env vault conn c = (.ok credential, c')) :
    ((conn.authType = "none".toList ∨ conn.authSecretRef = []) ∧ credential = .none ∧ c' = c) ∨
      ∃ value, getSecret env vault conn.authSecretRef c = (.ok value, c') ∧
        credentialOf conn.authType value = .ok credential := by
  unfold injectAuth at h
  split at h
  · cases hg : getSecret env vault conn.authSecretRef c with
    | mk result c₁ =>
      rw [hg] at h
      cases result with
      | error e => cases h
      | ok value =>
        obtain ⟨hcred, rfl⟩ := Prod.mk.inj h
        exact Or.inr ⟨value, rfl, hcred⟩
  · rename_i hnone
    cases h
    refine Or.inl ⟨?_, rfl, rfl⟩
    by_contra hno
    rw [not_or] at hno
    exact hnone (by simpa using hno)

theorem injectAuth_secretCache (env : CallEnv) (vault : Provider) (conn : APIConnection)
    (c : Client) :
    (injectAuth env vault conn c).2.secretCache = c.secretCache ∨
      ∃ value, vault.getSecret none conn.authSecretRef = .ok value ∧
        (injectAuth env vault conn c).2.secretCache =
          c.secretCache.set env.now conn.authSecretRef value := by
  unfold injectAuth
  split
  · cases hg : getSecret env vault conn.authSecretRef c with
    | mk result c' =>
      cases result with
      | error e =>
        left
        unfold getSecret at hg
        split at hg
        · cases hg
        · split at hg
          · cases hg
            rfl
          · cases hg
      | ok value =>
        rcases getSecret_cases hg with ⟨_, rfl⟩ | ⟨hv, rfl⟩
        · exact Or.inl rfl
        · exact Or.inr ⟨value, hv, rfl⟩
  · exact Or.inl rfl

variable {ep : APIEndpoint} {args : Option Params}

theorem executeCall_secretCache (env : CallEnv) (vault : Provider) (conn : APIConnection)
    (ep : APIEndpoint) (args : Option Params) (c : Client) :
    (executeCall env vault conn ep args c).client.secretCache = c.secretCache ∨
      ∃ value, vault.getSecret none conn.authSecretRef = .ok value ∧
        (executeCall env vault conn ep args c).client.secretCache =
          c.secretCache.set env.now conn.authSecretRef value := by
  have hinj := injectAuth_secretCache env vault conn c
  unfold executeCall
  split
  · exact Or.inl rfl
  · split
    · exact Or.inl rfl
    · unfold fetch
      split
      · exact Or.inl rfl
      · split
        · rename_i hauth
          rw [hauth] at hinj
          exact hinj
        · rename_i hauth
          rw [hauth] at hinj
          dsimp only
          split
          · exact hinj
          · split
            · exact hinj
            · exact hinj

theorem executeCall_credential {req : Request}
    (h : (executeCall env vault conn ep args c).request = some req) :
    (injectAuth env vault conn c).1 = .ok req.credential := by
  unfold executeCall at h
  split at h
  · cases h
  · split at h
    · cases h
    · unfold fetch at h
      split at h
      · cases h
      · split at h
        · cases h
        · rename_i hauth
          rw [hauth]
          dsimp only at h
          split at h
          · cases h
            rfl
          · split at h
            · cases h
              rfl
            · cases h
              rfl

end Call

/-- Every cached secret is one that the vault held when it was cached. -/
structure FreshEntries (ttl : Nat) (p : Process) : Prop where
  lifetime : p.client.secretCache.ttl = ttl
  past : ∀ m ∈ p.held, m.1 ≤ p.clock
  entries : ∀ m ∈ p.client.secretCache.m, ∃ t vault, (t, vault) ∈ p.held ∧
    vault.getSecret none m.1 = .ok m.2.value ∧ m.2.expires = t + ttl

theorem FreshEntries.act {ttl : Nat} {p : Process} (h : FreshEntries ttl p) (a : ProcessAction)
    (hclock : OnTime p a) : FreshEntries ttl (p.act a).1 := by
  have hpast : ∀ m ∈ p.held ++ [(a.now, p.vault)], m.1 ≤ a.now := by
    intro m hm
    rcases List.mem_append.mp hm with hm | hm
    · exact (h.past m hm).trans hclock
    · rw [List.mem_singleton.mp hm]
  have hentries : ∀ m ∈ p.client.secretCache.m, ∃ t vault, (t, vault) ∈ p.held ++ [(a.now, p.vault)] ∧
      vault.getSecret none m.1 = .ok m.2.value ∧ m.2.expires = t + ttl := by
    intro m hm
    obtain ⟨t, vault, hheld, hrest⟩ := h.entries m hm
    exact ⟨t, vault, List.mem_append_left _ hheld, hrest⟩
  cases a with
  | setSecret now fault nonce name value => exact ⟨h.lifetime, hpast, hentries⟩
  | deleteSecret now fault name => exact ⟨h.lifetime, hpast, hentries⟩
  | sweep now =>
    exact ⟨h.lifetime, hpast, fun m hm => hentries m (TTLCache.mem_of_mem_evictExpired hm)⟩
  | call env conn ep args =>
    rcases executeCall_secretCache env p.vault conn ep args p.client with hsame | ⟨value, hv, hset⟩
    · refine ⟨?_, hpast, ?_⟩
      · exact (congrArg TTLCache.ttl hsame).trans h.lifetime
      · intro m hm
        exact hentries m (hsame ▸ hm)
    · refine ⟨?_, hpast, ?_⟩
      · exact (congrArg TTLCache.ttl hset).trans ((TTLCache.ttl_set ..).trans h.lifetime)
      · intro m hm
        have hm' : m ∈ (p.client.secretCache.set env.now conn.authSecretRef value).m := hset ▸ hm
        rcases TTLCache.eq_or_mem_of_mem_set hm' with rfl | hold
        · -- The new entry is what the vault holds now.
          exact ⟨env.now, p.vault, List.mem_append_right _ List.mem_cons_self, hv, by rw [h.lifetime]⟩
        · exact hentries m hold

theorem recent_act {ttl : Nat} {p : Process} (h : FreshEntries ttl p) (a : ProcessAction)
    (hclock : OnTime p a) : ∀ x ∈ (p.act a).2, Recent ttl p x := by
  cases a with
  | setSecret now fault nonce name value => exact fun x hx => absurd hx List.not_mem_nil
  | deleteSecret now fault name => exact fun x hx => absurd hx List.not_mem_nil
  | sweep now => exact fun x hx => absurd hx List.not_mem_nil
  | call env conn ep args =>
    intro x hx
    obtain ⟨req, hreq, rfl⟩ := Option.map_eq_some_iff.mp (Option.mem_toList.mp hx)
    have hcred := executeCall_credential hreq
    cases hinj : injectAuth env p.vault conn p.client with
    | mk result c' =>
      rw [hinj] at hcred
      dsimp only at hcred
      rw [hcred] at hinj
      rcases injectAuth_cases hinj with ⟨hnone, hempty, _⟩ | ⟨value, hget, hvalue⟩
      · exact Or.inl ⟨hnone, hempty⟩
      · refine Or.inr ?_
        rcases getSecret_cases hget with ⟨hcached, _⟩ | ⟨hread, _⟩
        · obtain ⟨e, he, hev, hlive⟩ := TTLCache.live_of_get hcached
          obtain ⟨t, vault, hheld, hv, hexp⟩ := h.entries _ he
          rw [hev] at hv
          exact ⟨t, value, ⟨vault, Or.inl hheld, hv⟩, (h.past _ hheld).trans hclock, hexp ▸ hlive, hvalue⟩
        · exact ⟨env.now, value, ⟨p.vault, Or.inr ⟨rfl, rfl⟩, hread⟩, Nat.le_refl _,
            Nat.le_add_right _ _, hvalue⟩

/-- In every run on a new client, the credentials of every request are made from what the vault
held for the reference at the time of the call, or at most the lifetime of the cache before. -/
theorem recent_trace (egress : EgressPolicy) (secretTTL respTTL maxRetries start : Nat)
    (vault : Provider) (actions : List ProcessAction)
    (hclock : Run.Along Process.act OnTime
      ⟨vault, newGatewayClient egress secretTTL respTTL maxRetries, start, []⟩ actions) :
    ∀ e ∈ Run.trace Process.act ⟨vault, newGatewayClient egress secretTTL respTTL maxRetries, start, []⟩
      actions, Recent secretTTL e.1 e.2 := by
  have hstart : FreshEntries secretTTL
      ⟨vault, newGatewayClient egress secretTTL respTTL maxRetries, start, []⟩ :=
    ⟨rfl, fun m hm => absurd hm List.not_mem_nil, fun m hm => absurd hm List.not_mem_nil⟩
  exact Run.good_trace (fun _ a h ha => h.act a ha) (fun _ a h ha => recent_act h a ha) actions _
    hstart hclock

/-- The credentials are made from what the vault holds when the call is made. -/
def Immediate (p : Process) (x : Sent) : Prop :=
  ((x.conn.authType = "none".toList ∨ x.conn.authSecretRef = []) ∧ x.req.credential = .none) ∨
    ∃ value, p.vault.getSecret none x.conn.authSecretRef = .ok value ∧
      credentialOf x.conn.authType value = .ok x.req.credential

def rotatedConn : APIConnection :=
  ⟨['c'], ['c'], [], "http://h".toList, "bearer".toList, ['a'], true, []⟩

def rotatedCall (now : Nat) : ProcessAction :=
  .call ⟨now, now, fun _ => .ok [], none, fun _ => none, fun _ => .reply 200 ['o', 'k']⟩ rotatedConn
    ⟨['e'], ['c'], ['x'], [], ['/'], "GET".toList, [], [], [], 0⟩ none

/-- A secret is used, replaced, used, deleted and used again within the lifetime of the cache. -/
def rotatedRun : List ProcessAction :=
  [rotatedCall 0, .setSecret 1 none [] ['a'] ['2'], rotatedCall 2, .deleteSecret 3 none ['a'], rotatedCall 4]

def rotatedStart : Process :=
  ⟨.local [(['a'], ['1'])], newGatewayClient ⟨[], true⟩ 30 0 0, 0, []⟩

theorem trace_rotatedRun :
    (Run.trace Process.act rotatedStart rotatedRun).map (fun e =>
        (e.1.vault.getSecret none ['a'], e.2.conn, e.2.req.credential)) =
      [(.ok ['1'], rotatedConn, .bearer ['1']), (.ok ['2'], rotatedConn, .bearer ['1']),
        (.error (.notInLocalVault ['a']), rotatedConn, .bearer ['1'])] := by
  decide +kernel

theorem rotatedRun_recent :
    Run.trace Process.act rotatedStart rotatedRun ≠ [] ∧
      ∀ e ∈ Run.trace Process.act rotatedStart rotatedRun, Recent 30 e.1 e.2 := by
  have hclock : Run.Along Process.act OnTime rotatedStart rotatedRun :=
    ⟨Nat.zero_le 0, Nat.zero_le 1, Nat.le_succ 1, Nat.le_succ 2, Nat.le_succ 3, trivial⟩
  refine ⟨?_, recent_trace ⟨[], true⟩ 30 0 0 0 (.local [(['a'], ['1'])]) rotatedRun hclock⟩
  intro hnil
  have hmap := trace_rotatedRun
  rw [hnil] at hmap
  cases hmap

/-- The replaced secret is sent, and after it the deleted one. -/
theorem rotatedRun_not_immediate :
    ¬ ∀ e ∈ Run.trace Process.act rotatedStart rotatedRun, Immediate e.1 e.2 := by
  intro h
  have hmem : (Except.ok ['2'], rotatedConn, Credential.bearer ['1']) ∈
      (Run.trace Process.act rotatedStart rotatedRun).map (fun e =>
        (e.1.vault.getSecret none ['a'], e.2.conn, e.2.req.credential)) := by
    rw [trace_rotatedRun]
    exact List.mem_cons_of_mem _ List.mem_cons_self
  obtain ⟨e, he, heq⟩ := List.mem_map.mp hmem
  simp only [Prod.mk.injEq] at heq
  obtain ⟨hvault, hconn, hcred⟩ := heq
  have hi := h e he
  rw [Immediate, hconn, hcred] at hi
  rcases hi with ⟨_, hnone⟩ | ⟨value, hv, hvalue⟩
  · cases hnone
  · have hsame : value = ['2'] := Except.ok.inj (hv.symm.trans hvault)
    rw [hsame] at hvalue
    revert hvalue
    decide +kernel

end Janus.Gateway
