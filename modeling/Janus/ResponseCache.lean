import Janus.Gateway
import Janus.Lib.Run

/-!
# Where a cached response comes from

The response cache is looked up by the method and the URL of a call, before its
credentials are resolved. In every run of calls and sweeps a cached text is the text of
an earlier request of the run to the same URL, whatever credentials that one carried.
-/

namespace Janus.Gateway

set_option autoImplicit false

open Storage Cache Vault

/-- What one call is made with. -/
structure Call where
  env : CallEnv
  vault : Provider
  conn : APIConnection
  ep : APIEndpoint
  args : Option Params

/-- A call and the client it was made on. -/
structure Exchange where
  call : Call
  client : Client

namespace Exchange

def out (x : Exchange) : CallResult :=
  executeCall x.call.env x.call.vault x.call.conn x.call.ep x.call.args x.client

/-- The credentials that the connection of the call injects. -/
def credential (x : Exchange) : Except ExecError Credential :=
  (injectAuth x.call.env x.call.vault x.call.conn x.client).1

/-- The destination of the call. -/
def url (x : Exchange) : Option Str :=
  (resolveURL x.client.egress x.call.env x.call.conn x.call.ep
    (x.call.args.getD [])).toOption.map Url.URL.string

/-- The call sent a GET request with its own credentials to the URL and returned the text. -/
def Fetched (x : Exchange) (url text : Str) : Prop :=
  ∃ req, x.out.request = some req ∧ x.out.result = .ok text ∧ x.credential = .ok req.credential ∧
    req.method = "GET".toList ∧ req.url = url

end Exchange

/-- The client and the calls made on it so far. -/
structure History where
  client : Client
  past : List Exchange

inductive CacheAction where
  | call (c : Call)
  /-- The background sweep of both caches. -/
  | sweep (now : Nat)

def act (h : History) : CacheAction → History × List Exchange
  | .call c =>
    let x : Exchange := ⟨c, h.client⟩
    (⟨x.out.client, h.past ++ [x]⟩, [x])
  | .sweep now =>
    (⟨{ h.client with
        secretCache := h.client.secretCache.evictExpired now
        respCache := h.client.respCache.evictExpired now }, h.past⟩, [])

def newGatewayClient (egress : EgressPolicy) (secretTTL respTTL maxRetries : Nat) : Client :=
  ⟨egress, .new secretTTL, .new respTTL, maxRetries⟩

theorem respCache_getSecret (env : CallEnv) (vault : Provider) (ref : Str) (c : Client) :
    (getSecret env vault ref c).2.respCache = c.respCache := by
  unfold getSecret
  split
  · rfl
  · split <;> rfl

theorem respCache_injectAuth (env : CallEnv) (vault : Provider) (conn : APIConnection) (c : Client) :
    (injectAuth env vault conn c).2.respCache = c.respCache := by
  have hs := respCache_getSecret env vault conn.authSecretRef c
  unfold injectAuth
  split
  · cases hg : getSecret env vault conn.authSecretRef c with
    | mk result c' =>
      rw [hg] at hs
      cases result <;> exact hs
  · rfl

/-- The request of a GET endpoint. -/
theorem newRequest_get {ep : APIEndpoint} {args : Option Params} {u : Url.URL} {req : Request}
    (hget : ep.method = "GET".toList) (h : newRequest ep args u = .ok req) :
    req.method = "GET".toList ∧ req.url = u.string := by
  have hm : requestMethod ep.method = some "GET".toList := by
    rw [hget]
    decide
  unfold newRequest at h
  rw [hm] at h
  dsimp only at h
  split at h
  · cases h
  · cases h
    exact ⟨rfl, rfl⟩

/-- A call after a cache miss changes the response cache only when it returns a text that a
GET request fetched. -/
theorem fetch_cases (env : CallEnv) (vault : Provider) (conn : APIConnection) (ep : APIEndpoint)
    (args : Option Params) (u : Url.URL) (c : Client) :
    (fetch env vault conn ep args u c).client.respCache = c.respCache ∨
      ∃ text, ep.method = "GET".toList ∧ (fetch env vault conn ep args u c).result = .ok text ∧
        (fetch env vault conn ep args u c).client.respCache =
          c.respCache.set env.done (cacheKey ep u) text := by
  have hinj := respCache_injectAuth env vault conn c
  unfold fetch
  split
  · exact Or.inl rfl
  · split
    · rename_i hauth
      rw [hauth] at hinj
      exact Or.inl hinj
    · rename_i credential c' hauth
      rw [hauth] at hinj
      dsimp only
      split
      · exact Or.inl hinj
      · rename_i text _
        split
        · rename_i hget
          exact Or.inr ⟨text, hget, rfl, by rw [← hinj]⟩
        · exact Or.inl hinj

theorem fetch_ok {env : CallEnv} {vault : Provider} {conn : APIConnection} {ep : APIEndpoint}
    {args : Option Params} {u : Url.URL} {c : Client} {text : Str}
    (h : (fetch env vault conn ep args u c).result = .ok text) :
    ∃ req credential, newRequest ep args u = .ok req ∧
      (injectAuth env vault conn c).1 = .ok credential ∧
      (fetch env vault conn ep args u c).request = some { req with credential := credential } := by
  unfold fetch at h ⊢
  cases hreq : newRequest ep args u with
  | error e => simp [hreq] at h
  | ok req =>
    cases hauth : injectAuth env vault conn c with
    | mk result c' =>
      cases result with
      | error e => simp [hreq, hauth] at h
      | ok credential =>
        refine ⟨req, credential, rfl, rfl, ?_⟩
        dsimp only
        split
        · rfl
        · split <;> rfl

namespace Exchange

theorem out_eq_fetch {x : Exchange} {u : Url.URL}
    (hu : resolveURL x.client.egress x.call.env x.call.conn x.call.ep (x.call.args.getD []) = .ok u)
    (hc : cachedBody x.call.env x.call.ep u x.client = none) :
    x.out = fetch x.call.env x.call.vault x.call.conn x.call.ep x.call.args u x.client := by
  simp only [out, executeCall, hu, hc]

theorem fetched_of_out_eq {x : Exchange} {u : Url.URL} {text : Str}
    (hget : x.call.ep.method = "GET".toList)
    (hout : x.out = fetch x.call.env x.call.vault x.call.conn x.call.ep x.call.args u x.client)
    (hok : x.out.result = .ok text) : x.Fetched u.string text := by
  have hfetch := hok
  rw [hout] at hfetch
  obtain ⟨req, credential, hreq, hauth, hsent⟩ := fetch_ok hfetch
  obtain ⟨hmethod, hurl⟩ := newRequest_get hget hreq
  refine ⟨{ req with credential := credential }, ?_, hok, hauth, hmethod, hurl⟩
  rw [hout, hsent]

/-- A call that returns a text has a destination, and the text is the cached one or comes
from the request the call sent. -/
theorem out_ok {x : Exchange} {text : Str} (hget : x.call.ep.method = "GET".toList)
    (h : x.out.result = .ok text) :
    ∃ u, x.url = some u.string ∧
      (x.client.respCache.get x.call.env.now (cacheKey x.call.ep u) = some text ∨
        x.Fetched u.string text) := by
  cases hu : resolveURL x.client.egress x.call.env x.call.conn x.call.ep (x.call.args.getD []) with
  | error e => simp [out, executeCall, hu] at h
  | ok u =>
    refine ⟨u, by simp [url, hu, Except.toOption], ?_⟩
    cases hc : cachedBody x.call.env x.call.ep u x.client with
    | some v =>
      simp only [out, executeCall, hu, hc, Except.ok.injEq] at h
      simp only [cachedBody, hget, if_true] at hc
      exact Or.inl (by rw [hc, h])
    | none => exact Or.inr (fetched_of_out_eq hget (out_eq_fetch hu hc) h)

/-- What a call leaves in the response cache: what was there, or the text it fetched under
the key of its own URL. -/
theorem out_respCache (x : Exchange) :
    x.out.client.respCache = x.client.respCache ∨
      ∃ u text, x.call.ep.method = "GET".toList ∧ x.Fetched u text ∧
        x.out.client.respCache =
          x.client.respCache.set x.call.env.done ("GET".toList ++ ' ' :: u) text := by
  cases hu : resolveURL x.client.egress x.call.env x.call.conn x.call.ep (x.call.args.getD []) with
  | error e => exact Or.inl (by simp only [out, executeCall, hu])
  | ok u =>
    cases hc : cachedBody x.call.env x.call.ep u x.client with
    | some v => exact Or.inl (by simp only [out, executeCall, hu, hc])
    | none =>
      have hout := out_eq_fetch hu hc
      rcases fetch_cases x.call.env x.call.vault x.call.conn x.call.ep x.call.args u x.client with
        hsame | ⟨text, hget, hok, hset⟩
      · exact Or.inl (by rw [hout, hsame])
      · rw [← hout] at hok hset
        exact Or.inr ⟨u.string, text, hget, fetched_of_out_eq hget hout hok,
          by rw [hset, cacheKey, hget]⟩

end Exchange

/-- Every cached text is one that an earlier call fetched from the URL of its key. -/
def CachedFromPast (h : History) : Prop :=
  ∀ m ∈ h.client.respCache.m,
    ∃ y ∈ h.past, ∃ url, m.1 = "GET".toList ++ ' ' :: url ∧ y.Fetched url m.2.value

theorem CachedFromPast.act_call {h : History} (hi : CachedFromPast h) (c : Call) :
    CachedFromPast (act h (.call c)).1 := by
  intro m hm
  -- An entry that was there before comes from the same earlier call.
  have hold (hm : m ∈ h.client.respCache.m) :
      ∃ y ∈ h.past ++ [⟨c, h.client⟩], ∃ url, m.1 = "GET".toList ++ ' ' :: url ∧
        y.Fetched url m.2.value := by
    obtain ⟨y, hy, hfetched⟩ := hi m hm
    exact ⟨y, List.mem_append_left _ hy, hfetched⟩
  rcases Exchange.out_respCache ⟨c, h.client⟩ with hsame | ⟨u, text, _, hfetched, hset⟩
  · simp only [act, hsame] at hm
    exact hold hm
  · simp only [act, hset] at hm
    rcases TTLCache.mem_set hm with ⟨hkey, hvalue⟩ | hbefore
    · exact ⟨⟨c, h.client⟩, List.mem_append_right _ List.mem_cons_self, u, hkey, hvalue ▸ hfetched⟩
    · exact hold hbefore

theorem CachedFromPast.act_sweep {h : History} (hi : CachedFromPast h) (now : Nat) :
    CachedFromPast (act h (.sweep now)).1 :=
  fun m hm => hi m (TTLCache.mem_of_mem_evictExpired hm)

theorem CachedFromPast.act {h : History} (hi : CachedFromPast h) (a : CacheAction) :
    CachedFromPast (act h a).1 := by
  cases a with
  | call c => exact hi.act_call c
  | sweep now => exact hi.act_sweep now

/-- The text of a GET call was fetched by the call itself, or by an earlier one from the
same URL. -/
def ServedFromURL (h : History) (x : Exchange) : Prop :=
  ∀ text, x.call.ep.method = "GET".toList → x.out.result = .ok text →
    ∃ url, x.url = some url ∧ (x.Fetched url text ∨ ∃ y ∈ h.past, y.Fetched url text)

theorem servedFromURL_act {h : History} (hi : CachedFromPast h) (a : CacheAction) :
    ∀ x ∈ (act h a).2, ServedFromURL h x := by
  cases a with
  | sweep now =>
    intro x hx
    cases hx
  | call c =>
    intro x hx text hget hok
    cases List.mem_singleton.mp hx
    obtain ⟨u, hu, hcached | hfetched⟩ := Exchange.out_ok hget hok
    · obtain ⟨e, he, hvalue⟩ := TTLCache.mem_of_get hcached
      obtain ⟨y, hy, url, hkey, hfetched⟩ := hi _ he
      rw [cacheKey, hget] at hkey
      have hurl : u.string = url := (List.cons.inj (List.append_cancel_left hkey)).2
      exact ⟨u.string, hu, Or.inr ⟨y, hy, by rw [hurl, ← hvalue]; exact hfetched⟩⟩
    · exact ⟨u.string, hu, Or.inl hfetched⟩

/-- In every run on a new client, the text of a GET call was fetched by the call itself with
its own credentials, or by an earlier GET call of the run from the same URL. -/
theorem servedFromURL_trace (egress : EgressPolicy) (secretTTL respTTL maxRetries : Nat)
    (actions : List CacheAction) :
    ∀ p ∈ Run.trace act ⟨newGatewayClient egress secretTTL respTTL maxRetries, []⟩ actions,
      ServedFromURL p.1 p.2 := by
  have hstart : CachedFromPast ⟨newGatewayClient egress secretTTL respTTL maxRetries, []⟩ := by
    intro m hm
    cases hm
  have halong : Run.Along act (fun _ _ => True)
      ⟨newGatewayClient egress secretTTL respTTL maxRetries, []⟩ actions :=
    Run.along_of_forall (fun _ _ => trivial) actions _
  exact Run.good_trace (fun s a hs _ => hs.act a) (fun s a hs _ => servedFromURL_act hs a) actions _
    hstart halong

/-- The text of a GET call was fetched with the credentials of its connection, by the call
itself or by an earlier one that carried the same. -/
def Isolated (h : History) (x : Exchange) : Prop :=
  ∀ text, x.call.ep.method = "GET".toList → x.out.result = .ok text →
    (∃ url, x.Fetched url text) ∨
      ∃ y ∈ h.past, y.credential = x.credential ∧ ∃ url, y.Fetched url text

/-- A call of the one endpoint on the connection with the given secret. -/
def sharedCall (ref : Str) : Call where
  env := ⟨0, 0, fun _ => .ok [], none, fun _ => none, fun _ => .reply 200 ['o', 'k']⟩
  vault := .local [(['a'], ['1']), (['b'], ['2'])]
  conn := ⟨ref, ref, [], "http://h".toList, "bearer".toList, ref, true, []⟩
  ep := ⟨['e'], ref, ['x'], [], ['/'], "GET".toList, [], [], [], 0⟩
  args := none

def sharedStart : History := ⟨newGatewayClient ⟨[], true⟩ 0 10 0, []⟩

def sharedFirst : Exchange := ⟨sharedCall ['a'], sharedStart.client⟩

def sharedSecond : Exchange := ⟨sharedCall ['b'], sharedFirst.out.client⟩

def sharedRun : List CacheAction := [.call (sharedCall ['a']), .call (sharedCall ['b'])]

theorem trace_sharedRun :
    Run.trace act sharedStart sharedRun =
      [(sharedStart, sharedFirst), (⟨sharedFirst.out.client, [sharedFirst]⟩, sharedSecond)] := by
  have hpast : sharedStart.past = [] := rfl
  simp only [sharedRun, Run.trace, act, hpast, sharedFirst, sharedSecond, List.map_cons, List.map_nil,
    List.nil_append, List.append_nil, List.singleton_append]

theorem sharedSecond_out :
    sharedSecond.out.result = .ok ['o', 'k'] ∧ sharedSecond.out.request = none ∧
      sharedFirst.credential = .ok (.bearer ['1']) ∧ sharedSecond.credential = .ok (.bearer ['2']) := by
  decide +kernel

/-- The second call gets the text that the first one fetched with another secret. -/
theorem sharedRun_not_isolated :
    ¬ ∀ p ∈ Run.trace act sharedStart sharedRun, Isolated p.1 p.2 := by
  intro h
  rw [trace_sharedRun] at h
  obtain ⟨hok, hnone, hfirst, hsecond⟩ := sharedSecond_out
  have hiso := h _ (List.mem_cons_of_mem _ List.mem_cons_self)
  rcases hiso ['o', 'k'] rfl hok with ⟨url, req, hreq, _⟩ | ⟨y, hy, hcred, _⟩
  · rw [hnone] at hreq
    cases hreq
  · cases List.mem_singleton.mp hy
    rw [hfirst, hsecond] at hcred
    cases hcred

theorem sharedRun_served :
    Run.trace act sharedStart sharedRun ≠ [] ∧
      ∀ p ∈ Run.trace act sharedStart sharedRun, ServedFromURL p.1 p.2 :=
  ⟨by simp [trace_sharedRun], servedFromURL_trace ⟨[], true⟩ 0 10 0 sharedRun⟩

end Janus.Gateway
