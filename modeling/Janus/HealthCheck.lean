import Janus.EgressDial

/-!
# The health check of the admin portal

Embedding of `hostIsInternal` and `handleOperationalStats`. The guard resolves the host of a
connection once. The client that sends the probe resolves it again, and follows redirects to
wherever the servers send it; nothing looks at the addresses that it connects to.
-/

namespace Janus.Portal

set_option autoImplicit false

open Storage Gateway

/-- How the servers answer a request of a probe, a redirect with the URL it leads to. -/
inductive ProbeAnswer where
  | final (statusCode : Nat)
  | redirect (target : Url.URL)
  | broken

/-- The outside of one probe. Requests are numbered from zero, the first and the redirected ones. -/
structure ProbeEnv where
  /-- The resolver as the guard asks it. -/
  lookupIP : Str → Except Str (List IP)
  /-- The address that a connection for a name ends up at, when it is made for a request. -/
  connect : Nat → Str → Option IP
  /-- Whether a connection to an address literal succeeds. -/
  accepts : Nat → Bool
  answer : Nat → ProbeAnswer
  elapsed : Nat

/-- The test of one address, unmapped. A zone makes an address differ from the unspecified one. -/
def isInternalAddr (a : Addr) : Bool :=
  let ip := a.ip.unmap
  ip.isLoopback || ip.isPrivate || ip.isLinkLocalUnicast || ip.isLinkLocalMulticast ||
    (ip.isUnspecified && (a.zone = [] || ip ≠ a.ip))

def hostIsInternal (lookupIP : Str → Except Str (List IP)) (rawURL : Str) : Bool :=
  match Url.parse rawURL with
  | none => true
  | some u =>
    if u.hostname = [] then true
    else
      match parseAddr u.hostname with
      | some a => isInternalAddr a
      | none =>
        match lookupIP u.hostname with
        | .error _ => true
        | .ok [] => true
        | .ok (ip :: ips) => (ip :: ips).any fun ip => isInternalAddr ⟨ip, []⟩

/-- The address that a request for a URL connects to. -/
def connectsTo (idna : Str → Option Str) (env : ProbeEnv) (n : Nat) (u : Url.URL) : Option IP :=
  if (u.scheme ≠ "http".toList && u.scheme ≠ "https".toList) || u.host = [] then none
  else
    match splitHostPort (canonicalAddr idna u) with
    | .error _ => none
    | .ok (host, _) =>
      match parseAddr host with
      | some a => if env.accepts n then some a.ip else none
      | none => env.connect n host

structure ProbeResult where
  status : Option Nat
  connections : List IP

/-- `client.Get`, with the limit of requests that the client has by default. -/
def clientGet (idna : Str → Option Str) (env : ProbeEnv) : Nat → Nat → Url.URL → ProbeResult
  | 0, _, _ => ⟨none, []⟩
  | limit + 1, n, u =>
    match connectsTo idna env n u with
    | none => ⟨none, []⟩
    | some ip =>
      match env.answer n with
      | .broken => ⟨none, [ip]⟩
      | .final statusCode => ⟨some statusCode, [ip]⟩
      | .redirect target =>
        let rest := clientGet idna env limit (n + 1) target
        ⟨rest.status, ip :: rest.connections⟩

/-- Ten requests, and no more redirects then. -/
def maxRequests : Nat := 10

structure ConnectionHealth where
  name : Str
  url : Str
  enabled : Bool
  status : Str
  latencyMS : Nat
  deriving DecidableEq

/-- The goroutine of one connection: its entry, and the connections that it makes. -/
def checkConnection (idna : Str → Option Str) (env : ProbeEnv) (c : APIConnection) :
    ConnectionHealth × List IP :=
  let health (status : Str) (latency : Nat) : ConnectionHealth :=
    ⟨c.name, c.baseURL, c.enabled, status, latency⟩
  if !c.enabled then (health "DISABLED".toList 0, [])
  else if hostIsInternal env.lookupIP c.baseURL then
    (health "BLOCKED (internal address)".toList 0, [])
  else
    match Url.parse c.baseURL with
    | none => (health "UNREACHABLE".toList env.elapsed, [])
    | some u =>
      let result := clientGet idna env maxRequests 0 u
      match result.status with
      | none => (health "UNREACHABLE".toList env.elapsed, result.connections)
      | some statusCode =>
        (health ("OK (HTTP ".toList ++ natDigits statusCode ++ ")".toList) env.elapsed,
          result.connections)

/-- The stored connections are checked each in its own goroutine, with its own outside. -/
def handleOperationalStats (idna : Str → Option Str) (isGet : Bool)
    (conns : Except Str (List APIConnection)) (env : Nat → ProbeEnv) :
    Nat × List ConnectionHealth × List IP :=
  if !isGet then (405, [], [])
  else
    match conns with
    | .error _ => (500, [], [])
    | .ok conns =>
      let checked := conns.zipIdx.map fun c => checkConnection idna (env c.2) c.1
      (200, checked.map Prod.fst, checked.flatMap Prod.snd)

/-- An address literal without a zone. -/
def isPlainLiteral (host : Str) : Bool :=
  host.all (fun c => c.toNat < 0x80) && (parseAddr host).any fun a => a.zone = []

theorem isPlainLiteral_iff {host : Str} :
    isPlainLiteral host = true ↔
      host.all (fun c => c.toNat < 0x80) = true ∧ ∃ ip, parseAddr host = some ⟨ip, []⟩ := by
  unfold isPlainLiteral
  rw [Bool.and_eq_true]
  refine and_congr_right fun _ => ?_
  cases parseAddr host with
  | none => simp
  | some a =>
    obtain ⟨ip, zone⟩ := a
    simp

theorem isInternalAddr_plain (ip : IP) : isInternalAddr ⟨ip, []⟩ = isDisallowedIP ip := by
  simp [isInternalAddr, isDisallowedIP_eq]

theorem parseIPv4_bracket (s : Str) : Url.parseIPv4 ('[' :: s) = none := by
  have hoctet (part : Str) : Url.parseOctet ('[' :: part) = none := by
    simp [Url.parseOctet, isDigit]
  unfold Url.parseIPv4 Text.splitOn
  cases Text.splitOn '.' s with
  | nil => simp
  | cons part parts => simp [hoctet]

theorem head_of_parseAddr {host : Str} {a : Addr} (h : parseAddr host = some a) (hcolon : ':' ∉ host) :
    host.head? ≠ some '[' := by
  intro hhead
  obtain ⟨s, rfl⟩ : ∃ s, host = '[' :: s := by
    cases host with
    | nil => cases hhead
    | cons c s => exact ⟨s, by rw [Option.some.inj hhead]⟩
  unfold parseAddr at h
  split at h
  · rw [parseIPv4_bracket] at h
    cases h
  · rename_i hfind
    exact hcolon (List.mem_of_find?_eq_some hfind)
  · cases h

/-- A host comes back when the address that it was joined into is split. -/
theorem split_join {host port host' port' : Str} (hp : ':' ∉ port)
    (hhead : ':' ∉ host → host.head? ≠ some '[')
    (h : splitHostPort (joinHostPort host port) = .ok (host', port')) : host' = host := by
  obtain ⟨front, hcut, hfront⟩ := splitHostPort_ok h
  unfold joinHostPort at hcut
  split at hcut
  · rename_i hcolon
    have hback := Url.cutLast_append ('[' :: (host ++ [']'])) hp
    rw [List.cons_append, List.append_assoc, List.singleton_append, hcut] at hback
    have hsame : front = '[' :: (host ++ [']']) := (Prod.mk.inj (Option.some.inj hback)).1
    rcases hfront with rfl | ⟨rfl, hno⟩
    · exact List.append_cancel_right (List.cons.inj hsame).2
    · refine absurd ?_ hno
      rw [hsame]
      have hmem : ':' ∈ host := by simpa using hcolon
      simp [hmem]
  · rename_i hcolon
    have hno : ':' ∉ host := by simpa using hcolon
    rw [Url.cutLast_append host hp] at hcut
    obtain ⟨rfl, _⟩ := Prod.mk.inj (Option.some.inj hcut)
    rcases hfront with rfl | ⟨rfl, _⟩
    · exact absurd rfl (hhead hno)
    · rfl

/-- A literal is connected to as it is, and a name where the client finds it. -/
theorem connectsTo_cases {idna : Str → Option Str} {env : ProbeEnv} {n : Nat} {u : Url.URL} {ip : IP}
    (hascii : u.hostname.all (fun c => c.toNat < 0x80) = true)
    (hhead : ':' ∉ u.hostname → u.hostname.head? ≠ some '[') (h : connectsTo idna env n u = some ip) :
    (∃ a, parseAddr u.hostname = some a ∧ ip = a.ip) ∨
      parseAddr u.hostname = none ∧ env.connect n u.hostname = some ip := by
  unfold connectsTo at h
  split at h
  · cases h
  · cases hs : splitHostPort (canonicalAddr idna u) with
    | error e =>
      rw [hs] at h
      cases h
    | ok hp =>
      obtain ⟨host, port⟩ := hp
      have hsame : asciiHost idna u.hostname = u.hostname := if_pos hascii
      rw [canonicalAddr, hsame] at hs
      have hhost := split_join (canonicalPort_no_colon u) hhead hs
      rw [canonicalAddr, hsame, hs] at h
      simp only [hhost] at h
      cases haddr : parseAddr u.hostname with
      | none =>
        rw [haddr] at h
        exact .inr ⟨rfl, h⟩
      | some a =>
        rw [haddr] at h
        dsimp only at h
        split at h
        · exact .inl ⟨a, rfl, (Option.some.inj h).symm⟩
        · cases h

theorem connectsTo_literal {idna : Str → Option Str} {env : ProbeEnv} {n : Nat} {u : Url.URL} {ip ip' : IP}
    (hascii : u.hostname.all (fun c => c.toNat < 0x80) = true)
    (haddr : parseAddr u.hostname = some ⟨ip, []⟩) (h : connectsTo idna env n u = some ip') : ip' = ip := by
  rcases connectsTo_cases hascii (head_of_parseAddr haddr) h with ⟨a, ha, rfl⟩ | ⟨hnone, _⟩
  · rw [haddr] at ha
    cases ha
    rfl
  · rw [haddr] at hnone
    cases hnone

section Probe
variable (idna : Str → Option Str) (env : ProbeEnv)

/-- A redirect leads to the URL, which is asked for with the given request. -/
inductive RedirectedTo (u : Url.URL) : Nat → Url.URL → Prop where
  | first {v : Url.URL} (hconn : (connectsTo idna env 0 u).isSome = true)
      (hanswer : env.answer 0 = .redirect v) : RedirectedTo u 1 v
  | next {n : Nat} {v w : Url.URL} (hprev : RedirectedTo u n v)
      (hconn : (connectsTo idna env n v).isSome = true) (hanswer : env.answer n = .redirect w) :
      RedirectedTo u (n + 1) w

/-- What keeps a probe off internal addresses: a host that is not a plain literal is connected to at
a public address, and so is every URL that a redirect leads to. -/
structure Harmless (u : Url.URL) : Prop where
  first : isPlainLiteral u.hostname = false → ∀ ip, connectsTo idna env 0 u = some ip → ip.unmap.Public
  redirected : ∀ n v, n < maxRequests → RedirectedTo idna env u n v →
    ∀ ip, connectsTo idna env n v = some ip → ip.unmap.Public

variable {idna env}

theorem mem_clientGet {limit n : Nat} {u : Url.URL} {ip : IP} :
    ip ∈ (clientGet idna env (limit + 1) n u).connections ↔
      connectsTo idna env n u = some ip ∨
        ∃ v, (connectsTo idna env n u).isSome = true ∧ env.answer n = .redirect v ∧
          ip ∈ (clientGet idna env limit (n + 1) v).connections := by
  rw [clientGet]
  cases hconn : connectsTo idna env n u with
  | none => simp
  | some first =>
    cases hanswer : env.answer n with
    | broken => simp [eq_comm]
    | final statusCode => simp [eq_comm]
    | redirect target => simp [eq_comm]

/-- The connections of the redirected requests. -/
theorem public_clientGet_redirected {u : Url.URL} {limit n : Nat} {v : Url.URL} (hlimit : limit + n = maxRequests)
    (hv : RedirectedTo idna env u n v)
    (h : ∀ n v, n < maxRequests → RedirectedTo idna env u n v →
      ∀ ip, connectsTo idna env n v = some ip → ip.unmap.Public) :
    ∀ ip ∈ (clientGet idna env limit n v).connections, ip.unmap.Public := by
  induction limit generalizing n v with
  | zero =>
    intro ip hip
    cases hip
  | succ limit ih =>
    intro ip hip
    rcases mem_clientGet.mp hip with hconn | ⟨w, hconn, hanswer, hrest⟩
    · exact h n v (by omega) hv ip hconn
    · exact ih (by omega) (hv.next hconn hanswer) ip hrest

theorem mem_clientGet_of_redirected {u : Url.URL} {n : Nat} {v : Url.URL} (hv : RedirectedTo idna env u n v)
    (hn : n ≤ maxRequests) :
    ∀ ip ∈ (clientGet idna env (maxRequests - n) n v).connections,
      ip ∈ (clientGet idna env maxRequests 0 u).connections := by
  induction hv with
  | first hconn hanswer =>
    intro ip hip
    exact mem_clientGet.mpr (Or.inr ⟨_, hconn, hanswer, hip⟩)
  | @next n v w hprev hconn hanswer ih =>
    intro ip hip
    refine ih (by omega) ip ?_
    have hlimit : maxRequests - n = maxRequests - (n + 1) + 1 := by omega
    rw [hlimit]
    exact mem_clientGet.mpr (Or.inr ⟨w, hconn, hanswer, hip⟩)

/-- A probe that the guard lets through stays off internal addresses exactly when it is harmless. -/
theorem public_clientGet_iff {u : Url.URL}
    (hguard : ∀ ip, parseAddr u.hostname = some ⟨ip, []⟩ → isInternalAddr ⟨ip, []⟩ = false) :
    (∀ ip ∈ (clientGet idna env maxRequests 0 u).connections, ip.unmap.Public) ↔ Harmless idna env u := by
  constructor
  · intro h
    refine ⟨?_, ?_⟩
    · intro _ ip hip
      exact h ip (mem_clientGet.mpr (Or.inl hip))
    · intro n v hn hv ip hip
      refine h ip (mem_clientGet_of_redirected hv hn.le ip ?_)
      have hlimit : maxRequests - n = maxRequests - (n + 1) + 1 := by omega
      rw [hlimit]
      exact mem_clientGet.mpr (Or.inl hip)
  · intro h ip hip
    rcases mem_clientGet.mp hip with hconn | ⟨v, hconn, hanswer, hrest⟩
    · by_cases hplain : isPlainLiteral u.hostname = true
      · obtain ⟨hascii, literal, haddr⟩ := isPlainLiteral_iff.mp hplain
        rw [connectsTo_literal hascii haddr hconn]
        have hallowed := hguard literal haddr
        rw [isInternalAddr_plain] at hallowed
        exact public_of_allowed hallowed
      · exact h.first (by simpa using hplain) ip hconn
    · exact public_clientGet_redirected rfl (.first hconn hanswer) h.redirected ip hrest

end Probe

theorem connections_checkConnection (idna : Str → Option Str) (env : ProbeEnv) (c : APIConnection) :
    (∀ ip ∈ (checkConnection idna env c).2, ip.unmap.Public) ↔
      (c.enabled = true → hostIsInternal env.lookupIP c.baseURL = false →
        ∀ u, Url.parse c.baseURL = some u → Harmless idna env u) := by
  cases henabled : c.enabled with
  | false => simp [checkConnection, henabled]
  | true =>
    cases hinternal : hostIsInternal env.lookupIP c.baseURL with
    | true => simp [checkConnection, henabled, hinternal]
    | false =>
      cases hu : Url.parse c.baseURL with
      | none => simp [checkConnection, henabled, hinternal, hu]
      | some u =>
        have hguard : ∀ ip, parseAddr u.hostname = some ⟨ip, []⟩ → isInternalAddr ⟨ip, []⟩ = false := by
          intro ip haddr
          unfold hostIsInternal at hinternal
          rw [hu] at hinternal
          dsimp only at hinternal
          split at hinternal
          · cases hinternal
          · rw [haddr] at hinternal
            exact hinternal
        have hsame : (checkConnection idna env c).2 = (clientGet idna env maxRequests 0 u).connections := by
          simp only [checkConnection, henabled, hinternal, hu, Bool.not_true, Bool.false_eq_true, if_false]
          cases (clientGet idna env maxRequests 0 u).status <;> rfl
        rw [hsame, public_clientGet_iff hguard]
        simp

theorem public_connections_iff (idna : Str → Option Str) (cs : List APIConnection) (env : Nat → ProbeEnv) :
    (∀ ip ∈ (handleOperationalStats idna true (.ok cs) env).2.2, ip.unmap.Public) ↔
      ∀ c ∈ cs.zipIdx, ∀ ip ∈ (checkConnection idna (env c.2) c.1).2, ip.unmap.Public := by
  simp only [handleOperationalStats, Bool.not_true, Bool.false_eq_true, if_false,
    List.flatMap_map, List.mem_flatMap]
  exact ⟨fun h c hc ip hip => h ip ⟨c, hc, hip⟩, fun h ip ⟨c, hc, hip⟩ => h c hc ip hip⟩

/-- What the guard takes for granted: the client finds a name where the guard has found it, and no
server sends it elsewhere. -/
structure Unchanging (env : ProbeEnv) : Prop where
  resolver : ∀ n host ip, env.connect n host = some ip → ∃ ips, env.lookupIP host = .ok ips ∧ ip ∈ ips
  redirects : ∀ n v, env.answer n ≠ .redirect v

/-- A name that the client resolves as it stands. -/
structure IsName (host : Str) : Prop where
  ascii : host.all (fun c => c.toNat < 0x80) = true
  unbracketed : host.head? ≠ some '['
  noLiteral : parseAddr host = none

/-- Nothing that the guard lets through does harm then. -/
theorem Unchanging.harmless {idna : Str → Option Str} {env : ProbeEnv} (h : Unchanging env) {u : Url.URL}
    {rawURL : Str} (hu : Url.parse rawURL = some u)
    (hhost : isPlainLiteral u.hostname = true ∨ IsName u.hostname)
    (hguard : hostIsInternal env.lookupIP rawURL = false) : Harmless idna env u where
  first := by
    intro hplain ip hconn
    have hname := hhost.resolve_left (Bool.eq_false_iff.mp hplain)
    rcases connectsTo_cases hname.ascii (fun _ => hname.unbracketed) hconn with ⟨a, ha, _⟩ | ⟨_, hfound⟩
    · rw [hname.noLiteral] at ha
      cases ha
    · obtain ⟨ips, hips, hmem⟩ := h.resolver 0 u.hostname ip hfound
      unfold hostIsInternal at hguard
      rw [hu] at hguard
      dsimp only at hguard
      split at hguard
      · cases hguard
      · rw [hname.noLiteral, hips] at hguard
        cases ips with
        | nil => cases hmem
        | cons first ips =>
          have hallowed := List.any_eq_false.mp hguard ip hmem
          rw [isInternalAddr_plain, Bool.not_eq_true] at hallowed
          exact public_of_allowed hallowed
  redirected := by
    intro n v _ hv
    cases hv with
    | first _ hanswer => exact absurd hanswer (h.redirects _ _)
    | next _ _ hanswer => exact absurd hanswer (h.redirects _ _)

/-- Where resolver and servers do as the guard takes for granted, it is enough. -/
theorem probes_public_of_unchanging (idna : Str → Option Str) (cs : List APIConnection)
    (env : Nat → ProbeEnv) (henv : ∀ i, Unchanging (env i))
    (hhosts : ∀ c ∈ cs, ∀ u, Url.parse c.baseURL = some u →
      isPlainLiteral u.hostname = true ∨ IsName u.hostname) :
    ∀ ip ∈ (handleOperationalStats idna true (.ok cs) env).2.2, ip.unmap.Public := by
  refine (public_connections_iff idna cs env).mpr fun c hc => ?_
  refine (connections_checkConnection idna (env c.2) c.1).mpr fun _ hguard u hu => ?_
  exact (henv c.2).harmless hu (hhosts c.1 (List.fst_mem_of_mem_zipIdx hc) u hu) hguard

/-- The health check makes no connection to an internal address exactly when every probe that
passes the guard is harmless. -/
theorem probes_public_iff (idna : Str → Option Str) (isGet : Bool)
    (conns : Except Str (List APIConnection)) (env : Nat → ProbeEnv) :
    (∀ ip ∈ (handleOperationalStats idna isGet conns env).2.2, ip.unmap.Public) ↔
      (isGet = true → ∀ cs, conns = .ok cs → ∀ c ∈ cs.zipIdx, c.1.enabled = true →
        hostIsInternal (env c.2).lookupIP c.1.baseURL = false →
          ∀ u, Url.parse c.1.baseURL = some u → Harmless idna (env c.2) u) := by
  cases isGet with
  | false => simp [handleOperationalStats]
  | true =>
    cases conns with
    | error e => simp [handleOperationalStats]
    | ok cs =>
      rw [public_connections_iff]
      constructor
      · rintro h - cs' hcs c hc
        cases hcs
        exact (connections_checkConnection idna (env c.2) c.1).mp (h c hc)
      · intro h c hc
        exact (connections_checkConnection idna (env c.2) c.1).mpr (h rfl cs rfl c hc)

def probedConn (baseURL : Str) : APIConnection :=
  ⟨['c'], ['c'], [], baseURL, "none".toList, [], true, []⟩

def localhost : IP := .v4 (127 * 2 ^ 24 + 1)

/-- The name has a public address for the guard, and another one for the client. -/
def rebindingEnv : ProbeEnv where
  lookupIP _ := .ok [.v4 0x08080404]
  connect _ _ := some localhost
  accepts _ := true
  answer _ := .final 200
  elapsed := 0

/-- The public server sends the client to this host itself. -/
def redirectingEnv : ProbeEnv where
  lookupIP _ := .error "no such host".toList
  connect _ _ := none
  accepts _ := true
  answer
    | 0 => match Url.parse "http://127.0.0.1/".toList with
      | some u => .redirect u
      | none => .broken
    | _ => .final 200
  elapsed := 0

def probedConns : List APIConnection :=
  [probedConn "http://maps.io".toList, probedConn "http://8.8.4.4".toList]

def probedEnvs : Nat → ProbeEnv
  | 0 => rebindingEnv
  | _ => redirectingEnv

theorem connections_probedConns :
    (handleOperationalStats (fun _ => none) true (.ok probedConns) probedEnvs).2.2 =
      [localhost, .v4 0x08080404, localhost] := by
  decide +kernel

theorem probedConns_not_public :
    ¬ ∀ conns env, ∀ ip ∈ (handleOperationalStats (fun _ => none) true (.ok conns) env).2.2,
      ip.unmap.Public := by
  intro h
  have hpublic := h probedConns probedEnvs localhost (by
    rw [connections_probedConns]
    exact List.mem_cons_self)
  exact absurd hpublic.loopback (by decide)

end Janus.Portal
