import Janus.Gateway
import Janus.Lib.UrlHost

/-!
# Dialling

Embedding of the client's `DialContext`. A connection is dialled when a request is sent,
to the host of the request's URL. An address literal is checked and dialled as it is; a
name is resolved once more, every answer is checked, and the first one is dialled as a
literal. An address with a zone is not the unspecified address for the check at dial
time, so for such literals the check before the request decides.
-/

namespace Janus.Gateway

set_option autoImplicit false

open Storage Vault

/-- An address as it is written, with its zone. -/
structure Addr where
  ip : IP
  zone : Str
  deriving Repr, DecidableEq

def parseIPv6 (s : Str) : Option Addr :=
  (Url.parseIPv6 s).map fun (n, zone) => ⟨.v6 n, zone⟩

def parseAddr (s : Str) : Option Addr :=
  match s.find? fun c => c = '.' || c = ':' || c = '%' with
  | some '.' => (Url.parseIPv4 s).map fun n => ⟨.v4 n, []⟩
  | some ':' => parseIPv6 s
  | _ => none

/-- The text of an address without a zone. -/
def IP.string : IP → Str
  | .v4 n => IP.text (.v4 n)
  | .v6 n =>
    if n / 2 ^ 32 = 0xFFFF then "::ffff:".toList ++ IP.text (.v4 (n % 2 ^ 32)) else IP.text (.v6 n)

example : parseAddr "127.0.0.1".toList = some ⟨.v4 (127 * 2 ^ 24 + 1), []⟩ := by decide +kernel

example : parseAddr "fe80::1%eth0".toList = some ⟨.v6 (0xFE80 * 2 ^ 112 + 1), "eth0".toList⟩ := by
  decide +kernel

def addrError (addr : Str) (reason : String) : Str :=
  "address ".toList ++ addr ++ ": ".toList ++ reason.toList

/-- The host in front of the last colon and the port behind it; or an error text. -/
def splitHostPort (hostport : Str) : Except Str (Str × Str) :=
  match Url.cutLast ':' hostport with
  | none => .error (addrError hostport "missing port in address")
  | some ('[' :: rest, port) =>
    match Text.cut ']' (rest ++ ':' :: port) with
    | none => .error (addrError hostport "missing ']' in address")
    | some (host, after) =>
      if rest = host ++ [']'] then
        if host.contains '[' || port.contains '[' then
          .error (addrError hostport "unexpected '[' in address")
        else if port.contains ']' then .error (addrError hostport "unexpected ']' in address")
        else .ok (host, port)
      else if after.head? = some ':' then .error (addrError hostport "too many colons in address")
      else .error (addrError hostport "missing port in address")
  | some (host, port) =>
    if host.contains ':' then .error (addrError hostport "too many colons in address")
    else if hostport.contains '[' then .error (addrError hostport "unexpected '[' in address")
    else if hostport.contains ']' then .error (addrError hostport "unexpected ']' in address")
    else .ok (host, port)

def joinHostPort (host port : Str) : Str :=
  if host.contains ':' then '[' :: (host ++ ']' :: ':' :: port) else host ++ ':' :: port

/-- The port of a URL, if it has one. -/
def portOf (u : Url.URL) : Str :=
  match Url.cutLast ':' u.host with
  | some (_, port) => if Url.validOptionalPort (':' :: port) then port else []
  | none => []

/-- A host in the form that is dialled; a name outside ASCII that has one is converted. -/
def asciiHost (idna : Str → Option Str) (host : Str) : Str :=
  if host.all fun c => c.toNat < 0x80 then host else (idna host).getD host

/-- The address of a URL's host. -/
def canonicalAddr (idna : Str → Option Str) (u : Url.URL) : Str :=
  joinHostPort (asciiHost idna u.hostname)
    (if portOf u ≠ [] then portOf u
      else if u.scheme = "https".toList then "443".toList else "80".toList)

/-- The check of an address that may have a zone, with which it is never unspecified. -/
def isDisallowedAddr (a : Addr) : Bool :=
  if a.zone ≠ [] && a.ip = .v6 0 then false else isDisallowedIP a.ip

inductive DialError where
  | address (cause : Str)
  | blocked (addr : Addr)
  | unresolved (host cause : Str)
  | noAddresses (host : Str)
  | blockedHost (addr : IP) (host : Str)
  deriving Repr, DecidableEq

/-- The text of an address after unmapping, which takes the zone off a mapped one. -/
def Addr.unmapText (a : Addr) : Str :=
  a.ip.unmap.text ++ if a.zone ≠ [] && a.ip.unmap = a.ip then '%' :: a.zone else []

def DialError.message : DialError → Str
  | .address cause => cause
  | .blocked a => "blocked dial to non-public address ".toList ++ a.unmapText
  | .unresolved host cause =>
    "failed to resolve dial target ".toList ++ Text.quote host ++ ": ".toList ++ cause
  | .noAddresses host => "no addresses found for dial target ".toList ++ Text.quote host
  | .blockedHost ip host =>
    "blocked dial to non-public address ".toList ++ ip.unmap.text ++ " (host ".toList ++
      Text.quote host ++ [')']

/-- The address that is dialled in the end. -/
def dialContext (egress : EgressPolicy) (lookupNetIP : Str → Except Str (List IP)) (addr : Str) :
    Except DialError Str :=
  match splitHostPort addr with
  | .error cause => .error (.address cause)
  | .ok (host, port) =>
    if egress.allowPrivate then .ok addr
    else
      match parseAddr host with
      | some a => if isDisallowedAddr a then .error (.blocked a) else .ok addr
      | none =>
        match lookupNetIP host with
        | .error cause => .error (.unresolved host cause)
        | .ok [] => .error (.noAddresses host)
        | .ok (ip :: ips) =>
          match (ip :: ips).find? isDisallowedIP with
          | some bad => .error (.blockedHost bad host)
          | none => .ok (joinHostPort ip.string port)

/-- The addresses dialled for a call. The request is sent over as many connections as the
transport likes to open, and the resolver answers for each of them anew. -/
def dialed (idna : Str → Option Str) (env : CallEnv) (vault : Provider) (conn : APIConnection)
    (ep : APIEndpoint) (args : Option Params) (c : Client)
    (resolvers : List (Str → Except Str (List IP))) : List Str :=
  match (executeCall env vault conn ep args c).request with
  | none => []
  | some req =>
    match Url.parse req.url with
    | none => []
    | some u => resolvers.filterMap fun lookupNetIP =>
        (dialContext c.egress lookupNetIP (canonicalAddr idna u)).toOption

theorem checkHost_ok {egress : EgressPolicy} {lookupIP : Str → Except Str (List IP)} {host : Str}
    (h : checkHost egress lookupIP host = .ok ()) :
    (egress.allowlist ≠ [] → ∃ entry ∈ egress.allowlist, Text.equalFold entry host = true) ∧
      (egress.allowPrivate = false →
        ∃ ips, lookupIP host = .ok ips ∧ ∀ ip ∈ ips, isDisallowedIP ip = false) := by
  unfold checkHost at h
  split at h
  · cases h
  · rename_i hallow
    constructor
    · intro hne
      have hany : (egress.allowlist.any fun e => Text.equalFold e host) = true := by
        by_contra hno
        exact hallow (by simp [hne, Bool.eq_false_of_not_eq_true hno])
      obtain ⟨entry, hmem, heq⟩ := List.any_eq_true.mp hany
      exact ⟨entry, hmem, heq⟩
    · intro hpriv
      rw [hpriv, if_neg Bool.false_ne_true] at h
      split at h
      · cases h
      · rename_i ips hips
        refine ⟨ips, hips, ?_⟩
        split at h
        · cases h
        · rename_i hfind
          intro ip hip
          simpa using List.find?_eq_none.mp hfind ip hip

theorem validateEgress_ok {egress : EgressPolicy} {lookupIP : Str → Except Str (List IP)} {u : Url.URL}
    (h : validateEgress egress lookupIP u = .ok ()) :
    Url.IsWeb u.scheme ∧ u.hostname ≠ [] ∧ checkHost egress lookupIP u.hostname = .ok () := by
  unfold validateEgress at h
  split at h
  · cases h
  · rename_i hscheme
    split at h
    · cases h
    · rename_i hhost
      refine ⟨?_, hhost, h⟩
      by_contra hno
      have hno' := not_or.mp hno
      exact hscheme (by rw [decide_eq_true hno'.1, decide_eq_true hno'.2]; rfl)

/-- The URL of a request was checked, and parsing it again gives the host that was checked. -/
theorem request_checked {env : CallEnv} {vault : Provider} {conn : APIConnection} {ep : APIEndpoint}
    {args : Option Params} {c : Client} {req : Request} {u : Url.URL}
    (h : (executeCall env vault conn ep args c).request = some req) (hu : Url.parse req.url = some u) :
    checkHost c.egress env.lookupIP u.hostname = .ok () := by
  obtain ⟨v, hv, hurl, _⟩ := executeCall_request h
  unfold resolveURL at hv
  dsimp only at hv
  split at hv
  · cases hv
  · rename_i w hw
    split at hv
    · cases hv
    · rename_i hegress
      obtain ⟨hweb, hname, hcheck⟩ := validateEgress_ok hegress
      have hhost : w.host ≠ [] := by
        intro he
        apply hname
        unfold Url.URL.hostname
        rw [he]
        rfl
      -- Adding the query parameters leaves the rest of the URL alone.
      obtain ⟨hscheme, hwell, hsame⟩ : v.scheme = w.scheme ∧ Url.WellParsed v ∧ v.host = w.host := by
        have hwp := Url.parse_wellParsed hw
        cases hv
        unfold withQuery
        split
        · exact ⟨rfl, ⟨hwp.user, hwp.host⟩, rfl⟩
        · exact ⟨rfl, hwp, rfl⟩
      rw [hurl] at hu
      have hback := Url.host_of_parse_string hwell (hscheme ▸ hweb) (hsame ▸ hhost) hu
      have hsamename : u.hostname = w.hostname := by
        unfold Url.URL.hostname
        rw [hback, hsame]
      rw [hsamename]
      exact hcheck

namespace IP

def isLoopback : IP → Bool
  | .v4 n => n / 2 ^ 24 = 127
  | .v6 n => n = 1

def isPrivate : IP → Bool
  | .v4 n => n / 2 ^ 24 = 10 || n / 2 ^ 20 = 172 * 16 + 1 || n / 2 ^ 16 = 192 * 256 + 168
  | .v6 n => n / 2 ^ 121 = 0xFC / 2

def isLinkLocalUnicast : IP → Bool
  | .v4 n => n / 2 ^ 16 = 169 * 256 + 254
  | .v6 n => n / 2 ^ 118 = 0xFE80 / 64

def isLinkLocalMulticast : IP → Bool
  | .v4 n => n / 2 ^ 8 = 224 * 65536
  | .v6 n => n / 2 ^ 112 / 256 = 0xFF && n / 2 ^ 112 % 16 = 2

def isUnspecified : IP → Bool
  | .v4 n => n = 0
  | .v6 n => n = 0

/-- None of the five kinds of addresses that calls must not reach. -/
structure Public (ip : IP) : Prop where
  loopback : ip.isLoopback = false
  «private» : ip.isPrivate = false
  linkLocalUnicast : ip.isLinkLocalUnicast = false
  linkLocalMulticast : ip.isLinkLocalMulticast = false
  unspecified : ip.isUnspecified = false

end IP

theorem isDisallowedIP_eq (ip : IP) :
    isDisallowedIP ip = (ip.unmap.isLoopback || ip.unmap.isPrivate || ip.unmap.isLinkLocalUnicast ||
      ip.unmap.isLinkLocalMulticast || ip.unmap.isUnspecified) := by
  unfold isDisallowedIP
  cases ip.unmap with
  | v4 n => simp only [IP.isLoopback, IP.isPrivate, IP.isLinkLocalUnicast, IP.isLinkLocalMulticast,
      IP.isUnspecified, Bool.or_assoc]
  | v6 n => simp only [IP.isLoopback, IP.isPrivate, IP.isLinkLocalUnicast, IP.isLinkLocalMulticast,
      IP.isUnspecified, Bool.or_assoc]

theorem public_of_allowed {ip : IP} (h : isDisallowedIP ip = false) : ip.unmap.Public := by
  rw [isDisallowedIP_eq] at h
  simp only [Bool.or_eq_false_iff] at h
  obtain ⟨⟨⟨⟨h1, h2⟩, h3⟩, h4⟩, h5⟩ := h
  exact ⟨h1, h2, h3, h4, h5⟩

/-- The dialled text names the address: it is a literal of it, or its own text. -/
inductive DialsTo (target : Str) (a : Addr) : Prop where
  | literal {host port : Str} (hsplit : splitHostPort target = .ok (host, port))
      (haddr : parseAddr host = some a)
  | resolved {port : Str} (htext : target = joinHostPort a.ip.string port) (hzone : a.zone = [])

/-- A literal is looked up as itself, possibly in its IPv6 form and without its zone. -/
def LooksUpLiterals (lookupIP : Str → Except Str (List IP)) : Prop :=
  ∀ host a, parseAddr host = some a →
    ∃ ips, lookupIP host = .ok ips ∧ ∃ ip ∈ ips, ip.unmap = a.ip.unmap

theorem colon_of_zone {s : Str} {a : Addr} (h : parseAddr s = some a) (hz : a.zone ≠ []) : ':' ∈ s := by
  unfold parseAddr at h
  split at h
  · obtain ⟨n, _, rfl⟩ := Option.map_eq_some_iff.mp h
    exact absurd rfl hz
  · rename_i hfind
    exact List.mem_of_find?_eq_some hfind
  · cases h

theorem portOf_no_colon (u : Url.URL) : ':' ∉ portOf u := by
  unfold portOf
  split
  · rename_i hcut
    split
    · exact (Url.cutLast_eq_some hcut).2
    · exact List.not_mem_nil
  · exact List.not_mem_nil

theorem splitHostPort_ok {s host port : Str} (h : splitHostPort s = .ok (host, port)) :
    ∃ front, Url.cutLast ':' s = some (front, port) ∧
      (front = '[' :: (host ++ [']']) ∨ front = host ∧ ':' ∉ host) := by
  unfold splitHostPort at h
  split at h
  · cases h
  · rename_i rest p hcut
    split at h
    · cases h
    · rename_i first after _
      split at h
      · rename_i hrest
        split at h
        · cases h
        · split at h
          · cases h
          · cases h
            exact ⟨_, hcut, Or.inl (by rw [hrest])⟩
      · split at h
        · cases h
        · cases h
  · rename_i hcut
    split at h
    · cases h
    · rename_i hcolon
      split at h
      · cases h
      · split at h
        · cases h
        · cases h
          exact ⟨_, hcut, Or.inr ⟨rfl, by simpa using hcolon⟩⟩

/-- Splitting undoes joining, except that brackets around a host without colons are lost. -/
theorem split_join {host port host' port' : Str} (hp : ':' ∉ port)
    (h : splitHostPort (joinHostPort host port) = .ok (host', port')) :
    host' = host ∨ ':' ∉ host' := by
  obtain ⟨front, hcut, hfront⟩ := splitHostPort_ok h
  unfold joinHostPort at hcut
  split at hcut
  · have hback := Url.cutLast_append ('[' :: (host ++ [']'])) hp
    rw [List.cons_append, List.append_assoc, List.singleton_append, hcut] at hback
    have hsame : front = '[' :: (host ++ [']']) := (Prod.mk.inj (Option.some.inj hback)).1
    rcases hfront with rfl | ⟨_, hno⟩
    · exact Or.inl (List.append_cancel_right (List.cons.inj hsame).2)
    · exact Or.inr hno
  · rename_i hcolon
    rw [Url.cutLast_append host hp] at hcut
    obtain ⟨rfl, _⟩ := Prod.mk.inj (Option.some.inj hcut)
    rcases hfront with rfl | ⟨rfl, _⟩
    · right
      intro hm
      apply hcolon
      simp [hm]
    · exact Or.inl rfl

theorem dialContext_ok {egress : EgressPolicy} (hpriv : egress.allowPrivate = false)
    {lookupNetIP : Str → Except Str (List IP)} {addr target : Str}
    (h : dialContext egress lookupNetIP addr = .ok target) :
    (∃ host port a, splitHostPort addr = .ok (host, port) ∧ parseAddr host = some a ∧
        isDisallowedAddr a = false ∧ target = addr) ∨
      ∃ ip port, isDisallowedIP ip = false ∧ target = joinHostPort ip.string port := by
  unfold dialContext at h
  rw [hpriv] at h
  split at h
  · cases h
  · rename_i host port hsplit
    rw [if_neg Bool.false_ne_true] at h
    split at h
    · rename_i a haddr
      split at h
      · cases h
      · rename_i hok
        cases h
        exact Or.inl ⟨host, port, a, hsplit, haddr, by simpa using hok, rfl⟩
    · split at h
      · cases h
      · cases h
      · rename_i ip ips _
        split at h
        · cases h
        · rename_i hfind
          cases h
          right
          refine ⟨ip, port, ?_, rfl⟩
          simpa using List.find?_eq_none.mp hfind ip List.mem_cons_self

theorem canonicalPort_no_colon (u : Url.URL) :
    ':' ∉ (if portOf u ≠ [] then portOf u
      else if u.scheme = "https".toList then "443".toList else "80".toList) := by
  split
  · exact portOf_no_colon u
  · split
    · decide
    · decide

/-- A literal with a zone that is dialled for a URL is the URL's own host. -/
theorem host_of_zone {idna : Str → Option Str} (hidna : ∀ h a, idna h = some a → ':' ∉ a) {u : Url.URL}
    {host port : Str} {a : Addr} (hsplit : splitHostPort (canonicalAddr idna u) = .ok (host, port))
    (haddr : parseAddr host = some a) (hz : a.zone ≠ []) : host = u.hostname := by
  have hcolon := colon_of_zone haddr hz
  rcases split_join (canonicalPort_no_colon u) hsplit with hsame | hno
  · unfold asciiHost at hsame
    split at hsame
    · exact hsame
    · cases hi : idna u.hostname with
      | none => rwa [hi] at hsame
      | some b =>
        rw [hi, Option.getD_some] at hsame
        rw [hsame] at hcolon
        exact absurd hcolon (hidna _ _ hi)
  · exact absurd hcolon hno

/-- The check before the request rejects what the check at dial time lets pass. -/
theorem literal_allowed {idna : Str → Option Str} (hidna : ∀ h a, idna h = some a → ':' ∉ a)
    {egress : EgressPolicy} (hpriv : egress.allowPrivate = false)
    {lookupIP : Str → Except Str (List IP)} (hlit : LooksUpLiterals lookupIP) {u : Url.URL}
    (hcheck : checkHost egress lookupIP u.hostname = .ok ()) {host port : Str} {a : Addr}
    (hsplit : splitHostPort (canonicalAddr idna u) = .ok (host, port)) (haddr : parseAddr host = some a)
    (hok : isDisallowedAddr a = false) : isDisallowedIP a.ip = false := by
  by_cases hz : a.zone = []
  · simpa [isDisallowedAddr, hz] using hok
  · rw [host_of_zone hidna hsplit haddr hz] at haddr
    obtain ⟨ips, hips, ip, hmem, hsame⟩ := hlit _ _ haddr
    obtain ⟨ips', hips', hall⟩ := (checkHost_ok hcheck).2 hpriv
    rw [hips] at hips'
    cases hips'
    rw [isDisallowedIP_eq, ← hsame, ← isDisallowedIP_eq]
    exact hall ip hmem

/-- Whatever the resolver answers before the request and at each dial, every address
dialled for a call is public, and its URL has an allowed host. -/
theorem dialed_confined (idna : Str → Option Str) (hidna : ∀ h a, idna h = some a → ':' ∉ a)
    (env : CallEnv) (hlit : LooksUpLiterals env.lookupIP) (vault : Provider) (conn : APIConnection)
    (ep : APIEndpoint) (args : Option Params) (c : Client) (hpriv : c.egress.allowPrivate = false)
    (resolvers : List (Str → Except Str (List IP))) :
    ∀ target ∈ dialed idna env vault conn ep args c resolvers,
      (∃ a, DialsTo target a ∧ a.ip.unmap.Public) ∧
        ∃ req u, (executeCall env vault conn ep args c).request = some req ∧
          Url.parse req.url = some u ∧
          (c.egress.allowlist ≠ [] →
            ∃ entry ∈ c.egress.allowlist, Text.equalFold entry u.hostname = true) := by
  intro target ht
  unfold dialed at ht
  split at ht
  · cases ht
  · rename_i req hreq
    split at ht
    · cases ht
    · rename_i u hu
      have hcheck := request_checked hreq hu
      refine ⟨?_, req, u, hreq, hu, (checkHost_ok hcheck).1⟩
      obtain ⟨lookupNetIP, _, hdial⟩ := List.mem_filterMap.mp ht
      have hok : dialContext c.egress lookupNetIP (canonicalAddr idna u) = .ok target := by
        cases hd : dialContext c.egress lookupNetIP (canonicalAddr idna u) with
        | error e => rw [hd] at hdial; cases hdial
        | ok t => rw [hd] at hdial; cases hdial; rfl
      rcases dialContext_ok hpriv hok with ⟨host, port, a, hsplit, haddr, hallowed, rfl⟩ | ⟨ip, port, hallowed, rfl⟩
      · exact ⟨a, .literal hsplit haddr,
          public_of_allowed (literal_allowed hidna hpriv hlit hcheck hsplit haddr hallowed)⟩
      · exact ⟨⟨ip, []⟩, .resolved rfl rfl, public_of_allowed hallowed⟩

/-- A lookup that knows literals and one name. -/
def mapsEnv : CallEnv where
  now := 0
  done := 0
  lookupIP host :=
    match parseAddr host with
    | some a => .ok [a.ip]
    | none => if host = "maps.io".toList then .ok [.v4 0x08080404] else .error "no such host".toList
  vaultFault := none
  cancelled _ := none
  attempt _ := .reply 200 []

def mapsConn : APIConnection :=
  ⟨['c'], ['c'], [], "http://maps.io".toList, "none".toList, [], true, []⟩

def mapsEndpoint : APIEndpoint := ⟨['e'], ['c'], ['t'], [], "/tiles".toList, "GET".toList, [], [], [], 1⟩

def mapsClient : Client := ⟨⟨["Maps.io".toList], false⟩, .new 0, .new 0, 0⟩

/-- At the second dial the name resolves to this host itself as well. -/
def mapsResolvers : List (Str → Except Str (List IP)) :=
  [fun _ => .ok [.v4 0x08080404], fun _ => .ok [.v4 0x08080404, .v6 1]]

theorem mapsEnv_looksUpLiterals : LooksUpLiterals mapsEnv.lookupIP := by
  intro host a h
  refine ⟨[a.ip], ?_, a.ip, List.mem_singleton_self _, rfl⟩
  simp only [mapsEnv, h]

theorem mapsConn_confined :
    dialed (fun _ => none) mapsEnv (.local []) mapsConn mapsEndpoint none mapsClient mapsResolvers =
        ["8.8.4.4:80".toList] ∧
      ∃ a, DialsTo "8.8.4.4:80".toList a ∧ a.ip.unmap.Public := by
  have hdialed : dialed (fun _ => none) mapsEnv (.local []) mapsConn mapsEndpoint none mapsClient
      mapsResolvers = ["8.8.4.4:80".toList] := by
    decide +kernel
  refine ⟨hdialed, ?_⟩
  exact (dialed_confined (fun _ => none) (by simp) mapsEnv mapsEnv_looksUpLiterals (.local []) mapsConn
    mapsEndpoint none mapsClient rfl mapsResolvers _ (hdialed ▸ List.mem_singleton_self _)).1

end Janus.Gateway
