import Janus.EgressDial
import Janus.Lib.UrlParts

/-!
# Where a call goes

The URL of a call is put together from the base URL and the rendered path, parsed,
checked, given its query, printed, and parsed again for the request. Neither the path
nor the arguments reach its scheme or its authority: both URLs have the scheme, the host
and the port of the base URL.
-/

namespace Janus.Gateway

set_option autoImplicit false

open Storage Vault

/-- The last colon of a host stands behind its brackets. -/
def hasPort (host : Str) : Bool :=
  match Url.cutLast ':' host with
  | some (_, port) => !port.contains ']'
  | none => false

def removeEmptyPort (host : Str) : Str :=
  if hasPort host then Text.trimSuffix host [':'] else host

/-- The URL that a request is created with. -/
def Request.requestURL (req : Request) : Option Url.URL :=
  (Url.parse req.url).map fun u => { u with host := removeEmptyPort u.host }

/-- The URL that the egress check sees. -/
def checkedURL (conn : APIConnection) (ep : APIEndpoint) (params : Params) : Option Url.URL :=
  Url.parse (joinURL conn.baseURL (renderPath ep.path params))

/-- Two URLs with one scheme, host and port. -/
structure SameTarget (u v : Url.URL) : Prop where
  scheme : u.scheme = v.scheme
  hostname : u.hostname = v.hostname
  port : portOf u = portOf v

theorem sameTarget_of_host {u v : Url.URL} (hs : u.scheme = v.scheme) (hh : u.host = v.host) :
    SameTarget u v := by
  refine ⟨hs, ?_, ?_⟩
  · unfold Url.URL.hostname
    rw [hh]
  · unfold portOf
    rw [hh]

theorem not_validOptionalPort {port : Str} (h : ']' ∈ port ∨ ':' ∈ port) :
    Url.validOptionalPort (':' :: port) = false := by
  unfold Url.validOptionalPort
  rw [Bool.and_eq_false_iff]
  right
  apply List.all_eq_false.mpr
  obtain h | h := h
  · exact ⟨_, h, by decide⟩
  · exact ⟨_, h, by decide⟩

/-- An optional port that ends with a colon is the empty one. -/
theorem port_of_colon {x a port : Str} (h : x ++ [':'] = a ++ port)
    (hport : Url.validOptionalPort port = true) : port = [] ∨ (port = [':'] ∧ x = a) := by
  cases port with
  | nil => exact .inl rfl
  | cons c ds =>
    right
    obtain rfl : c = ':' := by
      simp only [Url.validOptionalPort, Bool.and_eq_true, decide_eq_true_eq] at hport
      exact hport.1
    obtain rfl | ⟨es, d, rfl⟩ := List.eq_nil_or_concat ds
    · exact ⟨rfl, (List.append_inj' h rfl).1⟩
    · have hsplit : x ++ [':'] = (a ++ ':' :: es) ++ [d] := by rw [h]; simp
      obtain rfl : ':' = d := by simpa using (List.append_inj' hsplit rfl).2
      rw [not_validOptionalPort (.inr (by simp))] at hport
      cases hport

/-- In front of its empty port the host has no other port, whichever form it has. -/
theorem noPort_before {h h' : Str}
    (hp : Url.parseHost (Url.escape .host (Text.bytes (h ++ [':']))) = some h') (a port : Str)
    (hcut : Url.cutLast ':' h = some (a, port)) : Url.validOptionalPort (':' :: port) = false := by
  obtain ⟨rfl, _⟩ := Url.cutLast_eq_some hcut
  have hcolon : Url.escape .host (Text.bytes [':']) = [':'] := by decide
  have hmiddle : Url.escape .host (Text.bytes (a ++ ':' :: port)) =
      Url.escape .host (Text.bytes a) ++ ':' :: Url.escape .host (Text.bytes port) := by
    rw [← List.singleton_append, Url.escape_append, Url.escape_append, hcolon]
    rfl
  rw [Url.escape_append, hcolon, hmiddle] at hp
  unfold Url.parseHost at hp
  split at hp
  · cases hp
  split at hp
  · split at hp
    · cases hp
    · rename_i inner port' hcut'
      split at hp
      · -- in brackets, what is in front of the empty port ends with one
        rename_i hvalid
        have hsplit := (Url.cutLast_eq_some hcut').1
        have hbracket : ']' ∈ Url.escape .host (Text.bytes port) := by
          rw [← List.singleton_append (l := port'), ← List.append_assoc] at hsplit
          obtain rfl | ⟨rfl, hsame⟩ := port_of_colon hsplit hvalid
          · rw [List.append_nil] at hsplit
            exact absurd (List.append_inj' hsplit rfl).2 (by decide)
          · have hlast := congrArg List.getLast? hsame
            cases hport : Url.escape .host (Text.bytes port) with
            | nil => simp [hport] at hlast
            | cons c cs =>
              rw [hport, List.getLast?_append_of_ne_nil _ (by simp), List.getLast?_cons_cons,
                List.getLast?_append_of_ne_nil _ (by simp), List.getLast?_singleton] at hlast
              exact List.mem_of_getLast? hlast
        exact not_validOptionalPort (.inl ((Url.mem_escape_iff (by decide) (by decide) port).mp hbracket))
      · cases hp
  · -- elsewhere the first colon is already the one of the empty port
    rw [List.append_assoc, List.cons_append] at hp
    set y := Url.escape .host (Text.bytes a) with hy
    cases hcut' : Text.cut ':' (y ++ ':' :: (Url.escape .host (Text.bytes port) ++ [':'])) with
    | none =>
      exact absurd (by simp) (Url.notMem_of_cut_none hcut')
    | some q =>
      obtain ⟨b, p⟩ := q
      rw [hcut'] at hp
      dsimp only at hp
      split at hp
      · rename_i hvalid
        obtain ⟨hsplit, hb⟩ := Url.cut_eq_some hcut'
        rw [← List.cons_append, ← List.append_assoc] at hsplit
        obtain he | ⟨he, hsame⟩ := port_of_colon hsplit hvalid
        · cases he
        · rw [← hsame] at hb
          exact absurd (by simp) hb
      · cases hp

/-- Dropping an empty port changes neither the host nor the port. -/
theorem sameTarget_removeEmptyPort {u : Url.URL} {h' : Str}
    (hp : Url.parseHost (Url.escape .host (Text.bytes u.host)) = some h') :
    SameTarget { u with host := removeEmptyPort u.host } u := by
  by_cases hport : hasPort u.host = true ∧ u.host.getLast? = some ':'
  · obtain ⟨h, hlast⟩ := List.getLast?_eq_some_iff.mp hport.2
    have hremove : removeEmptyPort u.host = h := by
      rw [removeEmptyPort, if_pos hport.1, hlast, Text.trimSuffix_append]
    have hcut : Url.cutLast ':' u.host = some (h, []) := by
      rw [hlast]
      exact Url.cutLast_append h List.not_mem_nil
    rw [hlast] at hp
    have hbefore : ∀ a port, Url.cutLast ':' h = some (a, port) →
        Url.validOptionalPort (':' :: port) = false := noPort_before hp
    have hvalid : Url.validOptionalPort [':'] = true := rfl
    refine ⟨rfl, ?_, ?_⟩
    · unfold Url.URL.hostname
      simp only [hremove, hcut, hvalid, if_true]
      cases hnext : Url.cutLast ':' h with
      | none => rfl
      | some q => simp only [hbefore q.1 q.2 hnext, Bool.false_eq_true, if_false]
    · unfold portOf
      simp only [hremove, hcut, hvalid, if_true]
      cases hnext : Url.cutLast ':' h with
      | none => rfl
      | some q => simp only [hbefore q.1 q.2 hnext, Bool.false_eq_true, if_false]
  · have hsame : removeEmptyPort u.host = u.host := by
      unfold removeEmptyPort
      split
      · exact Text.trimSuffix_of_not fun hlast => hport ⟨‹_›, hlast⟩
      · rfl
    exact sameTarget_of_host rfl hsame

theorem head_trimSuffix {t : Str} {c d : Char} (h : (Text.trimSuffix t [d]).head? = some c) :
    t.head? = some c := by
  have hpre : Text.trimSuffix t [d] <+: t := by
    unfold Text.trimSuffix
    split
    · exact List.take_prefix _ _
    · exact List.prefix_refl _
  exact Url.head_prefixed hpre h

/-- A path is joined to what follows the authority. -/
theorem joinURL_text (p : Url.Parts) (ha : p.authority ≠ []) (path : Str) :
    joinURL p.text path = p.scheme ++ ':' :: '/' :: '/' :: (p.authority ++
      (Text.trimSuffix (p.path ++ (Url.optionText '?' p.query ++ Url.optionText '#' p.fragment)) ['/'] ++
        '/' :: Text.trimPrefix path ['/'])) := by
  set t := p.path ++ (Url.optionText '?' p.query ++ Url.optionText '#' p.fragment) with ht
  have htext : p.text = (p.scheme ++ ':' :: '/' :: '/' :: p.authority) ++ t := by
    simp [Url.Parts.text, Url.Parts.hierText, ht]
  unfold joinURL
  rw [htext]
  by_cases hnil : t = []
  · have hlast : (p.scheme ++ ':' :: '/' :: '/' :: p.authority).getLast? ≠ some '/' := by
      intro hl
      have hassoc : p.scheme ++ ':' :: '/' :: '/' :: p.authority =
          (p.scheme ++ [':', '/', '/']) ++ p.authority := by simp
      rw [hassoc, List.getLast?_append_of_ne_nil _ ha] at hl
      exact p.noEnd.notMem (.inl rfl) (List.mem_of_getLast? hl)
    rw [hnil, List.append_nil, Text.trimSuffix_of_not hlast, Text.trimSuffix_nil]
    simp
  · rw [Text.trimSuffix_append_left hnil]
    simp

/-- Joining a path to a URL keeps the scheme and the authority of the URL, whatever the path. -/
theorem joinURL_parts (p : Url.Parts) (ha : p.authority ≠ []) (path : Str) :
    ∃ p' : Url.Parts, joinURL p.text path = p'.text ∧ p'.scheme = p.scheme ∧
      p'.authority = p.authority := by
  have htail : Url.Tail (Text.trimSuffix
      (p.path ++ (Url.optionText '?' p.query ++ Url.optionText '#' p.fragment)) ['/'] ++
        '/' :: Text.trimPrefix path ['/']) := by
    intro c hc
    rw [List.head?_append, Option.or_eq_some_iff] at hc
    obtain hc | ⟨_, hc⟩ := hc
    · exact p.tail c (head_trimSuffix hc)
    · exact .inl (Option.some.inj hc).symm
  obtain ⟨p', hp', hscheme, hauthority⟩ := Url.exists_parts_of_tail p.web p.noEnd htail
  exact ⟨p', (joinURL_text p ha path).trans hp', hscheme, hauthority⟩

/-- What is joined to a fragment is a part of it. -/
theorem joinURL_fragment {base : Url.Parts} (ha : base.authority ≠ []) (hq : base.query = none) {f : Str}
    (hf : base.fragment = some f) (path : Str) :
    ∃ p : Url.Parts, joinURL base.text path = p.text ∧ p.query = none := by
  obtain ⟨g, hg⟩ : ∃ g, Text.trimSuffix ('#' :: f) ['/'] = '#' :: g := by
    by_cases hnil : f = []
    · exact ⟨[], by rw [hnil]; rfl⟩
    · exact ⟨_, Text.trimSuffix_append_left (x := ['#']) hnil⟩
  refine ⟨⟨base.scheme, base.authority, base.path, none, some (g ++ '/' :: Text.trimPrefix path ['/']),
    base.web, base.noEnd, base.rooted, base.pathNoQuery, base.pathNoFragment, fun _ h => by cases h⟩, ?_, rfl⟩
  have htrim : Text.trimSuffix (base.path ++ '#' :: f) ['/'] = base.path ++ '#' :: g := by
    rw [Text.trimSuffix_append_left (List.cons_ne_nil '#' f), hg]
  rw [joinURL_text base ha, hq, hf]
  simp [Url.Parts.text, Url.Parts.hierText, Url.optionText, htrim]

/-- A base URL without a query or fragment is extended at its path, and takes the query. -/
theorem joinURL_bare {base : Url.Parts} (ha : base.authority ≠ []) (hq : base.query = none)
    (hf : base.fragment = none) {path : Str} (hmark : '?' ∉ path) (hhash : '#' ∉ path)
    {query : Option Str} (hquery : ∀ q, query = some q → '#' ∉ q) :
    ∃ p : Url.Parts, joinURL base.text (path ++ Url.optionText '?' query) = p.text ∧
      p.path = Text.trimSuffix base.path ['/'] ++ '/' :: Text.trimPrefix path ['/'] ∧
      p.query = query ∧ p.fragment = none ∧ p.authority = base.authority := by
  have hclean {c : Char} (hc : c ≠ '/') (hpath : c ∉ path) (hbase : c ∉ base.path) :
      c ∉ Text.trimSuffix base.path ['/'] ++ '/' :: Text.trimPrefix path ['/'] := by
    have hleft : c ∉ Text.trimSuffix base.path ['/'] := by
      intro hm
      unfold Text.trimSuffix at hm
      split at hm
      · exact hbase (List.mem_of_mem_take hm)
      · exact hbase hm
    have hright : c ∉ Text.trimPrefix path ['/'] := by
      intro hm
      unfold Text.trimPrefix at hm
      split at hm
      · exact hpath (List.mem_of_mem_drop hm)
      · exact hpath hm
    simp [hleft, hright, hc]
  have hroot (c : Char)
      (hc : (Text.trimSuffix base.path ['/'] ++ '/' :: Text.trimPrefix path ['/']).head? = some c) :
      c = '/' := by
    rw [List.head?_append, Option.or_eq_some_iff] at hc
    obtain hc | ⟨_, hc⟩ := hc
    · exact base.rooted c (head_trimSuffix hc)
    · exact (Option.some.inj hc).symm
  have hhead : (Url.optionText '?' query).head? ≠ some '/' := by
    cases query with
    | none => simp [Url.optionText]
    | some q => simp [Url.optionText]
  refine ⟨⟨base.scheme, base.authority, _, query, none, base.web, base.noEnd, hroot,
    hclean (by decide) hmark base.pathNoQuery, hclean (by decide) hhash base.pathNoFragment, hquery⟩,
    ?_, rfl, rfl, rfl, rfl⟩
  rw [joinURL_text base ha, hq, hf, Text.trimPrefix_append hhead]
  simp [Url.Parts.text, Url.Parts.hierText, Url.optionText]

/-- The URL that a call resolves to is the checked one with another query. -/
theorem resolveURL_checked {egress : EgressPolicy} {env : CallEnv} {conn : APIConnection}
    {ep : APIEndpoint} {params : Params} {u : Url.URL}
    (h : resolveURL egress env conn ep params = .ok u) :
    ∃ checked, checkedURL conn ep params = some checked ∧
      validateEgress egress env.lookupIP checked = .ok () ∧ u = withQuery ep params checked := by
  unfold resolveURL at h
  dsimp only at h
  split at h
  · cases h
  · rename_i checked hparse
    split at h
    · cases h
    · rename_i hegress
      cases h
      exact ⟨checked, hparse, hegress, rfl⟩

theorem hash_notMem_encode (vs : Url.Values) : '#' ∉ vs.encode := by
  rw [Url.encode_eq]
  intro h
  obtain h | ⟨part, hpart, hmem⟩ := Text.mem_join h
  · exact absurd h (by decide)
  · obtain ⟨pair, _, rfl⟩ := List.mem_map.mp hpart
    have hk := Url.notMem_queryEscape (c := '#') (by decide) (by decide) pair.1
    have hv := Url.notMem_queryEscape (c := '#') (by decide) (by decide) pair.2
    simp [Url.pairText, hk, hv] at hmem

/-- The host of a web URL is in its text. -/
theorem exists_base {s : Str} {base : Url.URL} (h : Url.parse s = some base) (hweb : Url.IsWeb base.scheme)
    (hhost : base.host ≠ []) :
    ∃ p : Url.Parts, s = p.text ∧ Url.ReadFrom p base ∧ p.authority ≠ [] := by
  obtain ⟨p, rfl⟩ := Url.exists_parts h hweb hhost
  have hread := Url.parse_text h
  refine ⟨p, rfl, hread, fun hnil => hhost ?_⟩
  have hauth := hread.authority
  rw [hnil] at hauth
  have hempty : Url.parseAuthority [] = some (none, []) := by decide
  rw [hempty] at hauth
  exact (Prod.ext_iff.mp (Option.some.inj hauth)).2.symm

/-- The URL of a request: the checked one with another query, printed and parsed. -/
theorem requestURL_eq {p : Url.Parts} {checked : Url.URL} {ep : APIEndpoint} {params : Params}
    {args : Option Params} {req : Request} (hread : Url.ReadFrom p checked)
    (hw : Url.WellParsed checked) (hhost : checked.host ≠ [])
    (hbuilt : newRequest ep args (withQuery ep params checked) = .ok req) :
    ∃ created, Url.parse req.url = some created ∧ created.scheme = checked.scheme ∧
      created.host = checked.host ∧ created.path = checked.path ∧
      created.escapedPath = checked.escapedPath ∧
      created.rawQuery = (withQuery ep params checked).rawQuery ∧
      Url.parseHost (Url.escape .host (Text.bytes created.host)) = some created.host := by
  obtain ⟨_, hurl, hsome, _⟩ := newRequest_ok hbuilt
  obtain ⟨created, hcreated⟩ := Option.isSome_iff_exists.mp hsome
  have hquery : ∃ q, withQuery ep params checked = { checked with rawQuery := q } ∧ '#' ∉ q := by
    unfold withQuery
    split
    · exact ⟨_, rfl, hash_notMem_encode _⟩
    · refine ⟨checked.rawQuery, rfl, ?_⟩
      rw [hread.rawQuery]
      cases hq : p.query with
      | none => simp
      | some q => exact p.queryNoFragment q hq
  obtain ⟨q, hsame, hq⟩ := hquery
  refine ⟨created, hurl ▸ hcreated, ?_⟩
  rw [hsame] at hcreated ⊢
  exact Url.parse_string hread hw hhost hq hcreated

/-- What a sent request knows about its URLs. -/
structure Assembled (egress : EgressPolicy) (env : CallEnv) (conn : APIConnection) (ep : APIEndpoint)
    (params : Params) (req : Request) (checked created : Url.URL) : Prop where
  parsed : checkedURL conn ep params = some checked
  allowed : validateEgress egress env.lookupIP checked = .ok ()
  reparsed : Url.parse req.url = some created
  scheme : created.scheme = checked.scheme
  host : created.host = checked.host
  path : created.path = checked.path
  escapedPath : created.escapedPath = checked.escapedPath
  query : created.rawQuery = (withQuery ep params checked).rawQuery
  hostForm : Url.parseHost (Url.escape .host (Text.bytes created.host)) = some created.host

theorem host_ne_nil {u : Url.URL} (h : u.hostname ≠ []) : u.host ≠ [] := by
  intro he
  apply h
  unfold Url.URL.hostname
  rw [he]
  rfl

theorem executeCall_assembled {env : CallEnv} {vault : Provider} {conn : APIConnection}
    {ep : APIEndpoint} {args : Option Params} {c : Client} {req : Request}
    (hsent : (executeCall env vault conn ep args c).request = some req) :
    requestMethod ep.method = some req.method ∧ req.body = renderBody ep args ∧
      ∃ checked created, Assembled c.egress env conn ep (args.getD []) req checked created := by
  obtain ⟨u, built, hu, hbuilt, hreq⟩ := executeCall_built hsent
  obtain ⟨checked, hchecked, hegress, rfl⟩ := resolveURL_checked hu
  obtain ⟨hweb, hname, _⟩ := validateEgress_ok hegress
  have hparse := hchecked
  rw [checkedURL] at hparse
  obtain ⟨p, hp⟩ := Url.exists_parts hparse hweb (host_ne_nil hname)
  have hread := Url.parse_text (hp ▸ hparse)
  obtain ⟨created, hcreated, hscheme, hhost, hpath, hescaped, hquery, hform⟩ :=
    requestURL_eq hread (Url.parse_wellParsed hparse) (host_ne_nil hname) hbuilt
  obtain ⟨hmethod, _, _, hbody⟩ := newRequest_ok hbuilt
  rw [hreq]
  exact ⟨hmethod, hbody, checked, created,
    ⟨hchecked, hegress, hcreated, hscheme, hhost, hpath, hescaped, hquery, hform⟩⟩

/-- Both URLs of a call have the scheme, the host and the port of the base URL. -/
theorem executeCall_target {env : CallEnv} {vault : Provider} {conn : APIConnection}
    {ep : APIEndpoint} {args : Option Params} {c : Client} {req : Request} {base : Url.URL}
    (hbase : Url.parse conn.baseURL = some base) (hweb : Url.IsWeb base.scheme) (hhost : base.host ≠ [])
    (hsent : (executeCall env vault conn ep args c).request = some req) :
    ∃ checked created, checkedURL conn ep (args.getD []) = some checked ∧
      validateEgress c.egress env.lookupIP checked = .ok () ∧ req.requestURL = some created ∧
      SameTarget checked base ∧ SameTarget created base := by
  obtain ⟨_, _, checked, created, h⟩ := executeCall_assembled hsent
  obtain ⟨p, hp, hreadBase, hauth⟩ := exists_base hbase hweb hhost
  obtain ⟨p', hjoin, hscheme, hauthority⟩ := joinURL_parts p hauth (renderPath ep.path (args.getD []))
  have hparse := h.parsed
  rw [checkedURL, hp, hjoin] at hparse
  have hread := Url.parse_text hparse
  have hsameScheme : checked.scheme = base.scheme := by rw [hread.scheme, hreadBase.scheme, hscheme]
  have hsameHost : checked.host = base.host := by
    have hboth := hread.authority
    rw [hauthority, hreadBase.authority] at hboth
    exact (Prod.ext_iff.mp (Option.some.inj hboth)).2.symm
  refine ⟨checked, { created with host := removeEmptyPort created.host }, h.parsed, h.allowed, ?_,
    sameTarget_of_host hsameScheme hsameHost, ?_⟩
  · rw [Request.requestURL, h.reparsed]
    rfl
  · have hdrop := sameTarget_removeEmptyPort h.hostForm
    have hkeep := sameTarget_of_host (h.scheme.trans hsameScheme) (h.host.trans hsameHost)
    exact ⟨hdrop.scheme.trans hkeep.scheme, hdrop.hostname.trans hkeep.hostname,
      hdrop.port.trans hkeep.port⟩

def apiConn : APIConnection :=
  ⟨['c'], ['c'], [], "HTTPS://api.io:/v1".toList, "none".toList, [], true, []⟩

def apiEndpoint : APIEndpoint :=
  ⟨['e'], ['c'], ['t'], [], "@evil.io/\x7b\x7bq\x7d\x7d#f".toList, "GET".toList, [], [], [], 1⟩

def apiArgs : Params := [(['q'], .str "//x@y:1".toList)]

def apiEnv : CallEnv := ⟨0, 0, fun _ => .ok [], none, fun _ => none, fun _ => .reply 200 []⟩

def apiClient : Client := ⟨⟨[], true⟩, .new 0, .new 0, 0⟩

def apiBase : Url.URL :=
  { Url.empty with scheme := "https".toList, host := "api.io:".toList, path := [47, 118, 49] }

theorem request_api :
    (executeCall apiEnv (.local []) apiConn apiEndpoint (some apiArgs) apiClient).request =
      some ⟨"GET".toList, "https://api.io:/v1/@evil.io/%2F%2Fx@y:1#f".toList, none, .none⟩ := by
  decide +kernel

theorem parse_apiBase : Url.parse apiConn.baseURL = some apiBase := by
  decide +kernel

theorem executeCall_target_api :
    ∃ checked created, checkedURL apiConn apiEndpoint apiArgs = some checked ∧
      validateEgress apiClient.egress apiEnv.lookupIP checked = .ok () ∧
      (Request.mk "GET".toList "https://api.io:/v1/@evil.io/%2F%2Fx@y:1#f".toList none
        .none).requestURL = some created ∧
      SameTarget checked apiBase ∧ SameTarget created apiBase :=
  executeCall_target parse_apiBase (.inr rfl) (by decide) request_api

end Janus.Gateway
