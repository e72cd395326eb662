import Janus.Gateway
import Janus.Lib.UrlText
import Janus.Portal
import Janus.ToolNames

/-!
# Path parameters from import to call

The importer keeps the path of an operation as the document writes it, with its
parameters in single braces. The client replaces parameters in double braces. No
double brace occurs in such a path, so no parameter of it is ever replaced, and those
of a GET request all go to the query.
-/

namespace Janus.Gateway

set_option autoImplicit false

open Storage Vault

inductive PathPart where
  | lit (s : Str)
  | param (name : Str)
  deriving Repr, DecidableEq

def PathPart.WellFormed : PathPart → Prop
  | .lit s => '{' ∉ s ∧ '}' ∉ s
  | .param name => name ≠ [] ∧ '{' ∉ name ∧ '}' ∉ name

instance : DecidablePred PathPart.WellFormed
  | .lit s => inferInstanceAs (Decidable ('{' ∉ s ∧ '}' ∉ s))
  | .param name => inferInstanceAs (Decidable (name ≠ [] ∧ '{' ∉ name ∧ '}' ∉ name))

/-- A path as a document writes it: braces stand around parameter names only. -/
structure PathTemplate where
  parts : List PathPart
  wellFormed : ∀ part ∈ parts, part.WellFormed

/-- A parameter as it stands in a document's path. -/
def braced (name : Str) : Str := '{' :: (name ++ ['}'])

def PathPart.text : PathPart → Str
  | .lit s => s
  | .param name => braced name

/-- The part with the value of the parameter percent-encoded in its place. -/
def PathPart.fill (params : Params) : PathPart → Str
  | .lit s => s
  | .param name => ((lookup name params).map fun v => Url.pathEscape v.formatV).getD []

namespace PathTemplate

def text (tpl : PathTemplate) : Str := tpl.parts.flatMap PathPart.text

def fill (tpl : PathTemplate) (params : Params) : Str := tpl.parts.flatMap (PathPart.fill params)

def names (tpl : PathTemplate) : List Str :=
  tpl.parts.filterMap fun
    | .lit _ => none
    | .param name => some name

end PathTemplate

theorem doubleBrace_append {l r : Str} (hl : '{' ∉ l) (h : ['{', '{'] <:+: l ++ r) :
    ['{', '{'] <:+: r := by
  induction l with
  | nil => exact h
  | cons c cs ih =>
    obtain ⟨hc, hcs⟩ := not_or.mp (List.mem_cons.not.mp hl)
    rcases List.infix_cons_iff.mp h with hp | hi
    · exact absurd (List.cons_prefix_cons.mp hp).1 hc
    · exact ih hcs hi

theorem doubleBrace_braced {name r : Str} (hn : '{' ∉ name) (h : ['{', '{'] <:+: braced name ++ r) :
    ['{', '{'] <:+: r := by
  have hclose : '{' ∉ name ++ ['}'] := by simp [hn]
  rcases List.infix_cons_iff.mp h with hp | hi
  · -- The second brace would start the name or close it.
    have hsecond := (List.cons_prefix_cons.mp hp).2
    obtain ⟨c, cs, hcs⟩ := List.exists_cons_of_ne_nil (List.append_ne_nil_of_right_ne_nil name
      (List.cons_ne_nil '}' []))
    rw [hcs] at hsecond hclose
    have hc := (List.cons_prefix_cons.mp hsecond).1
    exact absurd (hc ▸ List.mem_cons_self) hclose
  · exact doubleBrace_append hclose hi

theorem not_doubleBrace_parts {parts : List PathPart} (h : ∀ part ∈ parts, part.WellFormed) :
    ¬ ['{', '{'] <:+: parts.flatMap PathPart.text := by
  induction parts with
  | nil => simp
  | cons part parts ih =>
    have hpart := h part List.mem_cons_self
    have hrest := ih fun q hq => h q (List.mem_cons_of_mem part hq)
    intro hi
    rw [List.flatMap_cons] at hi
    cases part with
    | lit s => exact hrest (doubleBrace_append hpart.1 hi)
    | param name => exact hrest (doubleBrace_braced hpart.2.1 hi)

theorem not_placeholder_text (tpl : PathTemplate) (k : Str) : ¬ placeholder k <:+: tpl.text := by
  intro h
  have hopen : ['{', '{'] <:+: placeholder k := ⟨[], k ++ ['}', '}'], rfl⟩
  exact not_doubleBrace_parts tpl.wellFormed (hopen.trans h)

/-- Rendering leaves the path of a document as it is. -/
theorem renderPath_text (tpl : PathTemplate) (params : Params) :
    renderPath tpl.text params = tpl.text := by
  unfold renderPath
  induction params with
  | nil => rfl
  | cons m params ih =>
    obtain ⟨k, v⟩ := m
    rw [List.foldl_cons]
    dsimp only
    rw [Text.replaceAll_of_absent (not_placeholder_text tpl k)]
    exact ih

theorem braced_infix_text {tpl : PathTemplate} {name : Str} (h : name ∈ tpl.names) :
    braced name <:+: tpl.text := by
  obtain ⟨part, hpart, hname⟩ := List.mem_filterMap.mp h
  cases part with
  | lit s => cases hname
  | param n =>
    cases hname
    obtain ⟨before, after, hparts⟩ := List.append_of_mem hpart
    refine ⟨before.flatMap PathPart.text, after.flatMap PathPart.text, ?_⟩
    rw [PathTemplate.text, hparts, List.flatMap_append, List.flatMap_cons, List.append_assoc]
    rfl

/-- One argument as it stands in a query. -/
def queryPart (k : Str) (v : Json) : Str := Url.queryEscape k ++ '=' :: Url.queryEscape v.formatV

/-- A value set for a name is a part of the encoded query. -/
theorem queryPart_mem_encode {vs : Url.Values} {k : Str} {v : Json} (h : (k, [v.formatV]) ∈ vs) :
    queryPart k v ∈ Text.splitOn '&' vs.encode := by
  let pairs : List Str := (sortMembers vs).flatMap fun m =>
    m.2.map fun x => Url.queryEscape m.1 ++ '=' :: Url.queryEscape x
  have hmem : queryPart k v ∈ pairs :=
    List.mem_flatMap.mpr ⟨_, mem_sortMembers.mpr h, List.mem_singleton.mpr rfl⟩
  have hsep : ∀ p ∈ pairs, '&' ∉ p := by
    intro p hp
    obtain ⟨m, _, hm⟩ := List.mem_flatMap.mp hp
    obtain ⟨x, _, rfl⟩ := List.mem_map.mp hm
    have hk := Url.amp_notMem_queryEscape m.1
    have hx := Url.amp_notMem_queryEscape x
    simp [hk, hx]
  have hsplit : Text.splitOn '&' vs.encode = pairs :=
    Text.splitOn_join (List.ne_nil_of_mem hmem) hsep
  rw [hsplit]
  exact hmem

theorem lookup_queryParams_of_none {path : Str} {k : Str} {params : Params} {q : Url.Values}
    (h : lookup k params = none) : lookup k (queryParams path params q) = lookup k q := by
  induction params generalizing q with
  | nil => rfl
  | cons m params ih =>
    obtain ⟨k', x⟩ := m
    obtain ⟨hrest, hk⟩ := Option.or_eq_none_iff.mp h
    have hne : k ≠ k' := by
      intro he
      simp [he] at hk
    have hstep : lookup k (if Text.containsSub path (placeholder k') then q else q.set k' x.formatV) =
        lookup k q := by
      split
      · rfl
      · exact lookup_setMember_of_ne hne _ q
    exact (ih hrest).trans hstep

/-- An argument that the path does not name is in the query. -/
theorem lookup_queryParams {path : Str} {k : Str} {v : Json} {params : Params} {q : Url.Values}
    (hpath : ¬ placeholder k <:+: path) (h : lookup k params = some v) :
    lookup k (queryParams path params q) = some [v.formatV] := by
  induction params generalizing q with
  | nil => cases h
  | cons m params ih =>
    obtain ⟨k', x⟩ := m
    rcases Option.or_eq_some_iff.mp h with hrest | ⟨hnone, hk⟩
    · exact ih hrest
    · split at hk
      · rename_i he
        cases he
        cases hk
        have habsent : Text.containsSub path (placeholder k) = false := by
          rw [← Bool.not_eq_true, Text.containsSub_iff]
          exact hpath
        have hstep : lookup k (if Text.containsSub path (placeholder k) then q else q.set k v.formatV) =
            some [v.formatV] := by
          rw [habsent]
          exact lookup_setMember_self k [v.formatV] q
        exact (lookup_queryParams_of_none hnone).trans hstep
      · cases hk

/-- The path parameters are filled in: the path of the request is that of the filled
template, the path text it was built from has no parameter left in it, and no path
parameter is in the query. -/
structure Filled (tpl : PathTemplate) (conn : APIConnection) (ep : APIEndpoint) (params : Params)
    (u : Url.URL) : Prop where
  path : ∃ v, Url.parse (joinURL conn.baseURL (tpl.fill params)) = some v ∧
    u.escapedPath = v.escapedPath
  noneLeft : ∀ name ∈ tpl.names, ¬ braced name <:+: renderPath ep.path params
  notMoved : ∀ name ∈ tpl.names, ∀ v, lookup name params = some v →
    queryPart name v ∉ Text.splitOn '&' u.rawQuery

theorem not_filled {tpl : PathTemplate} {conn : APIConnection} {ep : APIEndpoint} {params : Params}
    {u : Url.URL} (hpath : ep.path = tpl.text) (hnames : tpl.names ≠ []) :
    ¬ Filled tpl conn ep params u := by
  intro h
  obtain ⟨name, names, hn⟩ := List.exists_cons_of_ne_nil hnames
  have hname : name ∈ tpl.names := hn ▸ List.mem_cons_self
  apply h.noneLeft name hname
  rw [hpath, renderPath_text]
  exact braced_infix_text hname

/-- The path parameters of a GET request are in its query. -/
theorem moved_of_get {egress : EgressPolicy} {env : CallEnv} {conn : APIConnection} {ep : APIEndpoint}
    {params : Params} {u : Url.URL} {tpl : PathTemplate} (hpath : ep.path = tpl.text)
    (hget : ep.method = "GET".toList) (hu : resolveURL egress env conn ep params = .ok u) {k : Str}
    {v : Json} (hv : lookup k params = some v) : queryPart k v ∈ Text.splitOn '&' u.rawQuery := by
  have habsent : ¬ placeholder k <:+: ep.path := hpath ▸ not_placeholder_text tpl k
  unfold resolveURL at hu
  dsimp only at hu
  split at hu
  · cases hu
  · split at hu
    · cases hu
    · cases hu
      simp only [withQuery, hget, if_true]
      exact queryPart_mem_encode (mem_of_lookup (lookup_queryParams habsent hv))

/-- The path of the request is that of the unfilled template, whatever the arguments are. -/
theorem path_of_template {egress : EgressPolicy} {env : CallEnv} {conn : APIConnection}
    {ep : APIEndpoint} {params : Params} {u : Url.URL} {tpl : PathTemplate} (hpath : ep.path = tpl.text)
    (hu : resolveURL egress env conn ep params = .ok u) :
    (Url.parse (joinURL conn.baseURL tpl.text)).map Url.URL.escapedPath = some u.escapedPath := by
  unfold resolveURL at hu
  rw [hpath, renderPath_text] at hu
  dsimp only at hu
  split at hu
  · cases hu
  · rename_i u₀ hparse
    split at hu
    · cases hu
    · cases hu
      rw [hparse, Option.map_some, withQuery]
      split <;> rfl

end Janus.Gateway

namespace Janus.OpenApi

/-- Every operation of an accepted document is among its endpoints, under some name. -/
theorem endpoint_mem_foldl_addOp (opts : Options) {f : FoundOp} {ops : List FoundOp} (hf : f ∈ ops)
    (st : Naming) : ∃ name, f.endpoint name ∈ (ops.foldl (addOp opts) st).endpoints := by
  have hkeep (ops : List FoundOp) (st : Naming) (pe : ParsedEndpoint) (h : pe ∈ st.endpoints) :
      pe ∈ (ops.foldl (addOp opts) st).endpoints := by
    induction ops generalizing st with
    | nil => exact h
    | cons g ops ih => exact ih (addOp opts st g) (List.mem_append_left _ h)
  induction ops generalizing st with
  | nil => cases hf
  | cons g ops ih =>
    rcases List.mem_cons.mp hf with rfl | hf
    · refine ⟨(uniqueName (f.base opts) st.counts).1, hkeep ops (addOp opts st f) _ ?_⟩
      exact List.mem_append_right _ (List.mem_singleton.mpr rfl)
    · exact ih hf (addOp opts st g)

end Janus.OpenApi

namespace Janus.Portal

open Storage Gateway OpenApi

/-- For every operation of an accepted document whose path has parameters: every call of the
endpoint that the import stores for it sends a request in which they are not filled in.
Its path is that of the unfilled template, and a GET request has every one of the
parameters in its query. -/
theorem imported_not_filled (yaml : Str → Option Yaml) (spec : Str) (opts : Options)
    (parsed : ParsedConnection) (root : Root) (ops : List FoundOp) (f : FoundOp) (tpl : PathTemplate)
    (hparse : parse yaml spec opts = .ok parsed) (hroot : decodeDocument yaml spec = .ok root)
    (hops : documentOps root = .ok ops) (hf : f ∈ ops) (htpl : f.path = tpl.text)
    (hnames : tpl.names ≠ []) :
    ∃ name, f.endpoint name ∈ parsed.endpoints ∧
      ∀ (db : DB) (id connectionID : Str) (conn : APIConnection) (env : CallEnv)
        (vault : Vault.Provider) (args : Option Params) (c : Client) (req : Request),
        (executeCall env vault conn
          (db.pinned (importedEndpoint id connectionID (f.endpoint name))) args c).request =
            some req →
        ∃ u, resolveURL c.egress env conn
            (db.pinned (importedEndpoint id connectionID (f.endpoint name))) (args.getD []) = .ok u ∧
          req.url = u.string ∧
          ¬ Filled tpl conn (db.pinned (importedEndpoint id connectionID (f.endpoint name)))
            (args.getD []) u ∧
          (Url.parse (joinURL conn.baseURL tpl.text)).map Url.URL.escapedPath = some u.escapedPath ∧
          (f.method.map upperChar = "GET".toList → ∀ k ∈ tpl.names, ∀ v,
            lookup k (args.getD []) = some v → queryPart k v ∈ Text.splitOn '&' u.rawQuery) := by
  obtain ⟨root', ops', hroot', hops', hendpoints⟩ := parse_ok hparse
  rw [hroot] at hroot'
  cases hroot'
  rw [hops] at hops'
  cases hops'
  obtain ⟨name, hname⟩ := endpoint_mem_foldl_addOp opts hf ⟨fun _ => 0, []⟩
  refine ⟨name, hendpoints ▸ hname, ?_⟩
  intro db id connectionID conn env vault args c req hsent
  obtain ⟨u, hu, hurl, _⟩ := executeCall_request hsent
  refine ⟨u, hu, hurl, not_filled htpl hnames, path_of_template htpl hu, ?_⟩
  intro hget k _ v hv
  exact moved_of_get htpl hget hu hv

def petTemplate : PathTemplate where
  parts := [.lit "/pets/".toList, .param "petId".toList]
  wellFormed := by decide

def petSpec : Str :=
  Json.compact (.obj [("openapi".toList, .str "3.0".toList),
    ("paths".toList, .obj [(petTemplate.text, .obj [("get".toList, specOp "p")])])])

def petOp : FoundOp := ⟨petTemplate.text, "get".toList, [], ⟨['p'], [], [], [], none⟩⟩

def petEndpoint : APIEndpoint :=
  (DB.empty false).pinned (importedEndpoint ['e'] ['c'] (petOp.endpoint ['p']))

def petConn : APIConnection := ⟨['c'], ['c'], [], "http://h".toList, "none".toList, [], true, []⟩

def petClient : Client := ⟨⟨[], true⟩, .new 0, .new 0, 0⟩

def petEnv : CallEnv :=
  ⟨0, 0, fun _ => .ok [], none, fun _ => none, fun _ => .reply 200 []⟩

def petArgs : Params := [("petId".toList, .str ['7'])]

theorem decodeDocument_petSpec :
    ∃ root, decodeDocument noYaml petSpec = .ok root ∧ documentOps root = .ok [petOp] := by
  have h : (decodeDocument noYaml petSpec).toOption.map
      (fun root => decide ((documentOps root).toOption = some [petOp])) = some true := by
    decide +kernel
  obtain ⟨root, hroot, hops⟩ := exists_ok_of_map_toOption h
  have hmap : (documentOps root).toOption.map id = some [petOp] := by
    rw [Option.map_id_fun, id]
    exact of_decide_eq_true hops
  obtain ⟨ops, hok, rfl⟩ := exists_ok_of_map_toOption hmap
  exact ⟨root, hroot, hok⟩

theorem parse_petSpec :
    ∃ parsed, parse noYaml petSpec ⟨[]⟩ = .ok parsed ∧ parsed.endpoints = [petOp.endpoint ['p']] := by
  have h : (parse noYaml petSpec ⟨[]⟩).toOption.map ParsedConnection.endpoints =
      some [petOp.endpoint ['p']] := by
    decide +kernel
  exact exists_ok_of_map_toOption h

theorem request_petEndpoint :
    (executeCall petEnv (.local []) petConn petEndpoint (some petArgs) petClient).request =
      some ⟨"GET".toList, "http://h/pets/%7BpetId%7D?petId=7".toList, none, .none⟩ := by
  decide +kernel

theorem petTemplate_names : petTemplate.names = ["petId".toList] := rfl

/-- Pet 7 is asked for at a path with the placeholder in it, and its id is in the query. -/
theorem petEndpoint_not_filled :
    ∃ parsed u, parse noYaml petSpec ⟨[]⟩ = .ok parsed ∧ petOp.endpoint ['p'] ∈ parsed.endpoints ∧
      resolveURL petClient.egress petEnv petConn petEndpoint petArgs = .ok u ∧
      (executeCall petEnv (.local []) petConn petEndpoint (some petArgs) petClient).request =
        some ⟨"GET".toList, "http://h/pets/%7BpetId%7D?petId=7".toList, none, .none⟩ ∧
      ¬ Filled petTemplate petConn petEndpoint petArgs u := by
  obtain ⟨parsed, hparse, hendpoints⟩ := parse_petSpec
  obtain ⟨u, hu, _⟩ := executeCall_request request_petEndpoint
  refine ⟨parsed, u, hparse, by simp [hendpoints], hu, request_petEndpoint, ?_⟩
  exact not_filled rfl (by simp [petTemplate_names])

/-- The import of the pet operation, whatever is called with it. -/
theorem petSpec_not_filled :
    ∃ name parsed, parse noYaml petSpec ⟨[]⟩ = .ok parsed ∧ petOp.endpoint name ∈ parsed.endpoints ∧
      ∀ (args : Option Params) (req : Request),
        (executeCall petEnv (.local []) petConn ((DB.empty false).pinned
          (importedEndpoint ['e'] ['c'] (petOp.endpoint name))) args petClient).request = some req →
        ∃ u, req.url = u.string ∧ ¬ Filled petTemplate petConn ((DB.empty false).pinned
          (importedEndpoint ['e'] ['c'] (petOp.endpoint name))) (args.getD []) u := by
  obtain ⟨parsed, hparse, _⟩ := parse_petSpec
  obtain ⟨root, hroot, hops⟩ := decodeDocument_petSpec
  obtain ⟨name, hname, hcalls⟩ := imported_not_filled noYaml petSpec ⟨[]⟩ parsed root [petOp] petOp
    petTemplate hparse hroot hops List.mem_cons_self rfl (by simp [petTemplate_names])
  refine ⟨name, parsed, hparse, hname, ?_⟩
  intro args req hsent
  obtain ⟨u, _, hurl, hnot, _⟩ := hcalls (DB.empty false) ['e'] ['c'] petConn petEnv (.local []) args
    petClient req hsent
  exact ⟨u, hurl, hnot⟩

end Janus.Portal
