import Janus.Lib.Decode
import Janus.Lib.JsonText

/-!
# The OpenAPI importer

Embedding of `pkg/openapiimport`: an OpenAPI 3.x document is decoded, its
operations are visited path by path and method by method, and each one becomes a
tool definition under a generated name. The YAML decoder is a parameter; the
conversion of its result to JSON is the importer's own.
-/

namespace Janus.OpenApi

set_option autoImplicit false

structure ParsedEndpoint where
  toolName : Str
  toolDescription : Str
  path : Str
  method : Str
  parametersSchema : Str
  deriving Repr, DecidableEq

structure ParsedConnection where
  name : Str
  baseURL : Str
  authType : Str
  endpoints : List ParsedEndpoint
  deriving Repr, DecidableEq

structure Options where
  toolNamePrefix : Str
  deriving Repr, DecidableEq

def httpMethods : List Str :=
  ["get".toList, "put".toList, "post".toList, "delete".toList, "options".toList, "head".toList,
    "patch".toList, "trace".toList]

structure SecurityScheme where
  type : Str
  scheme : Str
  «in» : Str
  deriving Repr, DecidableEq

structure Parameter where
  name : Str
  «in» : Str
  description : Str
  required : Bool
  schema : List (Str × Json)
  deriving Repr, DecidableEq

structure MediaType where
  schema : List (Str × Json)
  deriving Repr, DecidableEq

structure RequestBody where
  required : Bool
  content : List (Str × MediaType)
  deriving Repr, DecidableEq

structure Operation where
  operationID : Str
  summary : Str
  description : Str
  parameters : List Parameter
  requestBody : Option RequestBody
  deriving Repr, DecidableEq

structure Root where
  openAPI : Str
  title : Str
  servers : List Str
  paths : List (Str × Json)
  securitySchemes : List (Str × SecurityScheme)
  deriving Repr, DecidableEq

inductive ParseError where
  | emptySpec
  | neitherJSONNorYAML
  | convertingYAML
  | decodingDocument
  | unsupportedVersion (version : Str)
  | decodingPathItem (path : Str)
  | decodingOperation (method path : Str)
  deriving Repr, DecidableEq

section Decoding
open Text (equalFold)

def decodeSecurityScheme (old : SecurityScheme) : Json → Option SecurityScheme :=
  Decode.record (fun s k v =>
    if equalFold k "type".toList then (Decode.str s.type v).map fun x => { s with type := x }
    else if equalFold k "scheme".toList then
      (Decode.str s.scheme v).map fun x => { s with scheme := x }
    else if equalFold k "in".toList then (Decode.str s.in v).map fun x => { s with «in» := x }
    else some s) old

def decodeParameter (old : Parameter) : Json → Option Parameter :=
  Decode.record (fun p k v =>
    if equalFold k "name".toList then (Decode.str p.name v).map fun x => { p with name := x }
    else if equalFold k "in".toList then (Decode.str p.in v).map fun x => { p with «in» := x }
    else if equalFold k "description".toList then
      (Decode.str p.description v).map fun x => { p with description := x }
    else if equalFold k "required".toList then
      (Decode.bool p.required v).map fun x => { p with required := x }
    else if equalFold k "schema".toList then
      (Decode.anyMap p.schema v).map fun x => { p with schema := x }
    else some p) old

def zeroParameter : Parameter := ⟨[], [], [], false, []⟩

def decodeParameters : List Parameter → Json → Option (List Parameter) :=
  Decode.list zeroParameter decodeParameter

def decodeMediaType : Json → Option MediaType :=
  Decode.record (fun m k v =>
    if equalFold k "schema".toList then (Decode.anyMap m.schema v).map fun x => { m with schema := x }
    else some m) ⟨[]⟩

def decodeRequestBody (old : RequestBody) : Json → Option RequestBody :=
  Decode.record (fun b k v =>
    if equalFold k "required".toList then
      (Decode.bool b.required v).map fun x => { b with required := x }
    else if equalFold k "content".toList then
      (Decode.map decodeMediaType b.content v).map fun x => { b with content := x }
    else some b) old

def decodeOperation : Json → Option Operation :=
  Decode.record (fun op k v =>
    if equalFold k "operationId".toList then
      (Decode.str op.operationID v).map fun x => { op with operationID := x }
    else if equalFold k "summary".toList then
      (Decode.str op.summary v).map fun x => { op with summary := x }
    else if equalFold k "description".toList then
      (Decode.str op.description v).map fun x => { op with description := x }
    else if equalFold k "parameters".toList then
      (decodeParameters op.parameters v).map fun x => { op with parameters := x }
    else if equalFold k "requestBody".toList then
      (Decode.pointer ⟨false, []⟩ decodeRequestBody op.requestBody v).map fun x =>
        { op with requestBody := x }
    else some op) ⟨[], [], [], [], none⟩

/-- The parameters shared by the operations of one path. -/
def decodePathItemMeta : Json → Option (List Parameter) :=
  Decode.record (fun ps k v =>
    if equalFold k "parameters".toList then decodeParameters ps v else some ps) []

def decodeMethodOps : Json → Option (List (Str × Json)) := Decode.map some []

def decodeRoot : Json → Option Root :=
  Decode.record (fun r k v =>
    if equalFold k "openapi".toList then (Decode.str r.openAPI v).map fun x => { r with openAPI := x }
    else if equalFold k "info".toList then
      (Decode.record (fun t k v =>
        if equalFold k "title".toList then Decode.str t v else some t) r.title v).map fun x =>
          { r with title := x }
    else if equalFold k "servers".toList then
      (Decode.list [] (Decode.record fun u k v =>
        if equalFold k "url".toList then Decode.str u v else some u) r.servers v).map fun x =>
          { r with servers := x }
    else if equalFold k "paths".toList then
      (Decode.map some r.paths v).map fun x => { r with paths := x }
    else if equalFold k "components".toList then
      (Decode.record (fun ss k v =>
        if equalFold k "securitySchemes".toList then
          Decode.map (decodeSecurityScheme ⟨[], [], []⟩) ss v
        else some ss) r.securitySchemes v).map fun x => { r with securitySchemes := x }
    else some r) ⟨[], [], [], [], []⟩

end Decoding

inductive YamlScalar where
  | null
  | bool (b : Bool)
  | int (i : Int)
  | float (n : NumLit)
  | nonFinite (text : Str)
  | str (s : Str)
  deriving Repr, DecidableEq

/-- A decoded YAML value, map entries in the order of one iteration. -/
inductive Yaml where
  | scalar (s : YamlScalar)
  | seq (items : List Yaml)
  | map (entries : List (YamlScalar × Yaml))
  deriving Repr

def intText (i : Int) : Str := if i < 0 then '-' :: natDigits i.natAbs else natDigits i.natAbs

/-- The text of a map key. -/
def YamlScalar.sprint : YamlScalar → Str
  | .null => "<nil>".toList
  | .bool true => "true".toList
  | .bool false => "false".toList
  | .int i => intText i
  | .float n => n.formatG
  | .nonFinite t => t
  | .str s => s

/-- The encoder refuses infinities and NaN. -/
def YamlScalar.toJson : YamlScalar → Option Json
  | .null => some .null
  | .bool b => some (.bool b)
  | .int i => (numLit? (intText i)).map .num
  | .float n => n.float64.map .num
  | .nonFinite _ => none
  | .str s => some (.str s)

/-- A converted value, with maps from strings only. -/
inductive JsonLike where
  | scalar (s : YamlScalar)
  | seq (items : List JsonLike)
  | map (members : List (Str × JsonLike))
  deriving Repr

mutual
def convertYAMLValue : Yaml → JsonLike
  | .scalar s => .scalar s
  | .seq xs => .seq (convertYAMLItems xs)
  | .map es => .map (convertYAMLEntries es)
def convertYAMLItems : List Yaml → List JsonLike
  | [] => []
  | x :: xs => convertYAMLValue x :: convertYAMLItems xs
/-- An entry is replaced by a later one whose key has the same text. -/
def convertYAMLEntries : List (YamlScalar × Yaml) → List (Str × JsonLike)
  | [] => []
  | (k, x) :: es =>
    if (lookup k.sprint (convertYAMLEntries es)).isSome then convertYAMLEntries es
    else (k.sprint, convertYAMLValue x) :: convertYAMLEntries es
end

mutual
/-- What the encoder writes. -/
def JsonLike.toJson : JsonLike → Option Json
  | .scalar s => s.toJson
  | .seq xs => (toJsonItems xs).map .arr
  | .map ms => (toJsonMembers ms).map .obj
def JsonLike.toJsonItems : List JsonLike → Option (List Json)
  | [] => some []
  | x :: xs => x.toJson.bind fun y => (toJsonItems xs).map fun ys => y :: ys
def JsonLike.toJsonMembers : List (Str × JsonLike) → Option (List (Str × Json))
  | [] => some []
  | (k, x) :: ms => x.toJson.bind fun y => (toJsonMembers ms).map fun ns => (k, y) :: ns
end

def normalizeToJSON (yaml : Str → Option Yaml) (spec : Str) : Except ParseError Str :=
  let trimmed := Text.trimSpace spec
  if trimmed = [] then .error .emptySpec
  else if (JsonText.parse trimmed).isSome then .ok trimmed
  else
    match yaml trimmed with
    | none => .error .neitherJSONNorYAML
    | some raw =>
      match (convertYAMLValue raw).toJson with
      | none => .error .convertingYAML
      | some v => .ok v.marshal

def paramKey (p : Parameter) : Str := p.in ++ '|' :: p.name

/-- A parameter of the operation replaces the last one of its key. -/
def replaceLast (p : Parameter) : List Parameter → Option (List Parameter)
  | [] => none
  | q :: qs =>
    match replaceLast p qs with
    | some qs' => some (q :: qs')
    | none => if paramKey q = paramKey p then some (p :: qs) else none

def mergeParameters (base override : List Parameter) : List Parameter :=
  override.foldl (fun merged p => (replaceLast p merged).getD (merged ++ [p])) base

def stringMember (k : String) (ms : List (Str × Json)) : Str :=
  match lookup k.toList ms with
  | some (.str s) => s
  | _ => []

def parameterToJSONSchema (p : Parameter) : Json :=
  let t := stringMember "type" p.schema
  let f := stringMember "format" p.schema
  .obj ([("type".toList, .str (if t = [] then "string".toList else t))] ++
    (if p.description = [] then [] else [("description".toList, .str p.description)]) ++
    (if f = [] then [] else [("format".toList, .str f)]) ++
    (match lookup "enum".toList p.schema with
      | some e => [("enum".toList, e)]
      | none => []))

def dedupeSorted (items : List Str) : List Str := Text.sortStrings items.dedup

/-- The properties and the required names after the parameters. -/
def paramProperties (params : List Parameter) : List (Str × Json) × List Str :=
  params.foldl (fun (props, req) p =>
    if p.name = [] then (props, req)
    else (setMember p.name (parameterToJSONSchema p) props,
      if p.required || p.in = "path".toList then req ++ [p.name] else req)) ([], [])

/-- The same after the JSON request body: an object is flattened into the
properties, anything else stands under `body`. -/
def bodyProperties (rb : RequestBody) (props : List (Str × Json)) (req : List Str) :
    List (Str × Json) × List Str :=
  match lookup "application/json".toList rb.content with
  | none => (props, req)
  | some mt =>
    let bodyType := stringMember "type" mt.schema
    if mt.schema = [] then (props, req)
    else if bodyType = [] || bodyType = "object".toList then
      let props :=
        match lookup "properties".toList mt.schema with
        | some (.obj ms) => ms.foldl (fun acc m => setMember m.1 m.2 acc) props
        | _ => props
      let req :=
        match lookup "required".toList mt.schema with
        | some (.arr rs) => req ++ rs.filterMap fun r => match r with | .str s => some s | _ => none
        | _ => req
      (props, req)
    else
      (setMember "body".toList (.obj mt.schema) props,
        if rb.required then req ++ ["body".toList] else req)

def buildParametersSchema (params : List Parameter) (rb : Option RequestBody) : Str :=
  let (props, req) := paramProperties params
  let (props, req) :=
    match rb with
    | some rb => bodyProperties rb props req
    | none => (props, req)
  Json.marshal (.obj ([("type".toList, .str "object".toList), ("properties".toList, .obj props)] ++
    if req = [] then [] else [("required".toList, .arr ((dedupeSorted req).map .str))]))

/-- What a security scheme says about the connection, with its rank. -/
def schemeAuthType (s : SecurityScheme) : Option (Str × Nat) :=
  if Text.equalFold s.type "http".toList && Text.equalFold s.scheme "bearer".toList then
    some ("bearer".toList, 0)
  else if Text.equalFold s.type "http".toList && Text.equalFold s.scheme "basic".toList then
    some ("basic".toList, 1)
  else if Text.equalFold s.type "apiKey".toList then some ("custom_headers".toList, 2)
  else if Text.equalFold s.type "oauth2".toList || Text.equalFold s.type "openIdConnect".toList then
    some ("custom_headers".toList, 3)
  else none

def inferAuthType (schemes : List (Str × SecurityScheme)) : Str :=
  let names := Text.sortStrings (schemes.map Prod.fst)
  let best := names.foldl (fun (best : Str × Nat) name =>
    match (lookup name schemes).bind schemeAuthType with
    | some (t, rank) => if rank < best.2 then (t, rank) else best
    | none => best) ("none".toList, 99)
  best.1

def sanitizeConnectionName (title : Str) : Str :=
  match Text.fields title with
  | [] => "Untitled API".toList
  | fs => Text.join [' '] fs

/-- Lower case where the result is an ASCII letter; the other letters do not survive
`sanitizeName`. -/
def lowerChar (c : Char) : Char :=
  if 'A' ≤ c && c ≤ 'Z' then Char.ofNat (c.toNat + 32)
  else if c.toNat = 0x130 then 'i'
  else if c.toNat = 0x212A then 'k'
  else c

def isLowerAlnum (c : Char) : Bool := ('a' ≤ c && c ≤ 'z') || ('0' ≤ c && c ≤ '9')

/-- Every run of characters outside `[a-z0-9]` becomes one underscore; the flag says
that the run has been written already. -/
def collapse : Bool → Str → Str
  | _, [] => []
  | run, c :: cs =>
    if isLowerAlnum c then c :: collapse false cs
    else if run then collapse true cs
    else '_' :: collapse true cs

def sanitizeName (s : Str) : Str := Text.trim (· = '_') (collapse false (s.map lowerChar))

def toolNameBase (operationID method path : Str) : Str :=
  let s := sanitizeName operationID
  if s ≠ [] then s else sanitizeName (method ++ '_' :: path)

def uniqueName (base : Str) (counts : Str → Nat) : Str × (Str → Nat) :=
  let n := counts base + 1
  (if n = 1 then base else base ++ '_' :: natDigits n, Function.update counts base n)

def firstNonEmpty (a b : Str) : Str := if a ≠ [] then a else b

def upperChar (c : Char) : Char := if 'a' ≤ c && c ≤ 'z' then Char.ofNat (c.toNat - 32) else c

/-- What the loop over the operations carries. -/
structure Naming where
  counts : Str → Nat
  endpoints : List ParsedEndpoint

def importOperation (opts : Options) (path : Str) (shared : List Parameter) (st : Naming)
    (method : Str) (opRaw : Json) : Except ParseError Naming :=
  match decodeOperation opRaw with
  | none => .error (.decodingOperation (method.map upperChar) path)
  | some op =>
    let base := opts.toolNamePrefix ++ toolNameBase op.operationID method path
    let (name, counts) := uniqueName base st.counts
    .ok ⟨counts, st.endpoints ++ [{
      toolName := name
      toolDescription := firstNonEmpty op.summary op.description
      path := path
      method := method.map upperChar
      parametersSchema := buildParametersSchema (mergeParameters shared op.parameters) op.requestBody }]⟩

def importPath (opts : Options) (paths : List (Str × Json)) (st : Naming) (path : Str) :
    Except ParseError Naming :=
  let raw := (lookup path paths).getD .null
  match decodePathItemMeta raw, decodeMethodOps raw with
  | some shared, some methodOps =>
    httpMethods.foldlM (fun st method =>
      match lookup method methodOps with
      | none => .ok st
      | some opRaw => importOperation opts path shared st method opRaw) st
  | _, _ => .error (.decodingPathItem path)

def sortedPaths (root : Root) : List Str := Text.sortStrings (root.paths.map Prod.fst)

/-- The decoded document, once its version has been accepted. -/
def decodeDocument (yaml : Str → Option Yaml) (spec : Str) : Except ParseError Root :=
  match normalizeToJSON yaml spec with
  | .error e => .error e
  | .ok text =>
    match (JsonText.parse text).bind decodeRoot with
    | none => .error .decodingDocument
    | some root =>
      if Text.hasPrefix root.openAPI "3.".toList then .ok root
      else .error (.unsupportedVersion root.openAPI)

def parse (yaml : Str → Option Yaml) (spec : Str) (opts : Options) :
    Except ParseError ParsedConnection :=
  match decodeDocument yaml spec with
  | .error e => .error e
  | .ok root =>
    match (sortedPaths root).foldlM (importPath opts root.paths) ⟨fun _ => 0, []⟩ with
    | .error e => .error e
    | .ok st => .ok {
        name := sanitizeConnectionName root.title
        baseURL := root.servers.headD []
        authType := inferAuthType root.securitySchemes
        endpoints := st.endpoints }

end Janus.OpenApi
