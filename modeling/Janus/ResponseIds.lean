import Janus.Lib.JsonReading
import Janus.Lib.JsonUnits
import Janus.Responses
import Janus.Transports

/-!
# Ids of requests and responses

The id of a request is decoded into an untyped value, a number into a double and a string with
U+FFFD for each surrogate without a partner, and encoded again. The response has the value of
the request's id when that is a string whose surrogates are paired, or an integer that is the
shortest decimal of its double, and it always has a result or an error and not both.
-/

namespace Janus.Server

set_option autoImplicit false

/-- An id as it is written: a string literal, or that of an integer, which has no fraction and
no exponent. -/
inductive MessageID where
  | text (l : JsonText.StringLit)
  | integer (n : NumLit) (h : ∀ c ∈ n.text, c ≠ '.' ∧ c ≠ 'e' ∧ c ≠ 'E')

def MessageID.literal : MessageID → Str
  | .text l => l.quoted
  | .integer n _ => n.text

/-- The id as it is read. -/
def MessageID.json : MessageID → Json
  | .text l => .str l.chars
  | .integer n _ => .num n

/-- The value is a string of the same code units, or a number of the same value. -/
def MessageID.Is : MessageID → Json → Prop
  | .text l, v => ∃ s, v = .str s ∧ JsonText.textUnits s = l.units
  | .integer n _, v => ∃ m : NumLit, v = .num m ∧ m.decimal = n.decimal

/-- The surrogates of the string are paired, and the integer is the shortest decimal that rounds
to its double. -/
def MessageID.Kept : MessageID → Prop
  | .text l => l.Paired
  | .integer n _ => n.decimal.toFloat64 = some n.decimal

/-- A request with its id. Without the id it is a notification that is decoded. -/
structure RequestDoc where
  before : List (Str × Json)
  id : MessageID
  after : List (Str × Json)
  others : ∀ m ∈ before ++ after, Text.equalFold m.1 "id".toList = false
  decodes : (decodeRequest (.obj (before ++ after))).isSome = true

def RequestDoc.members (d : RequestDoc) : List (Str × Json) :=
  d.before ++ ("id".toList, d.id.json) :: d.after

def RequestDoc.json (d : RequestDoc) : Json := .obj d.members

/-- What is decoded of a member. -/
def assignRequest (r : JSONRPCRequest) (k : Str) (v : Json) : Option JSONRPCRequest :=
  if Text.equalFold k "jsonrpc".toList then (Decode.str [] v).map fun _ => r
  else if Text.equalFold k "method".toList then
    (Decode.str r.method v).map fun x => { r with method := x }
  else if Text.equalFold k "params".toList then some { r with params := some v }
  else if Text.equalFold k "id".toList then (Json.toAny v).map fun x => { r with id := x }
  else some r

theorem decodeRequest_obj (ms : List (Str × Json)) :
    decodeRequest (.obj ms) = ms.foldlM (fun r m => assignRequest r m.1 m.2) ⟨[], none, .null⟩ := rfl

/-- The id stays out of the way of the other members. -/
theorem assignRequest_id {k : Str} (hk : Text.equalFold k "id".toList = false) (r : JSONRPCRequest)
    (v x : Json) : assignRequest { r with id := x } k v =
      (assignRequest r k v).map fun r => { r with id := x } := by
  unfold assignRequest
  rw [hk]
  split
  · cases Decode.str [] v <;> rfl
  · split
    · cases Decode.str r.method v <;> rfl
    · split
      · rfl
      · rfl

theorem foldlM_id {ms : List (Str × Json)} (h : ∀ m ∈ ms, Text.equalFold m.1 "id".toList = false)
    (r : JSONRPCRequest) (x : Json) :
    ms.foldlM (fun r m => assignRequest r m.1 m.2) { r with id := x } =
      (ms.foldlM (fun r m => assignRequest r m.1 m.2) r).map fun r => { r with id := x } := by
  induction ms generalizing r with
  | nil => rfl
  | cons m ms ih =>
    obtain ⟨hm, hms⟩ := List.forall_mem_cons.mp h
    rw [List.foldlM_cons, List.foldlM_cons, assignRequest_id hm]
    cases assignRequest r m.1 m.2 with
    | none => rfl
    | some r' => exact ih hms r'

theorem decodeRequest_json (d : RequestDoc) : ∃ req : JSONRPCRequest,
    decodeRequest d.json = d.id.json.toAny.map fun x => { req with id := x } := by
  obtain ⟨req, hreq⟩ := Option.isSome_iff_exists.mp d.decodes
  refine ⟨req, ?_⟩
  have hafter : ∀ m ∈ d.after, Text.equalFold m.1 "id".toList = false :=
    fun m hm => d.others m (List.mem_append_right _ hm)
  rw [decodeRequest_obj, List.foldlM_append] at hreq
  obtain ⟨r, hr, hrest⟩ := Option.bind_eq_some_iff.mp hreq
  rw [RequestDoc.json, RequestDoc.members, decodeRequest_obj, List.foldlM_append, hr]
  have hid : assignRequest r "id".toList d.id.json = d.id.json.toAny.map fun x => { r with id := x } := rfl
  simp only [Option.bind_eq_bind, Option.bind_some, List.foldlM_cons, hid]
  cases d.id.json.toAny with
  | none => rfl
  | some x =>
    simp only [Option.map_some, Option.bind_some]
    rw [foldlM_id hafter, hrest]
    rfl

/-- The response is an object with the value of the id, and with a result or an error but not
both. -/
def Answers (id : MessageID) (resp : JSONRPCResponse) : Prop :=
  ∃ ms v, JsonText.parse resp.json.compact = some (.obj ms) ∧
    lookup "id".toList ms = some v ∧ id.Is v ∧
    ((lookup "result".toList ms).isSome = !(lookup "error".toList ms).isSome)

theorem toolsList_one (env : Env) (role : Str) (scopes : List Str) (srv : MCPServer) :
    (toolsList env role scopes srv).1.isSome = !(toolsList env role scopes srv).2.isSome := by
  unfold toolsList
  split <;> rfl

theorem toolsCall_one (env : Env) (identity role : Str) (scopes : List Str) (params : Option Json)
    (srv : MCPServer) : (toolsCall env identity role scopes params srv).1.1.isSome =
      !(toolsCall env identity role scopes params srv).1.2.isSome := by
  unfold toolsCall
  split
  · rfl
  · split
    · rfl
    · split
      · rfl
      · unfold runCall callAnswer
        dsimp only
        split <;> rfl

/-- Every branch sets the result or the error. -/
theorem handleRequest_one (env : Env) (identity role : Str) (scopes : List Str) (req : JSONRPCRequest)
    (srv : MCPServer) :
    (handleRequest env identity role scopes req srv).1.result.isSome =
      !(handleRequest env identity role scopes req srv).1.error.isSome := by
  unfold handleRequest
  by_cases hinit : req.method = "initialize".toList
  · rw [if_pos hinit]
    rfl
  · rw [if_neg hinit]
    by_cases hlist : req.method = "tools/list".toList
    · rw [if_pos hlist]
      exact toolsList_one env role scopes srv
    · rw [if_neg hlist]
      by_cases hcall : req.method = "tools/call".toList
      · rw [if_pos hcall]
        exact toolsCall_one env identity role scopes req.params srv
      · rw [if_neg hcall]
        rfl

theorem lookup_json (resp : JSONRPCResponse) : ∃ ms, resp.json = .obj ms ∧
    lookup "id".toList ms = some resp.id.sorted ∧
    (lookup "result".toList ms).isSome = resp.result.isSome ∧
    (lookup "error".toList ms).isSome = resp.error.isSome := by
  refine ⟨_, rfl, ?_⟩
  cases resp.result <;> cases resp.error <;> simp [lookup]

theorem answers_handled (env : Env) (who : Identity) (req : JSONRPCRequest) (srv : MCPServer)
    (id : MessageID) :
    Answers id (handleRequest env who.name who.role who.scopes req srv).1 ↔ id.Is req.id.sorted := by
  obtain ⟨ms, hms, hid, hresult, herror⟩ :=
    lookup_json (handleRequest env who.name who.role who.scopes req srv).1
  rw [handleRequest_id] at hid
  have hone := handleRequest_one env who.name who.role who.scopes req srv
  have hparse := JsonText.parse_compact
    (handleRequest env who.name who.role who.scopes req srv).1.json
  rw [hms] at hparse
  unfold Answers
  rw [hms, hparse]
  constructor
  · rintro ⟨ms', v, hms', hv, his, _⟩
    cases hms'
    rw [hid] at hv
    cases hv
    exact his
  · intro his
    exact ⟨ms, _, rfl, hid, his, by rw [hresult, herror, hone]⟩

/-- The decoded id is the id again exactly when its surrogates are paired, or it is its own
shortest decimal. -/
theorem is_decoded_iff (id : MessageID) :
    (∃ x, id.json.toAny = some x ∧ id.Is x.sorted) ↔ id.Kept := by
  cases id with
  | text l =>
    rw [MessageID.Kept, ← l.textUnits_chars]
    constructor
    · rintro ⟨x, ⟨rfl⟩, s, ⟨rfl⟩, hs⟩
      exact hs
    · intro hs
      exact ⟨.str l.chars, rfl, l.chars, rfl, hs⟩
  | integer n h =>
    simp only [MessageID.json, Json.toAny, MessageID.Is, MessageID.Kept, NumLit.float64]
    cases hd : n.decimal.toFloat64 with
    | none => simp
    | some d =>
      obtain ⟨m, hm, hdec⟩ := numLit_jsonText (toFloat64_again hd).1
      rw [Option.bind_some, hm, Option.map_some]
      constructor
      · rintro ⟨x, ⟨rfl⟩, m', ⟨rfl⟩, hm'⟩
        rw [← hdec, hm']
      · rintro ⟨rfl⟩
        exact ⟨.num m, rfl, m, rfl, hdec⟩

theorem json_ne_null (id : MessageID) {x : Json} (h : id.json.toAny = some x) : x ≠ .null := by
  rintro rfl
  cases id with
  | text l => cases h
  | integer n hn =>
    obtain ⟨m, _, hm⟩ := Option.map_eq_some_iff.mp h
    cases hm

/-- The text starts with the request, and the id stands in it as it is written. -/
def RequestDoc.In (d : RequestDoc) (text : Str) : Prop :=
  (JsonText.topMembers text).map (List.map JsonText.Member.entry) = some d.members ∧
    ((JsonText.topMembers text).bind fun ms => ms[d.before.length]?).map JsonText.Member.text =
      some d.id.literal

instance (d : RequestDoc) (text : Str) : Decidable (d.In text) :=
  inferInstanceAs (Decidable (_ ∧ _))

theorem RequestDoc.In.read {d : RequestDoc} {text : Str} (h : d.In text) :
    (JsonText.parseValue (text.length + 1) text).map Prod.fst = some d.json := by
  obtain ⟨ms, hms, hentries⟩ := Option.map_eq_some_iff.mp h.1
  rw [JsonText.parseValue_of_topMembers hms, hentries]
  rfl

theorem readRequest_in {d : RequestDoc} {body : Str} (h : d.In body) : ∃ req : JSONRPCRequest,
    readRequest body = d.id.json.toAny.map fun x => { req with id := x } := by
  obtain ⟨p, hp, hfst⟩ := Option.map_eq_some_iff.mp h.read
  obtain ⟨req, hreq⟩ := decodeRequest_json d
  refine ⟨req, ?_⟩
  rw [readRequest, hp, Option.bind_some, ← hreq, ← hfst]

/-- The reply is a response that answers the request. -/
def Reply.Answers (id : MessageID) : Reply → Prop
  | .response resp => Server.Answers id resp
  | _ => False

theorem streamable_answers {env : Env} {creds : Credentials} {readFails : Bool} {body : Str} {w : World}
    {who : Identity} (hwho : resolveAuth readFails (extractToken creds) w = some who) {d : RequestDoc}
    (hbody : d.In body) :
    (answerStreamable env creds readFails body w).reply.Answers d.id ↔ d.id.Kept := by
  obtain ⟨req, hreq⟩ := readRequest_in hbody
  rw [← is_decoded_iff]
  unfold answerStreamable
  rw [hwho, hreq]
  cases hid : d.id.json.toAny with
  | none =>
    simp only [Option.map_none, Posted.refuse, Reply.Answers, reduceCtorEq, false_and, exists_false]
  | some x =>
    simp only [Option.map_some, if_neg (json_ne_null d.id hid), Reply.Answers]
    rw [answers_handled]
    constructor
    · intro his
      exact ⟨x, rfl, his⟩
    · rintro ⟨x', ⟨rfl⟩, his⟩
      exact his

theorem messages_answers {env : Env} {sessionID : Str} {creds : Credentials} {body : Str} {w : World}
    {who : Identity} (hsession : lookup sessionID w.sessions =
      some ⟨who, Storage.DB.hashToken (extractToken creds)⟩) {d : RequestDoc} (hbody : d.In body) :
    (answerMessages env true sessionID creds body w).reply.Answers d.id ↔ d.id.Kept := by
  obtain ⟨req, hreq⟩ := readRequest_in hbody
  rw [← is_decoded_iff]
  unfold answerMessages
  rw [hsession, hreq]
  cases hid : d.id.json.toAny with
  | none =>
    simp [Posted.refuse, Reply.Answers]
  | some x =>
    simp only [Option.map_some, if_neg (json_ne_null d.id hid), Reply.Answers, Bool.not_true,
      Bool.false_eq_true, if_false, ne_eq, not_true_eq_false]
    rw [answers_handled]
    constructor
    · intro his
      exact ⟨x, rfl, his⟩
    · rintro ⟨x', ⟨rfl⟩, his⟩
      exact his

/-- Over stdio the loop writes a response, or ends. -/
theorem stdio_answers {env : Env} {envs : List Env} {who : Identity} {text : Str} {srv : MCPServer}
    {d : RequestDoc} (htext : d.In text) :
    (∃ resp calls rest, stdioLoop who (env :: envs) text srv = ⟨[resp], calls⟩ :: rest ∧
      Answers d.id resp) ↔ d.id.Kept := by
  obtain ⟨⟨v, rest⟩, hp, rfl⟩ := Option.map_eq_some_iff.mp htext.read
  obtain ⟨req, hreq⟩ := decodeRequest_json d
  rw [← is_decoded_iff, stdioLoop, decodeNext, hp, Option.bind_some]
  dsimp only at hreq ⊢
  rw [hreq]
  cases hid : d.id.json.toAny with
  | none => simp
  | some x =>
    simp only [Option.map_some, List.cons.injEq, Handled.mk.injEq, and_true]
    constructor
    · rintro ⟨resp, calls, more, ⟨⟨rfl, _⟩, _⟩, hans⟩
      exact ⟨x, rfl, (answers_handled ..).mp hans⟩
    · rintro ⟨x', ⟨rfl⟩, his⟩
      exact ⟨_, _, _, ⟨⟨rfl, rfl⟩, rfl⟩, (answers_handled ..).mpr his⟩

/-- Whichever transport takes the request, it is answered exactly when its id is a string of
paired surrogates or the shortest decimal of a double. -/
theorem answers_iff {d : RequestDoc} {text : Str} (hin : d.In text) :
    (∀ env creds readFails w who, resolveAuth readFails (extractToken creds) w = some who →
      ((answerStreamable env creds readFails text w).reply.Answers d.id ↔ d.id.Kept)) ∧
    (∀ env sessionID creds w who, lookup sessionID w.sessions =
        some ⟨who, Storage.DB.hashToken (extractToken creds)⟩ →
      ((answerMessages env true sessionID creds text w).reply.Answers d.id ↔ d.id.Kept)) ∧
    ∀ env envs who srv, (∃ resp calls rest,
      stdioLoop who (env :: envs) text srv = ⟨[resp], calls⟩ :: rest ∧ Answers d.id resp) ↔
        d.id.Kept :=
  ⟨fun _ _ _ _ _ hwho => streamable_answers hwho hin,
    fun _ _ _ _ _ hsession => messages_answers hsession hin, fun _ _ _ _ => stdio_answers hin⟩

/-- An integer of at most 53 bits is its own shortest decimal. -/
theorem kept_of_le {n : NumLit} {z : Int} (hz : z.natAbs ≤ 2 ^ 53) (hn : n.decimal = Decimal.ofInt z)
    (h : ∀ c ∈ n.text, c ≠ '.' ∧ c ≠ 'e' ∧ c ≠ 'E') : (MessageID.integer n h).Kept := by
  rw [MessageID.Kept, hn]
  exact toFloat64_ofInt hz

def pingDoc (id : MessageID) : RequestDoc where
  before := [("jsonrpc".toList, .str "2.0".toList)]
  id := id
  after := [("method".toList, .str "ping".toList)]
  others := by decide
  decodes := by decide

def sevenID : MessageID := .integer ⟨['7'], by decide⟩ (by decide)

def sevenText : Str := "\x7b\"jsonrpc\":\"2.0\",\"id\":7,\"method\":\"ping\"\x7d".toList

theorem answers_sevenText :
    (pingDoc sevenID).In sevenText ∧
      ∀ env envs who srv, ∃ resp calls rest,
        stdioLoop who (env :: envs) sevenText srv = ⟨[resp], calls⟩ :: rest ∧ Answers sevenID resp := by
  have hin : (pingDoc sevenID).In sevenText := by decide +kernel
  refine ⟨hin, ?_⟩
  intro env envs who srv
  exact ((answers_iff hin).2.2 env envs who srv).mpr (kept_of_le (z := 7) (by decide) (by decide) _)

/-- 2^53 + 1. -/
def wideID : MessageID := .integer ⟨"9007199254740993".toList, by decide⟩ (by decide)

def wideText : Str :=
  "\x7b\"jsonrpc\":\"2.0\",\"id\":9007199254740993,\"method\":\"ping\"\x7d".toList

/-- A high surrogate that has no partner. -/
def halfID : MessageID := .text ⟨"\\ud800".toList, [0xD800], by decide⟩

def halfText : Str :=
  "\x7b\"jsonrpc\":\"2.0\",\"id\":\"\\ud800\",\"method\":\"ping\"\x7d".toList

/-- An integer that a double does not have, and a surrogate that no string has. -/
theorem not_answers_lossyIDs :
    ((pingDoc wideID).In wideText ∧
      ∀ env envs who srv, ¬ ∃ resp calls rest,
        stdioLoop who (env :: envs) wideText srv = ⟨[resp], calls⟩ :: rest ∧ Answers wideID resp) ∧
    ((pingDoc halfID).In halfText ∧
      ∀ env envs who srv, ¬ ∃ resp calls rest,
        stdioLoop who (env :: envs) halfText srv = ⟨[resp], calls⟩ :: rest ∧ Answers halfID resp) := by
  have hwideIn : (pingDoc wideID).In wideText := by decide +kernel
  have hhalfIn : (pingDoc halfID).In halfText := by decide +kernel
  have hwide : ¬ wideID.Kept := by
    unfold wideID MessageID.Kept
    decide +kernel
  have hhalf : ¬ halfID.Kept := by
    unfold halfID MessageID.Kept JsonText.StringLit.Paired
    decide
  refine ⟨⟨hwideIn, ?_⟩, hhalfIn, ?_⟩
  · intro env envs who srv h
    exact hwide ((stdio_answers hwideIn).mp h)
  · intro env envs who srv h
    exact hhalf ((stdio_answers hhalfIn).mp h)

end Janus.Server
