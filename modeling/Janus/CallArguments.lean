import Janus.CallTarget
import Janus.Lib.JsonSame
import Janus.PathParams

/-!
# Where the arguments of a call go

Three comparisons with the stored method decide where the arguments of a call without a
template go: `GET` puts them into the query, `DELETE` drops them, and every other method,
the empty one among them, encodes the whole map as the body. An empty method is sent as
`GET`.
-/

namespace Janus.Gateway

set_option autoImplicit false

open Storage Vault

theorem nodup_queryParams (path : Str) (params : Params) {q : Url.Values}
    (h : (q.map Prod.fst).Nodup) : ((queryParams path params q).map Prod.fst).Nodup := by
  unfold queryParams
  induction params generalizing q with
  | nil => exact h
  | cons m params ih =>
    rw [List.foldl_cons]
    apply ih
    dsimp only
    split
    · exact h
    · exact nodup_setMember _ _ h

theorem lookup_queryParams_of_used {path k : Str} {params : Params} (h : placeholder k <:+: path)
    (q : Url.Values) : lookup k (queryParams path params q) = lookup k q := by
  unfold queryParams
  induction params generalizing q with
  | nil => rfl
  | cons m params ih =>
    obtain ⟨j, x⟩ := m
    rw [List.foldl_cons, ih]
    dsimp only
    split
    · rfl
    · rename_i hno
      have hne : k ≠ j := by
        rintro rfl
        exact hno ((Text.containsSub_iff _ _).mpr h)
      exact lookup_setMember_of_ne hne _ q

/-- The URL has the text of the argument as the one value of its name. -/
def InQuery (k : Str) (v : Json) (u : Url.URL) : Prop := Url.valuesOf u.rawQuery k = [v.formatV]

/-- The body is a JSON object that has the argument. -/
def InBody (k : Str) (v : Json) (body : Option Str) : Prop :=
  ∃ text ms w, body = some text ∧ JsonText.parse text = some (.obj ms) ∧ lookup k ms = some w ∧ v.Same w

/-- The path template does not name the argument. -/
def Unused (ep : APIEndpoint) (k : Str) : Prop := ¬ placeholder k <:+: ep.path

theorem inQuery_of_get {egress : EgressPolicy} {env : CallEnv} {conn : APIConnection}
    {ep : APIEndpoint} {params : Params} {req : Request} {checked created : Url.URL}
    (h : Assembled egress env conn ep params req checked created) (hget : ep.method = "GET".toList)
    {k : Str} {v : Json} (hv : lookup k params = some v) (hk : Unused ep k) :
    InQuery k v created := by
  unfold InQuery
  rw [h.query, withQuery, if_pos hget,
    Url.valuesOf_encode (nodup_queryParams _ _ (Url.nodup_parseQuery _)), lookup_queryParams hk hv]
  rfl

/-- The encoded argument map is an object with every argument. -/
theorem inBody_of_marshal {params : Params} (hd : (Json.obj params).Distinct) {k : Str} {v : Json}
    (hv : lookup k params = some v) : InBody k v (some (Json.marshal (.obj params))) := by
  obtain ⟨w, hw, hvw⟩ : ∃ w, lookup k (sortMembers (Json.sortedMembers params)) = some w ∧ v.Same w := by
    have hkeys : ((sortMembers (Json.sortedMembers params)).map Prod.fst).Nodup :=
      (((perm_sortMembers _).map Prod.fst).nodup_iff).mpr (by
        rw [Json.fst_sortedMembers]
        exact hd.1)
    have hmem := mem_of_lookup hv
    refine ⟨v.sorted, (lookup_eq_some_iff hkeys).mpr ?_, Json.same_sortedMembers params hd.2 _ hmem⟩
    exact mem_sortMembers.mpr (Json.mem_sortedMembers.mpr ⟨v, hmem, rfl⟩)
  exact ⟨_, _, w, rfl, JsonText.parse_compact _, hw, hvw⟩

theorem not_inBody_none {k : Str} {v : Json} : ¬ InBody k v none := by
  rintro ⟨_, _, _, h, _⟩
  cases h

/-- Every argument that the path does not name is carried with its value, a GET request
carries those in its query and has no body, and a body is a JSON object. -/
structure Carried (ep : APIEndpoint) (params : Params) (req : Request) (created : Url.URL) : Prop where
  kept : ∀ k v, lookup k params = some v → Unused ep k → InQuery k v created ∨ InBody k v req.body
  get : req.method = "GET".toList →
    req.body = none ∧ ∀ k v, lookup k params = some v → Unused ep k → InQuery k v created
  object : ∀ body, req.body = some body → ∃ ms, JsonText.parse body = some (.obj ms)

theorem requestMethod_eq {method sent : Str} (h : requestMethod method = some sent) :
    (method = [] ∧ sent = "GET".toList) ∨ (method ≠ [] ∧ sent = method) := by
  unfold requestMethod at h
  split at h
  · exact .inl ⟨‹_›, (Option.some.inj h).symm⟩
  · split at h
    · exact .inr ⟨‹_›, (Option.some.inj h).symm⟩
    · cases h

theorem renderBody_encoded {ep : APIEndpoint} {args : Option Params} (htemplate : ep.template = [])
    (hget : ep.method ≠ "GET".toList) (hdelete : ep.method ≠ "DELETE".toList) :
    renderBody ep args = some (Json.marshal ((args.map Json.obj).getD .null)) := by
  unfold renderBody
  rw [if_pos (Bool.and_eq_true_iff.mpr ⟨decide_eq_true hget, decide_eq_true hdelete⟩),
    if_neg (not_not.mpr htemplate)]

theorem renderBody_none {ep : APIEndpoint} {args : Option Params}
    (h : ep.method = "GET".toList ∨ ep.method = "DELETE".toList) : renderBody ep args = none := by
  unfold renderBody
  rw [if_neg]
  simp only [Bool.and_eq_true, decide_eq_true_eq, not_and_or, not_not]
  exact h

/-- The methods and arguments with which nothing is lost: the method is not empty, a DELETE
endpoint is called with arguments that its path names or its own query already has, and a
method with a body is called with an argument map. -/
structure Carries (conn : APIConnection) (ep : APIEndpoint) (args : Option Params) : Prop where
  named : ep.method ≠ []
  delete : ep.method = "DELETE".toList → ∀ k v, lookup k (args.getD []) = some v → Unused ep k →
    ∀ u, checkedURL conn ep (args.getD []) = some u → InQuery k v u
  present : ep.method ≠ "GET".toList → ep.method ≠ "DELETE".toList → args ≠ none

theorem argumentsCarried_iff {env : CallEnv} {vault : Provider} {conn : APIConnection} {ep : APIEndpoint}
    {args : Option Params} {c : Client} {req : Request} {created : Url.URL}
    (htemplate : ep.template = []) (hd : (Json.obj (args.getD [])).Distinct)
    (hsent : (executeCall env vault conn ep args c).request = some req)
    (hcreated : Url.parse req.url = some created) :
    Carried ep (args.getD []) req created ↔ Carries conn ep args := by
  obtain ⟨hmethod, hbody, checked, created', h⟩ := executeCall_assembled hsent
  obtain rfl : created = created' := Option.some.inj (hcreated.symm.trans h.reparsed)
  constructor
  · intro hc
    refine ⟨?_, ?_, ?_⟩
    · intro hempty
      obtain ⟨_, hsent'⟩ | ⟨hne, _⟩ := requestMethod_eq hmethod
      · have hnone := (hc.get hsent').1
        rw [hbody, renderBody_encoded htemplate (by rw [hempty]; decide) (by rw [hempty]; decide)]
          at hnone
        cases hnone
      · exact hne hempty
    · intro hdelete k v hv hk u hu
      obtain rfl := Option.some.inj (h.parsed.symm.trans hu)
      obtain hquery | hin := hc.kept k v hv hk
      · unfold InQuery at hquery ⊢
        rwa [h.query, withQuery, if_neg (by rw [hdelete]; decide)] at hquery
      · rw [hbody, renderBody_none (.inr hdelete)] at hin
        exact absurd hin not_inBody_none
    · intro hget hdelete hnone
      rw [hnone] at hbody
      obtain ⟨ms, hms⟩ := hc.object _ (hbody.trans (renderBody_encoded htemplate hget hdelete))
      have hnull : JsonText.parse (Json.marshal .null) = some .null := JsonText.parse_compact .null
      rw [Option.map_none, Option.getD_none, hnull] at hms
      cases hms
  · intro hc
    by_cases hget : ep.method = "GET".toList
    · have hnone : req.body = none := hbody.trans (renderBody_none (.inl hget))
      have hquery (k : Str) (v : Json) (hv : lookup k (args.getD []) = some v) (hk : Unused ep k) :=
        inQuery_of_get h hget hv hk
      refine ⟨fun k v hv hk => .inl (hquery k v hv hk), fun _ => ⟨hnone, hquery⟩, ?_⟩
      intro body hb
      rw [hnone] at hb
      cases hb
    · have hother : req.method ≠ "GET".toList := by
        obtain ⟨hempty, _⟩ | ⟨_, hsame⟩ := requestMethod_eq hmethod
        · exact absurd hempty hc.named
        · rw [hsame]
          exact hget
      by_cases hdelete : ep.method = "DELETE".toList
      · have hnone : req.body = none := hbody.trans (renderBody_none (.inr hdelete))
        refine ⟨fun k v hv hk => .inl ?_, fun hwire => absurd hwire hother, ?_⟩
        · unfold InQuery
          rw [h.query, withQuery, if_neg hget]
          exact hc.delete hdelete k v hv hk checked h.parsed
        · intro body hb
          rw [hnone] at hb
          cases hb
      · obtain ⟨params, rfl⟩ := Option.ne_none_iff_exists'.mp (hc.present hget hdelete)
        have hencoded := hbody.trans (renderBody_encoded htemplate hget hdelete)
        refine ⟨fun k v hv _ => .inr ?_, fun hwire => absurd hwire hother, ?_⟩
        · rw [hencoded]
          exact inBody_of_marshal hd hv
        · intro body hb
          rw [hencoded] at hb
          cases hb
          exact ⟨_, JsonText.parse_compact _⟩

def userEndpoint (method : Str) : APIEndpoint :=
  ⟨['e'], ['c'], ['u'], [], "/u".toList, method, [], [], [], 1⟩

def userArgs : Params := [(['k'], .str ['v'])]

def userURL : Url.URL :=
  { Url.empty with scheme := "https".toList, host := "api.io:".toList, path := [47, 118, 49, 47, 117] }

def userRequest (method : Str) (body : Option Str) : Request :=
  ⟨method, "https://api.io:/v1/u".toList, body, .none⟩

theorem userURL_parsed : Url.parse "https://api.io:/v1/u".toList = some userURL := by
  decide +kernel

theorem request_put :
    (executeCall apiEnv (.local []) apiConn (userEndpoint "PUT".toList) (some userArgs)
      apiClient).request = some (userRequest "PUT".toList (some "\x7b\"k\":\"v\"\x7d".toList)) := by
  decide +kernel

theorem carried_put :
    Carried (userEndpoint "PUT".toList) userArgs
      (userRequest "PUT".toList (some "\x7b\"k\":\"v\"\x7d".toList)) userURL := by
  have hd : (Json.obj ((some userArgs).getD [])).Distinct := ⟨by decide, trivial, trivial⟩
  have hcarries : Carries apiConn (userEndpoint "PUT".toList) (some userArgs) :=
    ⟨by decide, fun h => absurd h (by decide), fun _ _ h => by cases h⟩
  exact (argumentsCarried_iff rfl hd request_put userURL_parsed).mpr hcarries

/-- An empty method is sent as a GET request with a body and without a query, DELETE loses the
argument, and PUT without an argument map sends a body that is not an object. -/
theorem not_carried :
    ((executeCall apiEnv (.local []) apiConn (userEndpoint []) (some userArgs) apiClient).request =
        some (userRequest "GET".toList (some "\x7b\"k\":\"v\"\x7d".toList)) ∧
      ¬ Carried (userEndpoint []) userArgs
        (userRequest "GET".toList (some "\x7b\"k\":\"v\"\x7d".toList)) userURL) ∧
    ((executeCall apiEnv (.local []) apiConn (userEndpoint "DELETE".toList) (some userArgs)
        apiClient).request = some (userRequest "DELETE".toList none) ∧
      ¬ Carried (userEndpoint "DELETE".toList) userArgs (userRequest "DELETE".toList none) userURL) ∧
    ((executeCall apiEnv (.local []) apiConn (userEndpoint "PUT".toList) none apiClient).request =
        some (userRequest "PUT".toList (some "null".toList)) ∧
      ¬ Carried (userEndpoint "PUT".toList) [] (userRequest "PUT".toList (some "null".toList))
        userURL) := by
  have hunused (method : Str) : Unused (userEndpoint method) ['k'] := by
    rw [Unused, ← Text.containsSub_iff]
    exact Bool.eq_false_iff.mp rfl
  refine ⟨⟨by decide +kernel, ?_⟩, ⟨by decide +kernel, ?_⟩, by decide +kernel, ?_⟩
  · intro h
    exact absurd (h.get rfl).1 (by decide)
  · intro h
    obtain hquery | hbody := h.kept ['k'] (.str ['v']) rfl (hunused _)
    · exact absurd hquery (by unfold InQuery; decide +kernel)
    · exact not_inBody_none hbody
  · intro h
    obtain ⟨ms, hms⟩ := h.object _ rfl
    have hnull : JsonText.parse "null".toList = some .null := by decide +kernel
    rw [hnull] at hms
    cases hms

end Janus.Gateway
