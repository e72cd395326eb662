import Janus.BodyInjection
import Janus.CallQuery
import Janus.Lib.Shares

/-!
# The order of the arguments

An argument map has no order, and each of the three loops over it takes one of its own:
the path and a body template are rendered argument by argument in the text that the
arguments before have left, and a GET request takes the further arguments into its query.
The query is the same in every order. So are the path and the body where the template can be
shared out such that no replacement, in any order, meets anything beyond the shares of its own
argument; one argument alone has all of it.
-/

namespace Janus.Gateway

set_option autoImplicit false

open Storage Vault

/-- Every order of the arguments gives the same path, the same query for it, and the same
body. -/
structure OrderFree (ep : APIEndpoint) (params : Params) : Prop where
  path : ∀ order : Params, order.Perm params → renderPath ep.path order = renderPath ep.path params
  query : ∀ order : Params, order.Perm params → ∀ u, withQuery ep order u = withQuery ep params u
  body : ∀ order : Params, order.Perm params → renderBody ep (some order) = renderBody ep (some params)

/-- The body is rendered from the template. -/
def RendersBody (ep : APIEndpoint) : Prop :=
  ep.method ≠ "GET".toList ∧ ep.method ≠ "DELETE".toList ∧ ep.template ≠ []

/-- The replacements that put an argument into a path. -/
def pathPasses (k : Str) (v : Json) : List (Str × Str) := [(placeholder k, Url.pathEscape v.formatV)]

/-- The replacements that put an argument into a body template. -/
def bodyPasses (k : Str) (v : Json) : List (Str × Str) :=
  [('"' :: placeholder k ++ ['"'], v.marshal), (placeholder k, Text.trim (· = '"') v.marshal)]

/-- Path and template can be shared out among the arguments such that in every order of these
each replacement meets own text and nothing else: what its argument has of the template, with
what it has put there. -/
structure NeverCaptured (ep : APIEndpoint) (params : Params) : Prop where
  path : ∃ shares, ep.path = Text.whole shares ∧
    ∀ order : Params, order.Perm params → Text.EachConfined pathPasses order shares
  body : RendersBody ep → ∃ shares, ep.template = Text.whole shares ∧
    ∀ order : Params, order.Perm params → Text.EachConfined bodyPasses order shares

/-- The values of a query are those of its names. -/
theorem sortMembers_of_lookup {α : Type} {vs ws : List (Str × α)} (hv : (vs.map Prod.fst).Nodup)
    (hw : (ws.map Prod.fst).Nodup) (h : ∀ k, lookup k vs = lookup k ws) :
    sortMembers vs = sortMembers ws := by
  apply (sortMembers_eq_iff hv hw).mpr
  rintro ⟨k, x⟩
  rw [← lookup_eq_some_iff hv, h, lookup_eq_some_iff hw]

theorem withQuery_perm {ep : APIEndpoint} {order params : Params} (hnodup : (params.map Prod.fst).Nodup)
    (h : order.Perm params) (u : Url.URL) : withQuery ep order u = withQuery ep params u := by
  have hlookup (k : Str) : lookup k order = lookup k params := lookup_perm k hnodup h.symm
  have hq := Url.nodup_parseQuery u.rawQuery
  have hsort : sortMembers (queryParams ep.path order (Url.parseQuery u.rawQuery)) =
      sortMembers (queryParams ep.path params (Url.parseQuery u.rawQuery)) := by
    apply sortMembers_of_lookup (nodup_queryParams _ _ hq) (nodup_queryParams _ _ hq)
    intro k
    by_cases hpath : placeholder k <:+: ep.path
    · rw [lookup_queryParams_of_used hpath, lookup_queryParams_of_used hpath]
    · cases hv : lookup k params with
      | none =>
        rw [lookup_queryParams_of_none hv, lookup_queryParams_of_none ((hlookup k).trans hv)]
      | some v => rw [lookup_queryParams hpath hv, lookup_queryParams hpath ((hlookup k).trans hv)]
  unfold withQuery Url.Values.encode
  rw [hsort]

theorem fillPieces_congr {a b : Params} (h : ∀ k, lookup k a = lookup k b) (pieces : List PathPiece) :
    fillPieces a pieces = fillPieces b pieces := by
  refine List.flatMap_congr fun p _ => ?_
  cases p with
  | text s => rfl
  | hole k => rw [PathPiece.fill, PathPiece.fill, h]

theorem renderPath_of_uncaptured {pieces : List PathPiece} {order params : Params}
    (hnodup : (params.map Prod.fst).Nodup) (hperm : order.Perm params) (h : Uncaptured pieces [] order) :
    renderPath (fillPieces [] pieces) order = fillPieces params pieces := by
  have hnodup' : (order.map Prod.fst).Nodup := (hperm.map Prod.fst).nodup_iff.mpr hnodup
  rw [renderPath_fillPieces hnodup' (fun _ _ => rfl) h, List.nil_append]
  exact fillPieces_congr (fun k => lookup_perm k hnodup hperm.symm) pieces

/-- A template that is read in one way is rendered alike in every order, as long as no
argument name has a brace in it. -/
theorem renderPath_perm_of_readable {pieces : List PathPiece} (h : Readable pieces) {order params : Params}
    (hnodup : (params.map Prod.fst).Nodup) (hnames : ∀ m ∈ params, NameOnly m.1)
    (hperm : order.Perm params) :
    renderPath (fillPieces [] pieces) order = renderPath (fillPieces [] pieces) params := by
  have huncaptured (todo : Params) (hp : todo.Perm params) : Uncaptured pieces [] todo := by
    refine uncaptured_of_readable h ((hp.map Prod.fst).nodup_iff.mpr hnodup) (fun _ _ => rfl) ?_
    intro before k v after hsplit
    refine .inl (hnames (k, v) (hp.mem_iff.mp ?_))
    rw [hsplit]
    simp
  rw [renderPath_of_uncaptured hnodup hperm (huncaptured order hperm),
    renderPath_of_uncaptured hnodup (List.Perm.refl _) (huncaptured params (List.Perm.refl _))]

theorem renderPath_confined {shares : List Text.Share} {order params : Params}
    (hnodup : (params.map Prod.fst).Nodup) (hperm : order.Perm params)
    (h : Text.EachConfined pathPasses order shares) :
    renderPath (Text.whole shares) order = shares.flatMap (Text.Share.filled pathPasses params) := by
  refine Text.foldl_whole_perm ?_ hnodup hperm h
  intro k v p hp
  rw [List.mem_singleton.mp hp]
  exact List.cons_ne_nil _ _

theorem renderTemplate_confined {shares : List Text.Share} {order params : Params}
    (hnodup : (params.map Prod.fst).Nodup) (hperm : order.Perm params)
    (h : Text.EachConfined bodyPasses order shares) :
    renderTemplate (Text.whole shares) order = shares.flatMap (Text.Share.filled bodyPasses params) := by
  refine Text.foldl_whole_perm ?_ hnodup hperm h
  intro k v p hp
  obtain rfl | hp := List.mem_cons.mp hp
  · exact List.cons_ne_nil _ _
  · rw [List.mem_singleton.mp hp]
    exact List.cons_ne_nil _ _

/-- An argument that is alone captures nothing. -/
theorem neverCaptured_alone (ep : APIEndpoint) {params : Params} (h : params.length ≤ 1) :
    NeverCaptured ep params := by
  have hshares (passes : Str → Json → List (Str × Str)) (s : Str) : ∃ shares, s = Text.whole shares ∧
      ∀ order : Params, order.Perm params → Text.EachConfined passes order shares := by
    cases params with
    | nil =>
      refine ⟨[⟨none, s⟩], (Text.whole_singleton ⟨none, s⟩).symm, ?_⟩
      intro order hperm
      rw [List.perm_nil.mp hperm]
      trivial
    | cons m params =>
      obtain rfl : params = [] := List.length_eq_zero_iff.mp (Nat.le_zero.mp (Nat.le_of_succ_le_succ h))
      refine ⟨[⟨some m.1, s⟩], (Text.whole_singleton ⟨some m.1, s⟩).symm, ?_⟩
      intro order hperm
      rw [List.perm_singleton.mp hperm]
      exact Text.eachConfined_alone m s
  exact ⟨hshares pathPasses ep.path, fun _ => hshares bodyPasses ep.template⟩

theorem marshal_perm {order params : Params} (hnodup : (params.map Prod.fst).Nodup)
    (hperm : order.Perm params) : Json.marshal (.obj order) = Json.marshal (.obj params) := by
  have hsort : sortMembers (Json.sortedMembers order) = sortMembers (Json.sortedMembers params) := by
    have hnodup' : (order.map Prod.fst).Nodup := (hperm.map Prod.fst).nodup_iff.mpr hnodup
    apply (sortMembers_eq_iff (by rwa [Json.fst_sortedMembers]) (by rwa [Json.fst_sortedMembers])).mpr
    rintro ⟨k, z⟩
    rw [Json.mem_sortedMembers, Json.mem_sortedMembers]
    simp only [hperm.mem_iff]
  unfold Json.marshal
  rw [Json.sorted, Json.sorted, hsort]

theorem renderBody_template {ep : APIEndpoint} (h : RendersBody ep) (order : Params) :
    renderBody ep (some order) = some (renderTemplate ep.template order) := by
  have hmethod : (decide (ep.method ≠ "GET".toList) && decide (ep.method ≠ "DELETE".toList)) = true :=
    Bool.and_eq_true_iff.mpr ⟨decide_eq_true h.1, decide_eq_true h.2.1⟩
  rw [renderBody, if_pos hmethod, if_pos h.2.2, Option.getD_some]

/-- A body that no template is rendered for is the same in every order. -/
theorem renderBody_perm {ep : APIEndpoint} (h : ¬ RendersBody ep) {order params : Params}
    (hnodup : (params.map Prod.fst).Nodup) (hperm : order.Perm params) :
    renderBody ep (some order) = renderBody ep (some params) := by
  unfold renderBody
  split
  · rename_i hmethod
    simp only [Bool.and_eq_true, decide_eq_true_eq] at hmethod
    have htemplate : ¬ ep.template ≠ [] := fun hne => h ⟨hmethod.1, hmethod.2, hne⟩
    rw [if_neg htemplate, if_neg htemplate, Option.map_some, Option.map_some, Option.getD_some,
      Option.getD_some, marshal_perm hnodup hperm]
  · rfl

theorem orderFree_of_neverCaptured {ep : APIEndpoint} {params : Params}
    (hnodup : (params.map Prod.fst).Nodup) (h : NeverCaptured ep params) : OrderFree ep params where
  path := by
    intro order hperm
    obtain ⟨shares, hpath, hconfined⟩ := h.path
    rw [hpath, renderPath_confined hnodup hperm (hconfined order hperm),
      renderPath_confined hnodup (List.Perm.refl _) (hconfined params (List.Perm.refl _))]
  query := fun _ hperm u => withQuery_perm hnodup hperm u
  body := by
    intro order hperm
    by_cases hbody : RendersBody ep
    · obtain ⟨shares, htemplate, hconfined⟩ := h.body hbody
      rw [renderBody_template hbody, renderBody_template hbody, htemplate,
        renderTemplate_confined hnodup hperm (hconfined order hperm),
        renderTemplate_confined hnodup (List.Perm.refl _) (hconfined params (List.Perm.refl _))]
    · exact renderBody_perm hbody hnodup hperm

/-- A call does the same in every order of its arguments. -/
theorem executeCall_orderFree {ep : APIEndpoint} {order params : Params} (h : OrderFree ep params)
    (hperm : order.Perm params) (env : CallEnv) (vault : Provider) (conn : APIConnection) (c : Client) :
    executeCall env vault conn ep (some order) c = executeCall env vault conn ep (some params) c := by
  have hurl : resolveURL c.egress env conn ep order = resolveURL c.egress env conn ep params := by
    unfold resolveURL
    simp only [h.path order hperm, h.query order hperm]
  have hfetch (u : Url.URL) :
      fetch env vault conn ep (some order) u c = fetch env vault conn ep (some params) u c := by
    unfold fetch newRequest
    simp only [h.body order hperm]
  unfold executeCall
  simp only [Option.getD_some, hurl, hfetch]

/-- Where no replacement meets more than its own text in any order, all orders give the same path, query
and body, and so the same call. -/
theorem orderFree_calls {ep : APIEndpoint} {params : Params} (hnodup : (params.map Prod.fst).Nodup)
    (h : NeverCaptured ep params) :
    OrderFree ep params ∧ ∀ order : Params, order.Perm params → ∀ env vault conn c,
      executeCall env vault conn ep (some order) c = executeCall env vault conn ep (some params) c :=
  ⟨orderFree_of_neverCaptured hnodup h, fun _ hperm env vault conn c =>
    executeCall_orderFree (orderFree_of_neverCaptured hnodup h) hperm env vault conn c⟩

theorem perm_pair {α : Type} {a b : α} {l : List α} (h : l.Perm [a, b]) : l = [a, b] ∨ l = [b, a] := by
  obtain ⟨c, d, rfl⟩ := List.length_eq_two.mp h.length_eq
  have hc : c = a ∨ c = b := by simpa using h.mem_iff.mp List.mem_cons_self
  obtain rfl | rfl := hc
  · have hrest := List.perm_singleton.mp ((List.perm_cons c).mp h)
    exact .inl (by rw [hrest])
  · have hrest := List.perm_singleton.mp ((List.perm_cons c).mp (h.trans (List.Perm.swap c a [])))
    exact .inr (by rw [hrest])

def pairEndpoint (path template : Str) : APIEndpoint :=
  ⟨['e'], ['c'], ['p'], [], path, "POST".toList, [], template, [], 1⟩

def pairTemplate : Str :=
  "\x7b\"a\":\"\x7b\x7bx\x7d\x7d\",\"b\":\"\x7b\x7by\x7d\x7d\"\x7d".toList

def pairShares : List Text.Share :=
  [⟨none, "\x7b\"a\":".toList⟩, ⟨some ['x'], "\"\x7b\x7bx\x7d\x7d\"".toList⟩, ⟨none, ",\"b\":".toList⟩,
    ⟨some ['y'], "\"\x7b\x7by\x7d\x7d\"".toList⟩, ⟨none, ['}']⟩]

def pairPath : List Text.Share := [⟨none, "/n/".toList⟩, ⟨some ['x'], placeholder ['x']⟩]

def pairArgs (x y : Str) : Params := [(['x'], .str x), (['y'], .str y)]

/-- A value may name its own argument. -/
theorem neverCaptured_pair :
    NeverCaptured (pairEndpoint (Text.whole pairPath) pairTemplate) (pairArgs (placeholder ['x']) ['2']) where
  path := by
    refine ⟨pairPath, rfl, fun order hperm => ?_⟩
    obtain rfl | rfl := perm_pair hperm
    · decide
    · decide
  body := by
    refine fun _ => ⟨pairShares, by decide, fun order hperm => ?_⟩
    obtain rfl | rfl := perm_pair hperm
    · decide
    · decide

theorem orderFree_pair :
    OrderFree (pairEndpoint (Text.whole pairPath) pairTemplate) (pairArgs (placeholder ['x']) ['2']) :=
  (orderFree_calls (by decide) neverCaptured_pair).1

def pairRequest (url body : Str) : Request := ⟨"POST".toList, url, some body, .none⟩

/-- A value that names the other argument is filled again in one order only, and so is a
placeholder that an empty value leaves behind in the path. -/
theorem not_orderFree :
    ((executeCall apiEnv (.local []) petsConn (pairEndpoint "/n".toList pairTemplate)
          (some (pairArgs "\x7b\x7by\x7d\x7d".toList ['1'])) apiClient).request =
        some (pairRequest "http://h/v1/n".toList "\x7b\"a\":\"1\",\"b\":\"1\"\x7d".toList) ∧
      (executeCall apiEnv (.local []) petsConn (pairEndpoint "/n".toList pairTemplate)
          (some (pairArgs "\x7b\x7by\x7d\x7d".toList ['1']).reverse) apiClient).request =
        some (pairRequest "http://h/v1/n".toList
          "\x7b\"a\":\"\x7b\x7by\x7d\x7d\",\"b\":\"1\"\x7d".toList) ∧
      ¬ OrderFree (pairEndpoint "/n".toList pairTemplate)
        (pairArgs "\x7b\x7by\x7d\x7d".toList ['1'])) ∧
    ((executeCall apiEnv (.local []) petsConn
          (pairEndpoint "/\x7b\x7b\x7bx\x7d\x7d\x7by\x7d\x7d".toList ['n'])
          (some (pairArgs [] ['1'])) apiClient).request =
        some (pairRequest "http://h/v1/1".toList ['n']) ∧
      (executeCall apiEnv (.local []) petsConn
          (pairEndpoint "/\x7b\x7b\x7bx\x7d\x7d\x7by\x7d\x7d".toList ['n'])
          (some (pairArgs [] ['1']).reverse) apiClient).request =
        some (pairRequest "http://h/v1/%7B%7By%7D%7D".toList ['n']) ∧
      ¬ OrderFree (pairEndpoint "/\x7b\x7b\x7bx\x7d\x7d\x7by\x7d\x7d".toList ['n'])
        (pairArgs [] ['1'])) := by
  refine ⟨⟨by decide +kernel, by decide +kernel, fun h => ?_⟩, by decide +kernel, by decide +kernel,
    fun h => ?_⟩
  · exact absurd (h.body _ (List.reverse_perm _)) (by decide +kernel)
  · exact absurd (h.path _ (List.reverse_perm _)) (by decide +kernel)

end Janus.Gateway
