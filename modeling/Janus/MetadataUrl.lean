import Janus.CallPath
import Janus.Lib.UrlRequest
import Janus.OAuthValidator

/-!
# Where the resource metadata is advertised

Embedding of `ChallengeHeader` of `pkg/oauth` beside the route that `main.go` registers.
The header leads a client to the route from a resource at the root of its origin
(`discoverable_iff`).
-/

namespace Janus.OAuth

set_option autoImplicit false

/-- The pattern of the metadata handler. -/
def metadataRoute : Str := "/.well-known/oauth-protected-resource".toList

def metadataURL (c : Config) : Str := Text.trimSuffix c.resourceURI ['/'] ++ metadataRoute

def challengeHeader (c : Config) (errCode : Str) : Str :=
  if errCode = [] then "Bearer resource_metadata=".toList ++ Text.quote (metadataURL c)
  else
    "Bearer resource_metadata=".toList ++ Text.quote (metadataURL c) ++
      (", error=".toList ++ Text.quote errCode)

/-- The text of a quoted string, from behind its first quote. -/
def readQuoted : Str → Str
  | [] => []
  | '"' :: _ => []
  | '\\' :: c :: s => c :: readQuoted s
  | c :: s => c :: readQuoted s

def resourceMetadata (header : Str) : Option Str :=
  if Text.hasPrefix header "Bearer resource_metadata=\"".toList then
    some (readQuoted (header.drop "Bearer resource_metadata=\"".toList.length))
  else none

/-- The URL of the header can be parsed, and its path is the route. -/
def Discoverable (c : Config) (errCode : Str) : Prop :=
  ∃ url v, resourceMetadata (challengeHeader c errCode) = some url ∧ Url.parse url = some v ∧
    v.path = Text.bytes metadataRoute

theorem readQuoted_quoteChar {c : Char} (hc : Url.isControl c = false) (s : Str) :
    readQuoted (Text.quoteChar c ++ s) = c :: readQuoted s := by
  simp only [Url.isControl, Bool.or_eq_false_iff, decide_eq_false_iff_not] at hc
  unfold Text.quoteChar
  dsimp only
  by_cases hq : c = '"'
  · subst hq
    rfl
  by_cases hb : c = '\\'
  · subst hb
    rfl
  rw [if_neg hq, if_neg hb, if_neg (by omega), if_neg (by omega), if_neg (by omega), if_neg (by omega),
    if_neg (by omega), if_neg (by omega), if_neg (by omega), if_neg (by simp; omega)]
  rw [List.singleton_append, readQuoted]
  · intro he
    exact hq he
  · intro _ _ he
    exact absurd he hb

/-- A text without control characters is read back from its quoted form. -/
theorem readQuoted_quote {s : Str} (hs : s.any Url.isControl = false) (rest : Str) :
    readQuoted (s.flatMap Text.quoteChar ++ '"' :: rest) = s := by
  induction s with
  | nil => rfl
  | cons c s ih =>
    rw [List.any_cons, Bool.or_eq_false_iff] at hs
    rw [List.flatMap_cons, List.append_assoc, readQuoted_quoteChar hs.1, ih hs.2]

theorem resourceMetadata_challengeHeader {c : Config} (hc : (metadataURL c).any Url.isControl = false)
    (errCode : Str) : resourceMetadata (challengeHeader c errCode) = some (metadataURL c) := by
  obtain ⟨rest, hrest⟩ : ∃ rest, challengeHeader c errCode =
      "Bearer resource_metadata=\"".toList ++ ((metadataURL c).flatMap Text.quoteChar ++ '"' :: rest) := by
    unfold challengeHeader
    split
    · exact ⟨[], by simp [Text.quote]⟩
    · exact ⟨_, by simp [Text.quote]; rfl⟩
  have hpre : Text.hasPrefix (challengeHeader c errCode) "Bearer resource_metadata=\"".toList = true := by
    rw [Text.hasPrefix, hrest]
    exact List.isPrefixOf_iff_prefix.mpr (List.prefix_append _ _)
  rw [resourceMetadata, if_pos hpre, hrest, List.drop_left, readQuoted_quote hc]

theorem metadataURL_eq (c : Config) : metadataURL c = Gateway.joinURL c.resourceURI metadataRoute := by
  have htrim : Text.trimPrefix metadataRoute ['/'] = metadataRoute.tail := by decide
  rw [Gateway.joinURL, htrim]
  rfl

/-- A text that ends in a slash can be decoded without it. -/
theorem unescape_before_slash {s : Str} {bs : List Nat} (h : Url.unescape .path (s ++ ['/']) = some bs) :
    ∃ as, Url.unescape .path s = some as := by
  induction hn : s.length using Nat.strong_induction_on generalizing s bs with
  | h n ih =>
    match s with
    | [] => exact ⟨[], rfl⟩
    | c :: s =>
      by_cases hc : c = '%'
      · subst hc
        match s with
        | [] => cases h
        | [x] =>
          rw [List.cons_append, List.singleton_append, Url.unescape] at h
          have hslash : Url.unhex '/' = none := by decide
          rw [hslash] at h
          cases hx : Url.unhex x <;> rw [hx] at h <;> cases h
        | x :: y :: s =>
          rw [List.cons_append, List.cons_append, List.cons_append] at h
          cases hx : Url.unhex x with
          | none => rw [Url.unescape, hx] at h; cases h
          | some m =>
            cases hy : Url.unhex y with
            | none => rw [Url.unescape, hx, hy] at h; cases h
            | some n' =>
              rw [Url.unescape_encoded hx hy] at h
              obtain ⟨r, hr, _⟩ := Option.map_eq_some_iff.mp h
              obtain ⟨as, has⟩ := ih s.length (by rw [← hn]; simp; omega) hr rfl
              exact ⟨_, by rw [Url.unescape_encoded hx hy, has]; rfl⟩
      · rw [List.cons_append, Url.unescape_bare hc] at h
        obtain ⟨r, hr, _⟩ := Option.map_eq_some_iff.mp h
        obtain ⟨as, has⟩ := ih s.length (by rw [← hn]; simp) hr rfl
        exact ⟨_, by rw [Url.unescape_bare hc, has]; rfl⟩

theorem unescape_eq_nil {s : Str} (h : Url.unescape .path s = some []) : s = [] := by
  match s with
  | [] => rfl
  | c :: s =>
    have hutf : Text.utf8 c ≠ [] := by
      unfold Text.utf8
      dsimp only
      split_ifs <;> simp
    by_cases hc : c = '%'
    · subst hc
      match s with
      | [] => cases h
      | [x] => cases h
      | x :: y :: s =>
        cases hx : Url.unhex x with
        | none => rw [Url.unescape, hx] at h; cases h
        | some m =>
          cases hy : Url.unhex y with
          | none => rw [Url.unescape, hx, hy] at h; cases h
          | some n =>
            rw [Url.unescape_encoded hx hy] at h
            obtain ⟨_, _, he⟩ := Option.map_eq_some_iff.mp h
            cases he
    · rw [Url.unescape_bare hc] at h
      obtain ⟨_, _, he⟩ := Option.map_eq_some_iff.mp h
      exact absurd (List.append_eq_nil_iff.mp he).1 hutf

theorem unescape_metadataRoute : Url.unescape .path metadataRoute = some (Text.bytes metadataRoute) := by
  decide +kernel

/-- The resource stands at the root of its origin, or has the path of the route and a query. -/
def LeadsToRoute (r : Str) (u : Url.URL) : Prop :=
  if '?' ∈ r then u.path = Text.bytes metadataRoute else u.path = [] ∨ u.path = [0x2F]

/-- What is left of the path without its last slash. -/
theorem trimmed_root {p : Url.Parts} {u : Url.URL} (hread : Url.ReadFrom p u) {as : List Nat}
    (has : Url.unescape .path (Text.trimSuffix p.path ['/']) = some as) :
    as = [] ↔ u.path = [] ∨ u.path = [0x2F] := by
  constructor
  · rintro rfl
    have htrim := unescape_eq_nil has
    have hpath := hread.path
    rcases Text.trimSuffix_cases p.path '/' with he | he
    · rw [← he, htrim] at hpath
      exact .inl (Option.some.inj hpath).symm
    · rw [he, htrim] at hpath
      exact .inr (Option.some.inj hpath).symm
  · intro h
    rcases hread.path_cases with ⟨hp, _⟩ | ⟨t, bs, hp, hu⟩
    · rw [hp, Text.trimSuffix_nil] at has
      exact (Option.some.inj has).symm
    · rw [hu] at h
      obtain rfl : bs = [] := by simpa using h
      have hpath := hread.path
      rw [hp, hu, Url.unescape_bare (by decide)] at hpath
      obtain ⟨ts, ht, hts⟩ := Option.map_eq_some_iff.mp hpath
      obtain rfl : ts = [] := @List.append_cancel_left _ [0x2F] _ _ hts
      obtain rfl := unescape_eq_nil ht
      rw [hp] at has
      exact (Option.some.inj has).symm

theorem any_isControl_joinURL {p : Url.Parts} (hctl : p.text.any Url.isControl = false) :
    (Gateway.joinURL p.text metadataRoute).any Url.isControl = false := by
  have htrim : Text.trimPrefix metadataRoute ['/'] = metadataRoute.tail := by decide
  rw [List.any_eq_false] at hctl ⊢
  intro c hc
  unfold Gateway.joinURL at hc
  rw [htrim] at hc
  rcases List.mem_append.mp hc with hc | hc
  · apply hctl
    unfold Text.trimSuffix at hc
    split at hc
    · exact List.mem_of_mem_take hc
    · exact hc
  · have hroute : ∀ c ∈ '/' :: metadataRoute.tail, ¬ Url.isControl c = true := by decide
    exact hroute c hc

section Advertised

variable {p : Url.Parts} {u : Url.URL} (hread : Url.ReadFrom p u) (hauth : p.authority ≠ [])
  (hfrag : p.fragment = none) (hctl : p.text.any Url.isControl = false)
include hread hauth hfrag hctl

/-- Without a query the route is appended to the path. -/
theorem path_advertised_bare (hq : p.query = none) :
    (∃ v, Url.parse (Gateway.joinURL p.text metadataRoute) = some v ∧
      v.path = Text.bytes metadataRoute) ↔ u.path = [] ∨ u.path = [0x2F] := by
  have hctl' := any_isControl_joinURL hctl
  obtain ⟨p', htext, hpath, _, hfrag', hauth'⟩ : ∃ p' : Url.Parts,
      Gateway.joinURL p.text (metadataRoute ++ Url.optionText '?' none) = p'.text ∧
      p'.path = Text.trimSuffix p.path ['/'] ++ '/' :: Text.trimPrefix metadataRoute ['/'] ∧
      p'.query = none ∧ p'.fragment = none ∧ p'.authority = p.authority :=
    Gateway.joinURL_bare hauth hq hfrag (by decide) (by decide) (fun _ hq' => by cases hq')
  have hroute : '/' :: Text.trimPrefix metadataRoute ['/'] = metadataRoute := by decide
  have hnone : Url.optionText '?' none = [] := rfl
  rw [hnone, List.append_nil] at htext
  rw [hroute] at hpath
  rw [htext] at hctl' ⊢
  obtain ⟨as, has⟩ : ∃ as, Url.unescape .path (Text.trimSuffix p.path ['/']) = some as := by
    rcases Text.trimSuffix_cases p.path '/' with he | he
    · exact ⟨u.path, by rw [he, hread.path]⟩
    · exact unescape_before_slash (he ▸ hread.path)
  have hdecoded : Url.unescape .path p'.path = some (as ++ Text.bytes metadataRoute) := by
    rw [hpath, Url.unescape_append has, unescape_metadataRoute, Option.map_some]
  obtain ⟨v, hv, hvpath⟩ := Url.exists_parse hfrag' hctl' (hauth'.symm ▸ hread.authority) hdecoded
  have hnil : as = [] ↔ u.path = [] ∨ u.path = [0x2F] := trimmed_root hread has
  rw [← hnil]
  constructor
  · rintro ⟨w, hw, hwpath⟩
    rw [hv] at hw
    cases hw
    rw [hvpath] at hwpath
    simpa using hwpath
  · rintro rfl
    exact ⟨v, hv, hvpath⟩

/-- With a query the route is appended to the query. -/
theorem path_advertised_query {q : Str} (hq : p.query = some q) :
    (∃ v, Url.parse (Gateway.joinURL p.text metadataRoute) = some v ∧
      v.path = Text.bytes metadataRoute) ↔ u.path = Text.bytes metadataRoute := by
  have hctl' := any_isControl_joinURL hctl
  obtain ⟨q', hq', hpre⟩ : ∃ q', Text.trimSuffix ('?' :: q) ['/'] = '?' :: q' ∧ ∀ c ∈ q', c ∈ q := by
    rcases Text.trimSuffix_cases ('?' :: q) '/' with he | he
    · exact ⟨q, he, fun _ hc => hc⟩
    · cases ht : Text.trimSuffix ('?' :: q) ['/'] with
      | nil =>
        rw [ht] at he
        cases he
      | cons c t =>
        rw [ht] at he
        obtain ⟨rfl, rfl⟩ := List.cons.inj he
        exact ⟨t, rfl, fun _ hc => List.mem_append_left _ hc⟩
  have hclean : ∀ q'', some (q' ++ metadataRoute) = some q'' → '#' ∉ q'' := by
    intro _ he hm
    cases he
    rcases List.mem_append.mp hm with hm | hm
    · exact p.queryNoFragment q hq (hpre _ hm)
    · exact absurd hm (by decide)
  let p' : Url.Parts :=
    { p with query := some (q' ++ metadataRoute), fragment := none, queryNoFragment := hclean }
  have htext : Gateway.joinURL p.text metadataRoute = p'.text := by
    have hroute : '/' :: Text.trimPrefix metadataRoute ['/'] = metadataRoute := by decide
    rw [Gateway.joinURL_text p hauth, hq, hfrag, hroute]
    simp only [Url.optionText, Option.elim_some, Option.elim_none, List.append_nil]
    rw [Text.trimSuffix_append_left (List.cons_ne_nil _ _), hq']
    simp [p', Url.Parts.text, Url.Parts.hierText, Url.optionText]
  rw [htext] at hctl' ⊢
  obtain ⟨v, hv, hvpath⟩ := Url.exists_parse (p := p') rfl hctl' hread.authority hread.path
  constructor
  · rintro ⟨w, hw, hwpath⟩
    rw [hv] at hw
    cases hw
    exact hvpath ▸ hwpath
  · intro h
    exact ⟨v, hv, hvpath.trans h⟩

end Advertised

/-- The header leads to the registered route just for a resource at the root of its origin. -/
theorem discoverable_iff {c : Config} {u : Url.URL} (hparse : Url.parse c.resourceURI = some u)
    (hweb : Url.IsWeb u.scheme) (hhost : u.host ≠ []) (hfrag : '#' ∉ c.resourceURI) (errCode : Str) :
    Discoverable c errCode ↔ LeadsToRoute c.resourceURI u := by
  obtain ⟨p, hp, hread, hauth⟩ := Gateway.exists_base hparse hweb hhost
  have hnone : p.fragment = none := by
    cases hf : p.fragment with
    | none => rfl
    | some f =>
      refine absurd ?_ hfrag
      rw [hp]
      simp [Url.Parts.text, hf, Url.optionText]
  have hctl : p.text.any Url.isControl = false := by
    have hmain := Url.any_isControl_of_parse hparse
    rw [Url.cutAt_of_notMem hfrag] at hmain
    exact hp ▸ hmain
  have hurl : metadataURL c = Gateway.joinURL p.text metadataRoute := by rw [metadataURL_eq, hp]
  have hheader := resourceMetadata_challengeHeader (c := c)
    (hurl ▸ any_isControl_joinURL hctl) errCode
  have hiff : Discoverable c errCode ↔ ∃ v, Url.parse (Gateway.joinURL p.text metadataRoute) = some v ∧
      v.path = Text.bytes metadataRoute := by
    constructor
    · rintro ⟨url, v, hurl', hv, hpath⟩
      rw [hheader, hurl] at hurl'
      cases hurl'
      exact ⟨v, hv, hpath⟩
    · rintro ⟨v, hv, hpath⟩
      exact ⟨_, v, hheader, hurl ▸ hv, hpath⟩
  rw [hiff, LeadsToRoute]
  cases hq : p.query with
  | none =>
    have hmark : '?' ∉ c.resourceURI := by
      rw [hp, Url.Parts.text, Url.Parts.hierText, hq, hnone]
      simp [Url.optionText, Url.notMem_scheme p.web (c := '?') rfl, p.noEnd.notMem (.inr (.inl rfl)),
        p.pathNoQuery]
    rw [if_neg hmark]
    exact path_advertised_bare hread hauth hnone hctl hq
  | some q =>
    have hmark : '?' ∈ c.resourceURI := by
      rw [hp, Url.Parts.text, Url.Parts.hierText, hq]
      simp [Url.optionText]
    rw [if_pos hmark]
    exact path_advertised_query hread hauth hnone hctl hq

def rootConfig : Config := ⟨"https://janus.example.com/".toList, []⟩

def mcpConfig : Config := ⟨"https://janus.example.com/mcp".toList, []⟩

theorem discoverable_root : Discoverable rootConfig "invalid_token".toList := by
  obtain ⟨u, hu, hweb, hhost, hroot⟩ : ∃ u, Url.parse rootConfig.resourceURI = some u ∧
      u.scheme = "https".toList ∧ u.host ≠ [] ∧ u.path = [0x2F] :=
    ⟨_, rfl, by decide +kernel, by decide +kernel, by decide +kernel⟩
  refine (discoverable_iff hu (.inr hweb) hhost (by decide) _).mpr ?_
  rw [LeadsToRoute, if_neg (by decide)]
  exact .inr hroot

/-- The resource of the documentation is advertised under its own path. -/
theorem not_discoverable_mcp : ¬ Discoverable mcpConfig "invalid_token".toList := by
  rintro ⟨url, v, hurl, hv, hpath⟩
  have hheader : resourceMetadata (challengeHeader mcpConfig "invalid_token".toList) =
      some "https://janus.example.com/mcp/.well-known/oauth-protected-resource".toList := by
    decide +kernel
  rw [hheader] at hurl
  cases hurl
  have hne : (Url.parse "https://janus.example.com/mcp/.well-known/oauth-protected-resource".toList).map
      Url.URL.path ≠ some (Text.bytes metadataRoute) := by
    decide +kernel
  rw [hv] at hne
  exact hne (congrArg some hpath)

end Janus.OAuth
