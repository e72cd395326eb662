import Janus.CallTarget
import Janus.CallTemplate
import Janus.Lib.UrlSegments

/-!
# The path of a call

A path template is a list of segments made of text and of placeholders. Each argument is
percent-encoded before it takes the place of its placeholder, which leaves dots as they
are. Where no filled segment is a dot segment and every character can stand in an encoded
path, the path of the request has the segments of the base path and those of the filled
template, one by one.
-/

namespace Janus.Gateway

set_option autoImplicit false

open Storage Vault

/-- A separator stands in no piece, and a brace in no name. -/
def PathPiece.WellFormed : PathPiece → Prop
  | .text s => '/' ∉ s
  | .hole k => NameOnly k

instance : DecidablePred PathPiece.WellFormed
  | .text s => inferInstanceAs (Decidable ('/' ∉ s))
  | .hole k => inferInstanceAs (Decidable (NameOnly k))

/-- The text of the segments does not begin with a separator of its own. -/
def Begins (rooted : Bool) (segments : List (List PathPiece)) (params : Params) : Prop :=
  rooted = true ∨ segments.tail = [] ∨ ∀ seg ∈ segments.head?, fillPieces params seg ≠ []

/-- A path template, with or without a slash in front. -/
structure CallPath where
  rooted : Bool
  segments : List (List PathPiece)
  nonempty : segments ≠ []
  wellFormed : ∀ seg ∈ segments, ∀ piece ∈ seg, piece.WellFormed
  begins : Begins rooted segments []

namespace CallPath

/-- The segments with the given arguments put in. -/
def fill (tpl : CallPath) (params : Params) : List Str := tpl.segments.map (fillPieces params)

def rendered (tpl : CallPath) (params : Params) : Str :=
  (if tpl.rooted then ['/'] else []) ++ Text.join ['/'] (tpl.fill params)

def text (tpl : CallPath) : Str := tpl.rendered []

end CallPath

namespace CallPath

variable {tpl : CallPath} {params : Params}

theorem fill_ne_nil : tpl.fill params ≠ [] := by
  simp [fill, tpl.nonempty]

/-- The pieces of the whole template. -/
def pieces (tpl : CallPath) : List PathPiece :=
  (if tpl.rooted then [.text ['/']] else []) ++ joinPieces ['/'] tpl.segments

theorem fillPieces_pieces (tpl : CallPath) (params : Params) :
    fillPieces params tpl.pieces = tpl.rendered params := by
  rw [pieces, fillPieces_append, fillPieces_joinPieces, rendered, fill]
  cases tpl.rooted <;> rfl

/-- No brace is left in the filled segments. -/
def NoBrace (tpl : CallPath) (params : Params) : Prop := ∀ seg ∈ tpl.fill params, '{' ∉ seg

theorem mem_fill {seg : List PathPiece} (hseg : seg ∈ tpl.segments) :
    fillPieces params seg ∈ tpl.fill params := List.mem_map_of_mem hseg

theorem cases_of_mem_pieces {p : PathPiece} (h : p ∈ tpl.pieces) :
    p = .text ['/'] ∨ ∃ seg ∈ tpl.segments, p ∈ seg := by
  obtain h | h := List.mem_append.mp h
  · split at h
    · exact .inl (List.mem_singleton.mp h)
    · cases h
  · exact mem_joinPieces h

theorem readable_pieces (h : tpl.NoBrace params) : Readable tpl.pieces := by
  apply readable_of_noBrace
  · intro s hs hm
    obtain he | ⟨seg, hseg, hp⟩ := cases_of_mem_pieces hs
    · cases he
      exact absurd hm (by decide)
    · exact h _ (mem_fill hseg) (List.mem_flatMap.mpr ⟨_, hp, hm⟩)
  · intro k hk
    obtain he | ⟨seg, hseg, hp⟩ := cases_of_mem_pieces hk
    · cases he
    · exact tpl.wellFormed seg hseg _ hp

theorem renderPath_text (h : tpl.NoBrace params) (hnodup : (params.map Prod.fst).Nodup)
    (hspan : Unspanned tpl.pieces params) : renderPath tpl.text params = tpl.rendered params := by
  have hrender := renderPath_readable (readable_pieces h) hnodup hspan
  rwa [fillPieces_pieces, fillPieces_pieces] at hrender

theorem slash_notMem_fill (h : tpl.NoBrace params) : ∀ s ∈ tpl.fill params, '/' ∉ s := by
  intro s hs hm
  obtain ⟨seg, hseg, rfl⟩ := List.mem_map.mp hs
  obtain ⟨p, hp, hm⟩ := List.mem_flatMap.mp hm
  have hbrace : '{' ∉ p.fill params := fun hb => h _ hs (List.mem_flatMap.mpr ⟨p, hp, hb⟩)
  have hwell := tpl.wellFormed seg hseg p hp
  cases p with
  | text t => exact hwell hm
  | hole k =>
    cases hv : lookup k params with
    | none =>
      rw [PathPiece.fill_hole_none hv] at hbrace
      exact hbrace List.mem_cons_self
    | some v =>
      rw [PathPiece.fill_hole_some hv] at hm
      exact slash_notMem_pathEscape _ hm

end CallPath

/-- A base URL with a query or fragment keeps its path. -/
theorem joinURL_marked {base : Url.Parts} (ha : base.authority ≠ [])
    (h : ¬ (base.query = none ∧ base.fragment = none)) (path : Str) :
    ∃ p : Url.Parts, joinURL base.text path = p.text ∧ p.path = base.path := by
  obtain ⟨x, hx, d, hd, hmark⟩ : ∃ x, x = Url.optionText '?' base.query ++ Url.optionText '#' base.fragment ∧
      ∃ d, x.head? = some d ∧ (d = '?' ∨ d = '#') := by
    refine ⟨_, rfl, ?_⟩
    cases hq : base.query with
    | some q => exact ⟨'?', rfl, .inl rfl⟩
    | none =>
      cases hf : base.fragment with
      | some f => exact ⟨'#', rfl, .inr rfl⟩
      | none => exact absurd ⟨hq, hf⟩ h
  have hne : x ≠ [] := by
    rintro rfl
    cases hd
  have hhead (c : Char) (hc : (Text.trimSuffix x ['/'] ++ '/' :: Text.trimPrefix path ['/']).head? = some c) :
      c = '?' ∨ c = '#' := by
    rw [List.head?_append, Option.or_eq_some_iff] at hc
    obtain hc | ⟨hnone, hc⟩ := hc
    · rw [head_trimSuffix hc] at hd
      exact Option.some.inj hd ▸ hmark
    · obtain hsame | hslash := Text.trimSuffix_cases x '/'
      · rw [hsame] at hnone
        exact absurd (List.head?_eq_none_iff.mp hnone) hne
      · rw [List.head?_eq_none_iff.mp hnone] at hslash
        rw [hslash] at hd
        cases hd
        exact absurd hmark (by decide)
  obtain ⟨p, htext, hp⟩ := Url.exists_parts_of_path base.web base.noEnd base.rooted base.pathNoQuery
    base.pathNoFragment hhead
  refine ⟨p, ?_, hp⟩
  rw [joinURL_text base ha, ← htext, ← hx, Text.trimSuffix_append_left hne, List.append_assoc]

/-- The segments of the base path, and those of the filled template. -/
def joinedSegments (base : Url.Parts) (tpl : CallPath) (params : Params) : List Str :=
  Url.pathSegments (Text.trimSuffix base.path ['/']) ++ tpl.fill params

/-- Every character can stand in an encoded path. -/
def Encoded (segs : List Str) : Prop := ∀ s ∈ segs, ∀ c ∈ s, Url.validEncodedChar .path c = true

namespace CallPath

variable {tpl : CallPath} {params : Params}

theorem head_join {s t : Str} {ts : List Str} (hs : s ≠ []) :
    (Text.join ['/'] (s :: t :: ts)).head? = s.head? := by
  rw [Text.join, List.head?_append, List.head?_append]
  obtain ⟨c, cs, rfl⟩ := List.exists_cons_of_ne_nil hs
  rfl

/-- A template that begins with a segment is joined as it is. -/
theorem trimPrefix_rendered (h : tpl.NoBrace params) (hb : Begins tpl.rooted tpl.segments params) :
    Text.trimPrefix (tpl.rendered params) ['/'] = Text.join ['/'] (tpl.fill params) := by
  unfold rendered
  cases hr : tpl.rooted with
  | true => exact Text.trimPrefix_cons '/' _
  | false =>
    have hslash := slash_notMem_fill h
    refine Text.trimPrefix_of_not ?_
    obtain ⟨seg, rest, hsegs⟩ := List.exists_cons_of_ne_nil tpl.nonempty
    unfold fill at hslash ⊢
    rw [hsegs, List.map_cons] at hslash ⊢
    have hfirst : '/' ∉ fillPieces params seg := hslash _ List.mem_cons_self
    have hhead : (fillPieces params seg).head? ≠ some '/' :=
      fun he => hfirst (List.mem_of_head? he)
    cases rest with
    | nil => exact hhead
    | cons t ts =>
      rw [hr, hsegs] at hb
      have hne : fillPieces params seg ≠ [] := by
        obtain hb | hb | hb := hb
        · cases hb
        · cases hb
        · exact hb seg rfl
      exact (head_join hne).trans_ne hhead

/-- The separator behind an empty first segment is taken for the one of the base path. -/
theorem trimPrefix_rendered_tail (hb : ¬ Begins tpl.rooted tpl.segments params) :
    Text.trimPrefix (tpl.rendered params) ['/'] = Text.join ['/'] (tpl.fill params).tail ∧
      (tpl.fill params).tail ≠ [] := by
  simp only [Begins, not_or] at hb
  obtain ⟨hr, htail, hfirst⟩ := hb
  obtain ⟨seg, rest, hsegs⟩ := List.exists_cons_of_ne_nil tpl.nonempty
  rw [hsegs] at htail hfirst
  obtain ⟨t, ts, rfl⟩ := List.exists_cons_of_ne_nil htail
  have hempty : fillPieces params seg = [] := by simpa using hfirst
  refine ⟨?_, by simp [fill, hsegs]⟩
  unfold rendered fill
  rw [Bool.eq_false_iff.mpr hr, hsegs, List.map_cons, List.map_cons, hempty, List.tail_cons]
  exact Text.trimPrefix_cons '/' _

end CallPath

/-- The arguments with which a template keeps its segments: it is joined to a base URL that
ends with its path, no first segment gets lost in front of a separator, every character of
the path can stand in an encoded path, no segment is a dot segment, and no argument name
spans placeholders of the template. -/
structure PathSafe (base : Url.Parts) (tpl : CallPath) (params : Params) : Prop where
  bare : (base.query = none ∧ base.fragment = none) ∨
    (tpl.fill params = [[]] ∧ base.path.getLast? = some '/')
  begins : Begins tpl.rooted tpl.segments params
  encoded : Encoded (joinedSegments base tpl params)
  noDots : ∀ s ∈ joinedSegments base tpl params, ¬ Url.IsDots s
  unspanned : Unspanned tpl.pieces params

/-- The path has the segments of the base path and of the template, with each placeholder
replaced by the percent-encoded argument, also once its dot segments are removed. -/
def KeepsPath (base : Url.Parts) (tpl : CallPath) (params : Params) (u : Url.URL) : Prop :=
  Url.removeDots (Url.pathSegments u.escapedPath) = joinedSegments base tpl params

section Joined

variable {base : Url.Parts} {tpl : CallPath} {params : Params} {u : Url.URL}

theorem noBrace_of_encoded (h : Encoded (joinedSegments base tpl params)) : tpl.NoBrace params := by
  intro s hs hm
  exact absurd (h s (List.mem_append_right _ hs) _ hm) (by decide)

theorem notMem_rendered (h : Encoded (joinedSegments base tpl params)) {c : Char} (hc : c ≠ '/')
    (hinvalid : Url.validEncodedChar .path c = false) : c ∉ tpl.rendered params := by
  intro hm
  obtain hm | hm := List.mem_append.mp hm
  · split at hm
    · exact hc (List.mem_singleton.mp hm)
    · cases hm
  · obtain hm | ⟨s, hs, hm⟩ := Text.mem_join hm
    · exact hc (List.mem_singleton.mp hm)
    · rw [h s (List.mem_append_right _ hs) c hm] at hinvalid
      cases hinvalid

/-- The segments of a base path with its last separator. -/
theorem pathSegments_base (base : Url.Parts) :
    (base.path.getLast? = some '/' ∧
      Url.pathSegments base.path = Url.pathSegments (Text.trimSuffix base.path ['/']) ++ [[]]) ∨
    (base.path.getLast? ≠ some '/' ∧
      Url.pathSegments base.path = Url.pathSegments (Text.trimSuffix base.path ['/'])) := by
  by_cases hlast : base.path.getLast? = some '/'
  · obtain ⟨x, hx⟩ := List.getLast?_eq_some_iff.mp hlast
    refine .inl ⟨hlast, ?_⟩
    rw [hx, Text.trimSuffix_append, Url.pathSegments_append]
    rfl
  · exact .inr ⟨hlast, by rw [Text.trimSuffix_of_not hlast]⟩

/-- The encoded path of a URL whose text has a path of encoded segments. -/
theorem pathSegments_escapedPath {p : Url.Parts} (h : Url.ReadFrom p u)
    (hencoded : Encoded (Url.pathSegments p.path)) :
    Url.pathSegments u.escapedPath = Url.pathSegments p.path := by
  have hvalid : p.path.all (Url.validEncodedChar .path) = true :=
    List.all_eq_true.mpr (Url.forall_mem_path p.rooted (by decide) hencoded)
  rw [h.escapedPath_eq hvalid]

/-- A base URL without a query or fragment is extended by the segments of the template. -/
theorem segments_bare (ha : base.authority ≠ []) (hq : base.query = none) (hf : base.fragment = none)
    (hencoded : Encoded (joinedSegments base tpl params))
    (hparse : Url.parse (joinURL base.text (tpl.rendered params)) = some u) :
    (Begins tpl.rooted tpl.segments params ∧
      Url.pathSegments u.escapedPath = joinedSegments base tpl params) ∨
    (¬ Begins tpl.rooted tpl.segments params ∧
      (Url.pathSegments u.escapedPath).length < (joinedSegments base tpl params).length) := by
  have hnone : ∀ q, (none : Option Str) = some q → '#' ∉ q := fun q hq => by cases hq
  obtain ⟨p, htext, hp, _⟩ := joinURL_bare ha hq hf (notMem_rendered hencoded (by decide) (by decide))
    (notMem_rendered hencoded (by decide) (by decide)) hnone
  rw [Url.optionText, Option.elim_none, List.append_nil] at htext
  have hread := Url.parse_text (htext ▸ hparse)
  have hbrace := noBrace_of_encoded hencoded
  have hsegments {parts : List Str} (hne : parts ≠ []) (hsub : ∀ s ∈ parts, s ∈ tpl.fill params)
      (hjoin : Text.trimPrefix (tpl.rendered params) ['/'] = Text.join ['/'] parts) :
      Url.pathSegments u.escapedPath =
        Url.pathSegments (Text.trimSuffix base.path ['/']) ++ parts := by
    have hpath : Url.pathSegments p.path =
        Url.pathSegments (Text.trimSuffix base.path ['/']) ++ parts := by
      rw [hp, hjoin, Url.pathSegments_append,
        Text.splitOn_join hne fun s hs => CallPath.slash_notMem_fill hbrace s (hsub s hs)]
    rw [← hpath]
    apply pathSegments_escapedPath hread
    rw [hpath]
    intro s hs
    obtain hs | hs := List.mem_append.mp hs
    · exact hencoded s (List.mem_append_left _ hs)
    · exact hencoded s (List.mem_append_right _ (hsub s hs))
  by_cases hb : Begins tpl.rooted tpl.segments params
  · exact .inl ⟨hb, hsegments CallPath.fill_ne_nil (fun _ hs => hs)
      (CallPath.trimPrefix_rendered hbrace hb)⟩
  · obtain ⟨hjoin, hne⟩ := CallPath.trimPrefix_rendered_tail hb
    refine .inr ⟨hb, ?_⟩
    rw [hsegments hne (fun _ hs => List.mem_of_mem_tail hs) hjoin, joinedSegments,
      List.length_append, List.length_append, List.length_tail]
    have hpos : 0 < (tpl.fill params).length := List.length_pos_iff.mpr CallPath.fill_ne_nil
    omega

/-- A base URL with a query or fragment has the segments of its own path only. -/
theorem segments_marked (ha : base.authority ≠ []) (h : ¬ (base.query = none ∧ base.fragment = none))
    (hencoded : Encoded (joinedSegments base tpl params)) {path : Str}
    (hparse : Url.parse (joinURL base.text path) = some u) :
    Url.pathSegments u.escapedPath = Url.pathSegments base.path := by
  obtain ⟨p, htext, hp⟩ := joinURL_marked ha h path
  have hread := Url.parse_text (htext ▸ hparse)
  rw [← hp]
  apply pathSegments_escapedPath hread
  rw [hp]
  intro s hs
  obtain ⟨_, hbase⟩ | ⟨_, hbase⟩ := pathSegments_base base
  · rw [hbase] at hs
    obtain hs | hs := List.mem_append.mp hs
    · exact hencoded s (List.mem_append_left _ hs)
    · obtain rfl := List.mem_singleton.mp hs
      simp
  · rw [hbase] at hs
    exact hencoded s (List.mem_append_left _ hs)

theorem begins_of_single (h : tpl.fill params = [[]]) : Begins tpl.rooted tpl.segments params := by
  refine .inr (.inl ?_)
  have hlen := congrArg List.length h
  rw [CallPath.fill, List.length_map, List.length_singleton] at hlen
  rw [← List.length_eq_zero_iff, List.length_tail, hlen]

theorem keepsPath_of_safe (ha : base.authority ≠ []) (h : PathSafe base tpl params)
    (hparse : Url.parse (joinURL base.text (tpl.rendered params)) = some u) :
    KeepsPath base tpl params u := by
  have hsegments : Url.pathSegments u.escapedPath = joinedSegments base tpl params := by
    by_cases hbare : base.query = none ∧ base.fragment = none
    · obtain ⟨_, hs⟩ | ⟨hno, _⟩ := segments_bare ha hbare.1 hbare.2 h.encoded hparse
      · exact hs
      · exact absurd h.begins hno
    · obtain ⟨hfill, hlast⟩ := h.bare.resolve_left hbare
      obtain ⟨_, hbase⟩ | ⟨hno, _⟩ := pathSegments_base base
      · rw [segments_marked ha hbare h.encoded hparse, hbase, joinedSegments, hfill]
      · exact absurd hlast hno
  rw [KeepsPath, hsegments, Url.removeDots_of_not h.noDots]

theorem safe_of_keepsPath (ha : base.authority ≠ []) (hencoded : Encoded (joinedSegments base tpl params))
    (hspan : Unspanned tpl.pieces params) (h : KeepsPath base tpl params u)
    (hparse : Url.parse (joinURL base.text (tpl.rendered params)) = some u) :
    PathSafe base tpl params := by
  have hdots : ∀ s ∈ joinedSegments base tpl params, ¬ Url.IsDots s := by
    intro s hs
    rw [← h] at hs
    exact Url.not_isDots_removeDots hs
  have hlen : (joinedSegments base tpl params).length ≤ (Url.pathSegments u.escapedPath).length := by
    rw [← h]
    exact Url.removeDots_length _
  by_cases hbare : base.query = none ∧ base.fragment = none
  · obtain ⟨hb, _⟩ | hlt := segments_bare ha hbare.1 hbare.2 hencoded hparse
    · exact ⟨.inl hbare, hb, hencoded, hdots, hspan⟩
    · omega
  · have hsegments := segments_marked ha hbare hencoded hparse
    obtain ⟨hlast, hbase⟩ | ⟨_, hbase⟩ := pathSegments_base base
    · have hfill : tpl.fill params = [[]] := by
        have hkept : Url.removeDots (Url.pathSegments u.escapedPath) = Url.pathSegments u.escapedPath := by
          apply Url.removeDots_of_not
          rw [hsegments, hbase]
          intro s hs
          obtain hs | hs := List.mem_append.mp hs
          · exact hdots s (List.mem_append_left _ hs)
          · obtain rfl := List.mem_singleton.mp hs
            decide
        rw [KeepsPath, hkept, hsegments, hbase] at h
        exact (List.append_cancel_left h).symm
      exact ⟨.inr ⟨hfill, hlast⟩, begins_of_single hfill, hencoded, hdots, hspan⟩
    · rw [hsegments, hbase, joinedSegments, List.length_append] at hlen
      have hpos : 0 < (tpl.fill params).length := List.length_pos_iff.mpr CallPath.fill_ne_nil
      omega

theorem encoded_of_keepsPath (h : KeepsPath base tpl params u) :
    Encoded (joinedSegments base tpl params) := by
  intro s hs c hc
  rw [← h] at hs
  obtain rfl | hs := Url.mem_of_mem_removeDots hs
  · cases hc
  · exact Url.validEncodedChar_escapedPath (Url.mem_of_mem_pathSegments hs hc)

end Joined

/-- The path of a request keeps the segments of its template exactly when the arguments are
safe, as long as no argument name spans placeholders. -/
theorem keepsPath_iff {env : CallEnv} {vault : Provider} {conn : APIConnection} {ep : APIEndpoint}
    {args : Option Params} {c : Client} {req : Request} {base : Url.Parts} {tpl : CallPath}
    {created : Url.URL} (hbase : conn.baseURL = base.text) (hauth : base.authority ≠ [])
    (hpath : ep.path = tpl.text) (hnodup : ((args.getD []).map Prod.fst).Nodup)
    (hsent : (executeCall env vault conn ep args c).request = some req)
    (hcreated : Url.parse req.url = some created) :
    KeepsPath base tpl (args.getD []) created ∧ Unspanned tpl.pieces (args.getD []) ↔
      PathSafe base tpl (args.getD []) := by
  obtain ⟨_, _, checked, created', h⟩ := executeCall_assembled hsent
  obtain rfl : created = created' := Option.some.inj (hcreated.symm.trans h.reparsed)
  have hsame (hkeep : KeepsPath base tpl (args.getD []) checked) :
      KeepsPath base tpl (args.getD []) created := by
    rw [KeepsPath, h.escapedPath]
    exact hkeep
  have hparse (hencoded : Encoded (joinedSegments base tpl (args.getD [])))
      (hspan : Unspanned tpl.pieces (args.getD [])) :
      Url.parse (joinURL base.text (tpl.rendered (args.getD []))) = some checked := by
    have hchecked := h.parsed
    rwa [checkedURL, hbase, hpath,
      CallPath.renderPath_text (noBrace_of_encoded hencoded) hnodup hspan] at hchecked
  constructor
  · rintro ⟨hkeep, hspan⟩
    have hencoded := encoded_of_keepsPath hkeep
    rw [KeepsPath, h.escapedPath] at hkeep
    exact safe_of_keepsPath hauth hencoded hspan hkeep (hparse hencoded hspan)
  · intro hsafe
    exact ⟨hsame (keepsPath_of_safe hauth hsafe (hparse hsafe.encoded hsafe.unspanned)),
      hsafe.unspanned⟩

def petBase : Url.Parts where
  scheme := "http".toList
  authority := ['h']
  path := "/v1".toList
  query := none
  fragment := none
  web := .inl rfl
  noEnd := by
    intro c hc
    obtain rfl := List.mem_singleton.mp hc
    unfold Url.EndsAuthority
    decide
  rooted := fun _ hc => (Option.some.inj hc).symm
  pathNoQuery := by decide
  pathNoFragment := by decide
  queryNoFragment := fun _ hq => by cases hq

/-- The pet with an id, below a directory. -/
def petPath (directory : Str) (h : '/' ∉ directory) : CallPath where
  rooted := true
  segments := [[.text directory], [.hole "id".toList]]
  nonempty := List.cons_ne_nil _ _
  wellFormed := by
    intro seg hseg p hp
    simp only [List.mem_cons, List.not_mem_nil, or_false] at hseg
    obtain rfl | rfl := hseg
    · obtain rfl := List.mem_singleton.mp hp
      exact h
    · obtain rfl := List.mem_singleton.mp hp
      exact ⟨by decide, by decide⟩
  begins := .inl rfl

def petsPath : CallPath := petPath "pets".toList (by decide)

def ownPetsPath : CallPath := petPath "my pets".toList (by decide)

def petsConn : APIConnection := ⟨['c'], ['c'], [], petBase.text, "none".toList, [], true, []⟩

def petsEndpoint (tpl : CallPath) : APIEndpoint :=
  ⟨['e'], ['c'], ['p'], [], tpl.text, "DELETE".toList, [], [], [], 1⟩

def idArgs (id : Str) : Params := [("id".toList, .str id)]

def idRequest (url : Str) : Request := ⟨"DELETE".toList, url, none, .none⟩

theorem request_slash :
    (executeCall apiEnv (.local []) petsConn (petsEndpoint petsPath) (some (idArgs "a/..".toList))
      apiClient).request = some (idRequest "http://h/v1/pets/a%2F..".toList) := by
  decide +kernel

theorem unspanned_id (tpl : CallPath) (id : Str) : Unspanned tpl.pieces (idArgs id) := by
  intro before k v after h
  have hmem : (k, v) ∈ idArgs id := by rw [h]; simp
  obtain ⟨rfl, _⟩ := Prod.mk.inj (List.mem_singleton.mp hmem)
  exact .inl (by decide)

theorem pathSafe_slash : PathSafe petBase petsPath (idArgs "a/..".toList) where
  bare := .inl ⟨rfl, rfl⟩
  begins := .inl rfl
  encoded := by
    unfold Encoded
    decide
  noDots := by decide
  unspanned := unspanned_id _ _

theorem keepsPath_slash :
    ∃ created, Url.parse "http://h/v1/pets/a%2F..".toList = some created ∧
      KeepsPath petBase petsPath (idArgs "a/..".toList) created := by
  have hsome : (Url.parse "http://h/v1/pets/a%2F..".toList).isSome = true := by decide +kernel
  obtain ⟨created, hcreated⟩ := Option.isSome_iff_exists.mp hsome
  have hiff := keepsPath_iff rfl (List.cons_ne_nil _ _) rfl (by decide) request_slash hcreated
  exact ⟨created, hcreated, (hiff.mpr pathSafe_slash).1⟩

theorem not_keepsPath_of {base : Url.Parts} {tpl : CallPath} {params : Params} {url : Str} (path : Str)
    (hpath : (Url.parse url).map Url.URL.escapedPath = some path)
    (hne : Url.removeDots (Url.pathSegments path) ≠ joinedSegments base tpl params) :
    ∃ created, Url.parse url = some created ∧ ¬ KeepsPath base tpl params created := by
  obtain ⟨created, hcreated, rfl⟩ := Option.map_eq_some_iff.mp hpath
  exact ⟨created, hcreated, hne⟩

/-- The id `..` asks for the parent of the pets, and in a directory whose name has to be
encoded a slash in the id is a separator. -/
theorem not_keepsPath_dots :
    ((executeCall apiEnv (.local []) petsConn (petsEndpoint petsPath) (some (idArgs "..".toList))
        apiClient).request = some (idRequest "http://h/v1/pets/..".toList) ∧
      ∃ created, Url.parse "http://h/v1/pets/..".toList = some created ∧
        ¬ KeepsPath petBase petsPath (idArgs "..".toList) created) ∧
    ((executeCall apiEnv (.local []) petsConn (petsEndpoint ownPetsPath) (some (idArgs "a/b".toList))
        apiClient).request = some (idRequest "http://h/v1/my%20pets/a/b".toList) ∧
      ∃ created, Url.parse "http://h/v1/my%20pets/a/b".toList = some created ∧
        ¬ KeepsPath petBase ownPetsPath (idArgs "a/b".toList) created) :=
  ⟨⟨by decide +kernel, not_keepsPath_of "/v1/pets/..".toList (by decide +kernel) (by decide)⟩,
    by decide +kernel,
    not_keepsPath_of "/v1/my%20pets/a/b".toList (by decide +kernel) (by decide)⟩

end Janus.Gateway
