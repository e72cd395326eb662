import Janus.CallArguments
import Janus.CallPath
import Janus.Lib.UrlQuery

/-!
# The query of a call

The query of a path template is a list of fixed pairs and of pairs whose value is a
placeholder. A GET request sends it with its values, and the arguments that no placeholder
takes as further pairs. Values are encoded for a path before the query is read, and a
further pair replaces every pair of its name.
-/

namespace Janus.Gateway

set_option autoImplicit false

open Storage Vault

inductive QueryPair where
  | fixed (raw : Str)
  | hole (name k : Str)
  deriving Repr, DecidableEq

/-- No character of a placeholder's name has a meaning in a URL. -/
def PlainName (k : Str) : Prop := ∀ c ∈ k, c ∉ "?#&;%+".toList

namespace QueryPair

/-- A fixed pair is one that is read as such. -/
def WellFormed : QueryPair → Prop
  | fixed raw => (Url.readPair raw).isSome = true ∧ '&' ∉ raw ∧ '#' ∉ raw
  | hole name k => (∃ n, Url.QueryName name n) ∧ PlainName k

def pieces : QueryPair → List PathPiece
  | fixed raw => [.text raw]
  | hole name k => [.text (name ++ ['=']), .hole k]

def rendered (params : Params) (p : QueryPair) : Str := fillPieces params p.pieces

/-- The name and value of a pair. A placeholder without an argument stands for itself. -/
def read (params : Params) : QueryPair → Str × Str
  | fixed raw => (Url.readPair raw).getD ([], [])
  | hole name k =>
    ((Url.queryUnescape name).getD [], ((lookup k params).map Json.formatV).getD (placeholder k))

def fixedName : QueryPair → Option Str
  | fixed raw => (Url.readPair raw).map Prod.fst
  | hole _ _ => none

end QueryPair

/-- The pieces of a path and of the query behind it. -/
def callPieces (path : List PathPiece) (pairs : List QueryPair) : List PathPiece :=
  path ++ if pairs = [] then [] else .text ['?'] :: joinPieces ['&'] (pairs.map QueryPair.pieces)

def PathPiece.NoMark : PathPiece → Prop
  | .text s => '?' ∉ s ∧ '#' ∉ s
  | .hole k => PlainName k

/-- A path template with a query. -/
structure CallQuery where
  path : List PathPiece
  pairs : List QueryPair
  noMark : ∀ p ∈ path, p.NoMark
  wellFormed : ∀ p ∈ pairs, p.WellFormed
  readable : Readable (callPieces path pairs)

namespace CallQuery

def pieces (tpl : CallQuery) : List PathPiece := callPieces tpl.path tpl.pairs

def text (tpl : CallQuery) : Str := fillPieces [] tpl.pieces

def fixedNames (tpl : CallQuery) : List Str := tpl.pairs.filterMap QueryPair.fixedName

/-- The pairs of the template with the arguments in it. -/
def read (tpl : CallQuery) (params : Params) : List (Str × Str) := tpl.pairs.map (QueryPair.read params)

/-- The arguments that no placeholder takes and that have not the name of a fixed pair. -/
def further (tpl : CallQuery) (params : Params) : List (Str × Str) :=
  (params.filter fun m => m.1 ∉ holes tpl.pieces ∧ m.1 ∉ tpl.fixedNames).map fun m => (m.1, m.2.formatV)

/-- An argument with a brace in its name has no placeholder in the template, nor in the
template filled with the arguments before it. -/
def NoSpan (tpl : CallQuery) (params : Params) : Prop :=
  Unspanned tpl.pieces params ∧
    ∀ m ∈ params, NameOnly m.1 ∨ ¬ placeholder m.1 <:+: tpl.text

end CallQuery

/-- The values of a name among some pairs. -/
def valuesIn (n : Str) (ps : List (Str × Str)) : List Str := (ps.filter fun p => p.1 = n).map Prod.snd

/-- The query consists of the pairs of the template and of the further arguments. -/
def SendsQuery (tpl : CallQuery) (params : Params) (u : Url.URL) : Prop :=
  ∀ n, Url.valuesOf u.rawQuery n = valuesIn n (tpl.read params ++ tpl.further params)

/-- The arguments with which the query is sent as the template has it: no value in it has an
`&` or a `+`, no further argument has the name of a pair, unless that is a fixed one with
just the value of the argument, no argument name spans placeholders, and the base URL ends
with its path. -/
structure QuerySafe (base : Url.Parts) (tpl : CallQuery) (params : Params) : Prop where
  values : ∀ name k v, .hole name k ∈ tpl.pairs → lookup k params = some v →
    '&' ∉ v.formatV ∧ '+' ∉ v.formatV
  names : ∀ k v, lookup k params = some v → k ∉ holes tpl.pieces →
    valuesIn k (tpl.read params) = [] ∨
      (k ∈ tpl.fixedNames ∧ valuesIn k (tpl.read params) = [v.formatV])
  noSpan : tpl.NoSpan params
  bare : base.query = none ∧ base.fragment = none

theorem valuesIn_append (n : Str) (a b : List (Str × Str)) :
    valuesIn n (a ++ b) = valuesIn n a ++ valuesIn n b := by
  simp [valuesIn]

theorem placeholder_plain {k : Str} (h : PlainName k) : ∀ c ∈ placeholder k, c ∉ "?#&;%+".toList := by
  intro c hc
  simp only [placeholder, List.mem_cons, List.mem_append, List.not_mem_nil, or_false] at hc
  obtain rfl | rfl | hc | rfl | rfl := hc
  · decide
  · decide
  · exact h c hc
  · decide
  · decide

section Pairs

variable {params : Params}

theorem rendered_hole_some {name k : Str} {v : Json} (hv : lookup k params = some v) :
    (QueryPair.hole name k).rendered params = name ++ '=' :: Url.pathEscape v.formatV := by
  rw [QueryPair.rendered, QueryPair.pieces, fillPieces_cons, fillPieces_cons,
    PathPiece.fill_hole_some hv]
  simp [PathPiece.fill, fillPieces]

theorem rendered_hole_none {name k : Str} (hv : lookup k params = none) :
    (QueryPair.hole name k).rendered params = name ++ '=' :: placeholder k := by
  rw [QueryPair.rendered, QueryPair.pieces, fillPieces_cons, fillPieces_cons,
    PathPiece.fill_hole_none hv]
  simp [PathPiece.fill, fillPieces]

theorem rendered_fixed (raw : Str) : (QueryPair.fixed raw).rendered params = raw := by
  simp [QueryPair.rendered, QueryPair.pieces, fillPieces, PathPiece.fill]

/-- A pair without an argument in it is read as it is written. -/
theorem readPairs_of_none {p : QueryPair} (h : p.WellFormed)
    (hnone : ∀ name k, p = .hole name k → lookup k params = none) :
    Url.readPairs (p.rendered params) = [p.read params] := by
  cases p with
  | fixed raw =>
    obtain ⟨hsome, hamp, _⟩ := h
    obtain ⟨pair, hpair⟩ := Option.isSome_iff_exists.mp hsome
    rw [rendered_fixed, Url.readPairs_single hamp hpair, QueryPair.read, hpair]
    rfl
  | hole name k =>
    obtain ⟨⟨n, hn⟩, hk⟩ := h
    have hplain := placeholder_plain hk
    have hno {c : Char} (hc : c ∈ "?#&;%+".toList) : c ∉ placeholder k := fun hm => hplain c hm hc
    have hv := hnone name k rfl
    rw [rendered_hole_none hv, QueryPair.read, hn.decoded, hv]
    apply Url.readPairs_single
    · have hname : '&' ∉ name := hn.notMem (by decide)
      simp [hname, hno (c := '&') (by decide)]
    · have hsemi : (name ++ '=' :: placeholder k).contains ';' = false := by
        have hname : ';' ∉ name := hn.notMem (by decide)
        simp [hname, hno (c := ';') (by decide)]
      have hvalue : Url.queryUnescape (placeholder k) = some (placeholder k) := by
        apply Url.queryUnescape_plain
        intro c hc
        refine ⟨?_, ?_⟩
        · rintro rfl
          exact hno (by decide) hc
        · rintro rfl
          exact hno (by decide) hc
      unfold Url.readPair
      rw [hsemi, if_neg (by simp), Url.cutAt, Url.cut_append (hn.notMem (by decide))]
      rw [Option.getD_some, hn.decoded, hvalue]
      rfl

theorem readPairs_of_safe {p : QueryPair} (h : p.WellFormed)
    (hsafe : ∀ name k v, p = .hole name k → lookup k params = some v →
      '&' ∉ v.formatV ∧ '+' ∉ v.formatV) :
    Url.readPairs (p.rendered params) = [p.read params] := by
  by_cases hnone : ∀ name k, p = .hole name k → lookup k params = none
  · exact readPairs_of_none h hnone
  · push Not at hnone
    obtain ⟨name, k, rfl, hsome⟩ := hnone
    obtain ⟨v, hv⟩ := Option.ne_none_iff_exists'.mp hsome
    obtain ⟨⟨n, hn⟩, _⟩ := h
    obtain ⟨hamp, hplus⟩ := hsafe name k v rfl hv
    rw [rendered_hole_some hv, hn.readPairs_value hamp hplus, QueryPair.read, hn.decoded, hv]
    rfl

end Pairs

/-- How often a character occurs in the values of a name. -/
def weight (c : Char) (n : Str) (ps : List (Str × Str)) : Nat :=
  ((valuesIn n ps).map (List.count c)).sum

theorem weight_append (c : Char) (n : Str) (a b : List (Str × Str)) :
    weight c n (a ++ b) = weight c n a + weight c n b := by
  simp [weight, valuesIn_append]

theorem weight_flatMap (c : Char) (n : Str) {α : Type} (f : α → List (Str × Str)) (l : List α) :
    weight c n (l.flatMap f) = (l.map fun a => weight c n (f a)).sum := by
  induction l with
  | nil => rfl
  | cons a l ih => rw [List.flatMap_cons, weight_append, ih, List.map_cons, List.sum_cons]

theorem weight_eq_zero {c : Char} {ps : List (Str × Str)} (h : ∀ p ∈ ps, c ∉ p.2) (n : Str) :
    weight c n ps = 0 := by
  apply List.sum_eq_zero
  intro x hx
  obtain ⟨v, hv, rfl⟩ := List.mem_map.mp hx
  obtain ⟨p, hp, rfl⟩ := List.mem_map.mp hv
  exact List.count_eq_zero_of_not_mem (h p (List.mem_of_mem_filter hp))

section Weights

variable {params : Params} {c : Char} (hc : c = '&' ∨ c = '+')
include hc

theorem weight_hole {name k n : Str} {v : Json} (hn : Url.QueryName name n)
    (hv : lookup k params = some v) (m : Str) :
    weight c m (Url.readPairs ((QueryPair.hole name k).rendered params)) = 0 := by
  rw [rendered_hole_some hv]
  apply weight_eq_zero
  intro p hp
  obtain ⟨hamp, hplus⟩ := hn.notMem_readPairs_value hp
  obtain rfl | rfl := hc
  · exact hamp
  · exact hplus

theorem weight_rendered_le {p : QueryPair} (h : p.WellFormed) (n : Str) :
    weight c n (Url.readPairs (p.rendered params)) ≤ weight c n [p.read params] := by
  by_cases hnone : ∀ name k, p = .hole name k → lookup k params = none
  · rw [readPairs_of_none h hnone]
  · push Not at hnone
    obtain ⟨name, k, rfl, hsome⟩ := hnone
    obtain ⟨v, hv⟩ := Option.ne_none_iff_exists'.mp hsome
    obtain ⟨⟨n', hn⟩, _⟩ := h
    rw [weight_hole hc hn hv]
    exact Nat.zero_le _

/-- Where a name has all its values, none of them had such a character from an argument. -/
theorem notMem_of_weight {pairs : List QueryPair} (h : ∀ p ∈ pairs, p.WellFormed) {n : Str}
    (heq : weight c n (pairs.flatMap fun p => Url.readPairs (p.rendered params)) =
      weight c n (pairs.map (QueryPair.read params)))
    {name k : Str} {v : Json} (hmem : .hole name k ∈ pairs) (hn : Url.QueryName name n)
    (hv : lookup k params = some v) : c ∉ v.formatV := by
  intro hcv
  have hread : (QueryPair.hole name k).read params = (n, v.formatV) := by
    rw [QueryPair.read, hn.decoded, hv]
    rfl
  rw [List.map_eq_flatMap, weight_flatMap, weight_flatMap] at heq
  refine absurd heq (ne_of_lt (List.sum_lt_sum _ _ ?_ ⟨_, hmem, ?_⟩))
  · exact fun p hp => weight_rendered_le hc (h p hp) n
  · rw [weight_hole hc hn hv, hread]
    simpa [weight, valuesIn] using List.count_pos_iff.mpr hcv

end Weights

theorem noMark_pathEscape {c : Char} (hc : c = '?' ∨ c = '#') (s : Str) : c ∉ Url.pathEscape s := by
  obtain rfl | rfl := hc
  · exact Url.notMem_escape (by decide) (by decide) _
  · exact Url.notMem_escape (by decide) (by decide) _

theorem noMark_hole {c : Char} (hc : c = '?' ∨ c = '#') {k : Str} (hk : PlainName k) (params : Params) :
    c ∉ (PathPiece.hole k).fill params := by
  cases hv : lookup k params with
  | none =>
    rw [PathPiece.fill_hole_none hv]
    intro hm
    refine placeholder_plain hk c hm ?_
    obtain rfl | rfl := hc
    · decide
    · decide
  | some v =>
    rw [PathPiece.fill_hole_some hv]
    exact noMark_pathEscape hc _

namespace CallQuery

variable {tpl : CallQuery} {params : Params}

/-- The query text, where the template has a query. -/
def queryText (tpl : CallQuery) (params : Params) : Option Str :=
  if tpl.pairs = [] then none else some (Text.join ['&'] (tpl.pairs.map (QueryPair.rendered params)))

theorem fillPieces_pieces (tpl : CallQuery) (params : Params) :
    fillPieces params tpl.pieces =
      fillPieces params tpl.path ++ Url.optionText '?' (tpl.queryText params) := by
  rw [pieces, callPieces, fillPieces_append, queryText]
  split
  · rfl
  · rw [fillPieces_cons, fillPieces_joinPieces, List.map_map]
    rfl

theorem noMark_path {c : Char} (hc : c = '?' ∨ c = '#') : c ∉ fillPieces params tpl.path := by
  intro hm
  obtain ⟨p, hp, hm⟩ := List.mem_flatMap.mp hm
  have hno := tpl.noMark p hp
  cases p with
  | text s =>
    obtain rfl | rfl := hc
    · exact hno.1 hm
    · exact hno.2 hm
  | hole k => exact noMark_hole hc hno params hm

theorem noHash_rendered {p : QueryPair} (h : p.WellFormed) : '#' ∉ p.rendered params := by
  cases p with
  | fixed raw =>
    rw [rendered_fixed]
    exact h.2.2
  | hole name k =>
    obtain ⟨⟨n, hn⟩, hk⟩ := h
    have hname : '#' ∉ name := hn.notMem (by decide)
    have hvalue := noMark_hole (.inr rfl) hk params
    have htext : (PathPiece.text (name ++ ['='])).fill params = name ++ ['='] := rfl
    rw [QueryPair.rendered, QueryPair.pieces, fillPieces_cons, fillPieces_cons, htext]
    simp [hname, hvalue, fillPieces]

theorem noHash_queryText : ∀ q, tpl.queryText params = some q → '#' ∉ q := by
  intro q hq hm
  unfold queryText at hq
  split at hq
  · cases hq
  · cases hq
    obtain hm | ⟨s, hs, hm⟩ := Text.mem_join hm
    · exact absurd hm (by decide)
    · obtain ⟨p, hp, rfl⟩ := List.mem_map.mp hs
      exact noHash_rendered (tpl.wellFormed p hp) hm

theorem readPairs_queryText :
    Url.readPairs ((tpl.queryText params).getD []) =
      tpl.pairs.flatMap fun p => Url.readPairs (p.rendered params) := by
  unfold queryText
  split
  · rename_i hnil
    rw [hnil]
    rfl
  · rename_i hne
    have hmap : tpl.pairs.map (QueryPair.rendered params) ≠ [] := by simpa using hne
    rw [Option.getD_some, Url.readPairs_join hmap, List.flatMap_map]

theorem valuesOf_checked {base : Url.Parts} (ha : base.authority ≠ []) (hq : base.query = none)
    (hf : base.fragment = none) {u : Url.URL}
    (hparse : Url.parse (joinURL base.text (fillPieces params tpl.pieces)) = some u) (n : Str) :
    Url.valuesOf u.rawQuery n =
      valuesIn n (tpl.pairs.flatMap fun p => Url.readPairs (p.rendered params)) := by
  obtain ⟨p, htext, _, hquery, _⟩ := joinURL_bare ha hq hf (noMark_path (.inl rfl)) (noMark_path (.inr rfl))
    (noHash_queryText)
  rw [fillPieces_pieces, htext] at hparse
  rw [(Url.parse_text hparse).rawQuery, hquery, Url.valuesOf_eq, readPairs_queryText]
  rfl

end CallQuery

theorem filter_name {params : Params} (h : (params.map Prod.fst).Nodup) (n : Str) :
    params.filter (fun m => m.1 = n) = ((lookup n params).map fun v => (n, v)).toList := by
  induction params with
  | nil => rfl
  | cons m params ih =>
    obtain ⟨k, v⟩ := m
    obtain ⟨hk, hrest⟩ := List.nodup_cons.mp h
    rw [List.filter_cons, ih hrest]
    by_cases hn : k = n
    · subst hn
      have hnone : lookup k params = none := by
        apply lookup_eq_none_of_forall
        intro m hm he
        exact hk (List.mem_map.mpr ⟨m, hm, he⟩)
      simp [lookup, hnone]
    · simp [lookup, hn]

namespace CallQuery

variable {tpl : CallQuery} {params : Params}

theorem valuesIn_further (h : (params.map Prod.fst).Nodup) (n : Str) :
    valuesIn n (tpl.further params) =
      if n ∉ holes tpl.pieces ∧ n ∉ tpl.fixedNames then ((lookup n params).map Json.formatV).toList
      else [] := by
  have hcomm : (tpl.further params).filter (fun p => p.1 = n) =
      ((params.filter fun m => m.1 = n).filter fun m =>
        m.1 ∉ holes tpl.pieces ∧ m.1 ∉ tpl.fixedNames).map fun m => (m.1, m.2.formatV) := by
    rw [further, List.filter_map, List.filter_filter, List.filter_filter]
    congr 1
    apply List.filter_congr
    intro m _
    simp [Bool.and_comm]
  rw [valuesIn, hcomm, filter_name h]
  cases hv : lookup n params with
  | none => simp
  | some v => by_cases hn : n ∉ holes tpl.pieces ∧ n ∉ tpl.fixedNames <;> simp [hn]

theorem mem_read_of_fixed {n : Str} (h : n ∈ tpl.fixedNames) :
    ∃ raw, .fixed raw ∈ tpl.pairs ∧ ((QueryPair.fixed raw).read params).1 = n := by
  obtain ⟨p, hp, hn⟩ := List.mem_filterMap.mp h
  cases p with
  | fixed raw =>
    obtain ⟨pair, hpair, rfl⟩ := Option.map_eq_some_iff.mp hn
    exact ⟨raw, hp, by rw [QueryPair.read, hpair]; rfl⟩
  | hole name k => cases hn

end CallQuery

section Sent

variable {egress : EgressPolicy} {env : CallEnv} {conn : APIConnection} {ep : APIEndpoint}
  {tpl : CallQuery} {params : Params} {req : Request} {checked created : Url.URL}
  (h : Assembled egress env conn ep params req checked created) (hget : ep.method = "GET".toList)
  (hpath : ep.path = tpl.text)
include h hget hpath

theorem valuesOf_sent (n : Str) :
    Url.valuesOf created.rawQuery n =
      (lookup n (queryParams tpl.text params (Url.parseQuery checked.rawQuery))).getD [] := by
  rw [h.query, withQuery, if_pos hget, hpath]
  exact Url.valuesOf_encode (nodup_queryParams _ _ (Url.nodup_parseQuery _)) n

/-- A further argument is the only value of its name. -/
theorem valuesOf_further (hspan : tpl.NoSpan params) {n : Str} {v : Json} (hv : lookup n params = some v)
    (hn : n ∉ holes tpl.pieces) : Url.valuesOf created.rawQuery n = [v.formatV] := by
  have habsent : ¬ placeholder n <:+: tpl.text := by
    obtain hname | habsent := hspan.2 _ (mem_of_lookup hv)
    · exact fun hi => hn ((placeholder_infix_iff tpl.readable hname).mp hi)
    · exact habsent
  rw [valuesOf_sent h hget hpath, lookup_queryParams habsent hv]
  rfl

/-- Every other name keeps the values of the parsed URL. -/
theorem valuesOf_other {n : Str} (hn : ∀ v, lookup n params = some v → n ∈ holes tpl.pieces) :
    Url.valuesOf created.rawQuery n = Url.valuesOf checked.rawQuery n := by
  rw [valuesOf_sent h hget hpath]
  cases hv : lookup n params with
  | none => rw [lookup_queryParams_of_none hv, Url.valuesOf]
  | some v =>
    have hmem := hn v hv
    have hused : placeholder n <:+: tpl.text :=
      (placeholder_infix_iff tpl.readable (tpl.readable.nameOnly n hmem)).mpr hmem
    rw [lookup_queryParams_of_used hused, Url.valuesOf]

end Sent

theorem valuesIn_expected {tpl : CallQuery} {params : Params} (hnodup : (params.map Prod.fst).Nodup)
    {n : Str} (hn : ∀ v, lookup n params = some v → n ∈ holes tpl.pieces) :
    valuesIn n (tpl.read params ++ tpl.further params) = valuesIn n (tpl.read params) := by
  rw [valuesIn_append, CallQuery.valuesIn_further hnodup]
  cases hv : lookup n params with
  | none => simp
  | some v => simp [hn v hv]

section Safe

variable {base : Url.Parts} {tpl : CallQuery} {params : Params} {checked created : Url.URL}
  (hnodup : (params.map Prod.fst).Nodup)
  (hfurther : ∀ n v, lookup n params = some v → n ∉ holes tpl.pieces →
    Url.valuesOf created.rawQuery n = [v.formatV])
  (hother : ∀ n, (∀ v, lookup n params = some v → n ∈ holes tpl.pieces) →
    Url.valuesOf created.rawQuery n =
      valuesIn n (tpl.pairs.flatMap fun p => Url.readPairs (p.rendered params)))
include hnodup hfurther

theorem names_of_sendsQuery (hsent : SendsQuery tpl params created) :
    ∀ k v, lookup k params = some v → k ∉ holes tpl.pieces →
      valuesIn k (tpl.read params) = [] ∨
        (k ∈ tpl.fixedNames ∧ valuesIn k (tpl.read params) = [v.formatV]) := by
  intro k v hv hfree
  have hvalues := hsent k
  rw [hfurther k v hv hfree, valuesIn_append, CallQuery.valuesIn_further hnodup, hv] at hvalues
  by_cases hfixed : k ∈ tpl.fixedNames
  · right
    refine ⟨hfixed, ?_⟩
    simpa [hfixed] using hvalues.symm
  · left
    simp only [hfree, hfixed, not_false_eq_true, and_self, if_true, Option.map_some,
      Option.toList_some] at hvalues
    exact List.self_eq_append_left.mp hvalues

include hother

theorem sendsQuery_of_safe (hsafe : QuerySafe base tpl params) : SendsQuery tpl params created := by
  have hread : (tpl.pairs.flatMap fun p => Url.readPairs (p.rendered params)) = tpl.read params := by
    rw [CallQuery.read, List.map_eq_flatMap]
    refine List.flatMap_congr fun p hp => readPairs_of_safe (tpl.wellFormed p hp) ?_
    rintro name k v rfl hv
    exact hsafe.values name k v hp hv
  intro n
  by_cases hn : ∀ v, lookup n params = some v → n ∈ holes tpl.pieces
  · rw [hother n hn, hread, valuesIn_expected hnodup hn]
  · push Not at hn
    obtain ⟨v, hv, hfree⟩ := hn
    rw [hfurther n v hv hfree, valuesIn_append, CallQuery.valuesIn_further hnodup, hv]
    obtain hnone | ⟨hfixed, hsame⟩ := hsafe.names n v hv hfree
    · have hnot : n ∉ tpl.fixedNames := by
        intro hfixed
        obtain ⟨raw, hraw, hname⟩ := CallQuery.mem_read_of_fixed hfixed
        have hmem := List.mem_map_of_mem (f := QueryPair.read params) hraw
        have hvalue : ((QueryPair.fixed raw).read params).2 ∈ valuesIn n (tpl.read params) :=
          List.mem_map_of_mem (List.mem_filter.mpr ⟨hmem, decide_eq_true hname⟩)
        rw [hnone] at hvalue
        cases hvalue
      simp [hnone, hnot, hfree]
    · simp [hsame, hfixed]

theorem values_of_sendsQuery (hsent : SendsQuery tpl params created) :
    ∀ name k v, .hole name k ∈ tpl.pairs → lookup k params = some v →
      '&' ∉ v.formatV ∧ '+' ∉ v.formatV := by
  intro name k v hmem hv
  obtain ⟨⟨n, hn⟩, _⟩ := tpl.wellFormed _ hmem
  have hname : ((QueryPair.hole name k).read params).1 = n := by
    rw [QueryPair.read, hn.decoded]
    rfl
  have hkept : ∀ v', lookup n params = some v' → n ∈ holes tpl.pieces := by
    intro v' hv'
    by_contra hfree
    -- a further argument would be the only value of the name, and the placeholder has one too
    have hlen : (valuesIn n (tpl.read params)).length =
        (tpl.pairs.filter fun p => (p.read params).1 = n).length := by
      rw [valuesIn, List.length_map, CallQuery.read, List.filter_map, List.length_map]
      rfl
    have hhole : .hole name k ∈ tpl.pairs.filter fun p => (p.read params).1 = n :=
      List.mem_filter.mpr ⟨hmem, decide_eq_true hname⟩
    obtain hnone | ⟨hfixed, hone⟩ := names_of_sendsQuery hnodup hfurther hsent n v' hv' hfree
    · rw [hnone] at hlen
      exact absurd hlen.symm (List.length_pos_of_mem hhole).ne'
    · obtain ⟨raw, hraw, hrawName⟩ := CallQuery.mem_read_of_fixed hfixed
      have hfixedMem : .fixed raw ∈ tpl.pairs.filter fun p => (p.read params).1 = n :=
        List.mem_filter.mpr ⟨hraw, decide_eq_true hrawName⟩
      rw [hone, List.length_singleton] at hlen
      obtain ⟨p, hp⟩ := List.length_eq_one_iff.mp hlen.symm
      rw [hp] at hhole hfixedMem
      cases (List.mem_singleton.mp hhole).trans (List.mem_singleton.mp hfixedMem).symm
  have hvalues := hsent n
  rw [hother n hkept, valuesIn_expected hnodup hkept] at hvalues
  have hweight (c : Char) : weight c n (tpl.pairs.flatMap fun p => Url.readPairs (p.rendered params)) =
      weight c n (tpl.pairs.map (QueryPair.read params)) := by
    rw [weight, hvalues]
    rfl
  exact ⟨notMem_of_weight (.inl rfl) tpl.wellFormed (hweight _) hmem hn hv,
    notMem_of_weight (.inr rfl) tpl.wellFormed (hweight _) hmem hn hv⟩

end Safe

/-- Behind a fragment nothing of the path is sent, so the query is as expected if the template has no
pairs. -/
theorem sendsQuery_of_fragment {env : CallEnv} {vault : Provider} {conn : APIConnection} {ep : APIEndpoint}
    {args : Option Params} {c : Client} {req : Request} {base : Url.Parts} {tpl : CallQuery}
    {created : Url.URL} {f : Str} (hbase : conn.baseURL = base.text) (hauth : base.authority ≠ [])
    (hget : ep.method = "GET".toList) (hpath : ep.path = tpl.text)
    (hnodup : ((args.getD []).map Prod.fst).Nodup)
    (hsent : (executeCall env vault conn ep args c).request = some req)
    (hcreated : Url.parse req.url = some created) (hspan : tpl.NoSpan (args.getD []))
    (hquery : base.query = none) (hfragment : base.fragment = some f) (hpairs : tpl.pairs = []) :
    SendsQuery tpl (args.getD []) created := by
  obtain ⟨_, _, checked, created', h⟩ := executeCall_assembled hsent
  obtain rfl : created = created' := Option.some.inj (hcreated.symm.trans h.reparsed)
  have hread : tpl.read (args.getD []) = [] := by rw [CallQuery.read, hpairs, List.map_nil]
  intro n
  by_cases hn : ∃ v, lookup n (args.getD []) = some v ∧ n ∉ holes tpl.pieces
  · obtain ⟨v, hv, hfree⟩ := hn
    have hfixed : n ∉ tpl.fixedNames := by
      rw [CallQuery.fixedNames, hpairs]
      exact List.not_mem_nil
    rw [valuesOf_further h hget hpath hspan hv hfree, hread, List.nil_append,
      CallQuery.valuesIn_further hnodup, if_pos ⟨hfree, hfixed⟩, hv]
    rfl
  · have hother : ∀ v, lookup n (args.getD []) = some v → n ∈ holes tpl.pieces := by
      intro v hv
      by_contra hfree
      exact hn ⟨v, hv, hfree⟩
    obtain ⟨p, htext, hnone⟩ := joinURL_fragment hauth hquery hfragment (renderPath ep.path (args.getD []))
    have hparse := h.parsed
    rw [checkedURL, hbase, htext] at hparse
    rw [valuesOf_other h hget hpath hother, (Url.parse_text hparse).rawQuery, hnone,
      valuesIn_expected hnodup hother, hread]
    rfl

/-- The query that is sent is the one of the template and its arguments exactly when the
arguments are safe, as long as no argument name spans placeholders and the base URL ends
with its path. -/
theorem sendsQuery_iff {env : CallEnv} {vault : Provider} {conn : APIConnection} {ep : APIEndpoint}
    {args : Option Params} {c : Client} {req : Request} {base : Url.Parts} {tpl : CallQuery}
    {created : Url.URL} (hbase : conn.baseURL = base.text) (hauth : base.authority ≠ [])
    (hget : ep.method = "GET".toList) (hpath : ep.path = tpl.text)
    (hnodup : ((args.getD []).map Prod.fst).Nodup)
    (hsent : (executeCall env vault conn ep args c).request = some req)
    (hcreated : Url.parse req.url = some created) :
    SendsQuery tpl (args.getD []) created ∧ tpl.NoSpan (args.getD []) ∧
        base.query = none ∧ base.fragment = none ↔
      QuerySafe base tpl (args.getD []) := by
  obtain ⟨_, _, checked, created', h⟩ := executeCall_assembled hsent
  obtain rfl : created = created' := Option.some.inj (hcreated.symm.trans h.reparsed)
  have hother (hspan : tpl.NoSpan (args.getD [])) (hbare : base.query = none ∧ base.fragment = none)
      (n : Str) (hn : ∀ v, lookup n (args.getD []) = some v → n ∈ holes tpl.pieces) :
      Url.valuesOf created.rawQuery n =
        valuesIn n (tpl.pairs.flatMap fun p => Url.readPairs (p.rendered (args.getD []))) := by
    have hrendered : renderPath tpl.text (args.getD []) = fillPieces (args.getD []) tpl.pieces :=
      renderPath_readable tpl.readable hnodup hspan.1
    have hparse := h.parsed
    rw [checkedURL, hbase, hpath, hrendered] at hparse
    rw [valuesOf_other h hget hpath hn, CallQuery.valuesOf_checked hauth hbare.1 hbare.2 hparse]
  constructor
  · rintro ⟨hquery, hspan, hbare⟩
    have hfurther (n : Str) (v : Json) := valuesOf_further h hget hpath hspan (n := n) (v := v)
    exact ⟨values_of_sendsQuery hnodup hfurther (hother hspan hbare) hquery,
      names_of_sendsQuery hnodup hfurther hquery, hspan, hbare⟩
  · intro hsafe
    have hfurther (n : Str) (v : Json) := valuesOf_further h hget hpath hsafe.noSpan (n := n) (v := v)
    exact ⟨sendsQuery_of_safe hnodup hfurther (hother hsafe.noSpan hsafe.bare) hsafe, hsafe.noSpan,
      hsafe.bare⟩

theorem queryName_q : Url.QueryName ['q'] ['q'] := ⟨by decide, by decide⟩

def searchQuery : CallQuery where
  path := [.text "/s".toList]
  pairs := [.fixed "v=1".toList, .hole ['q'] "term".toList]
  noMark := by
    intro p hp
    obtain rfl := List.mem_singleton.mp hp
    exact ⟨by decide, by decide⟩
  wellFormed := by
    intro p hp
    simp only [List.mem_cons, List.not_mem_nil, or_false] at hp
    obtain rfl | rfl := hp
    · exact ⟨by decide, by decide, by decide⟩
    · refine ⟨⟨_, queryName_q⟩, ?_⟩
      unfold PlainName
      decide
  readable := by decide

def searchEndpoint : APIEndpoint :=
  ⟨['e'], ['c'], ['s'], [], searchQuery.text, "GET".toList, [], [], [], 1⟩

def searchArgs (term : Str) (more : Params) : Params := ("term".toList, .str term) :: more

def searchRequest (url : Str) : Request := ⟨"GET".toList, url, none, .none⟩

def pageArg : Params := [("page".toList, .str ['2'])]

theorem request_search :
    (executeCall apiEnv (.local []) petsConn searchEndpoint (some (searchArgs "a b/c".toList pageArg))
      apiClient).request = some (searchRequest "http://h/v1/s?page=2&q=a+b%2Fc&v=1".toList) := by
  decide +kernel

theorem noSpan_search (term : Str) : searchQuery.NoSpan (searchArgs term pageArg) := by
  have hterm : NameOnly "term".toList := by decide
  have hpage : NameOnly "page".toList := by decide
  have hnames : ∀ m ∈ searchArgs term pageArg, NameOnly m.1 := by
    intro m hm
    simp only [searchArgs, pageArg, List.mem_cons, List.not_mem_nil, or_false] at hm
    obtain rfl | rfl := hm
    · exact hterm
    · exact hpage
  refine ⟨fun before k v after h => .inl (hnames (k, v) ?_), fun m hm => .inl (hnames m hm)⟩
  rw [h]
  simp

theorem querySafe_search : QuerySafe petBase searchQuery (searchArgs "a b/c".toList pageArg) where
  values := by
    intro name k v hmem hv
    have hk : k = "term".toList := by
      simp only [searchQuery, List.mem_cons, List.not_mem_nil, or_false] at hmem
      obtain h | h := hmem
      · cases h
      · cases h
        rfl
    rw [hk] at hv
    have hterm : lookup "term".toList (searchArgs "a b/c".toList pageArg) = some (.str "a b/c".toList) := by
      decide
    obtain rfl := Option.some.inj (hterm.symm.trans hv)
    exact ⟨by decide, by decide⟩
  names := by
    intro k v hv hfree
    have hmem := mem_of_lookup hv
    simp only [searchArgs, pageArg, List.mem_cons, List.not_mem_nil, or_false] at hmem
    obtain h | h := hmem
    · cases h
      exact absurd (by decide) hfree
    · cases h
      exact .inl (by decide)
  noSpan := noSpan_search _
  bare := ⟨rfl, rfl⟩

theorem sendsQuery_search :
    ∃ created, Url.parse "http://h/v1/s?page=2&q=a+b%2Fc&v=1".toList = some created ∧
      SendsQuery searchQuery (searchArgs "a b/c".toList pageArg) created := by
  have hsome : (Url.parse "http://h/v1/s?page=2&q=a+b%2Fc&v=1".toList).isSome = true := by
    decide +kernel
  obtain ⟨created, hcreated⟩ := Option.isSome_iff_exists.mp hsome
  have hiff := sendsQuery_iff rfl (List.cons_ne_nil _ _) rfl rfl (by decide) request_search hcreated
  exact ⟨created, hcreated, (hiff.mpr querySafe_search).1⟩

theorem not_sendsQuery_of {tpl : CallQuery} {params : Params} {url : Str} (query n : Str)
    (hquery : (Url.parse url).map Url.URL.rawQuery = some query)
    (hne : Url.valuesOf query n ≠ valuesIn n (tpl.read params ++ tpl.further params)) :
    ∃ created, Url.parse url = some created ∧ ¬ SendsQuery tpl params created := by
  obtain ⟨created, hcreated, rfl⟩ := Option.map_eq_some_iff.mp hquery
  exact ⟨created, hcreated, fun h => hne (h n)⟩

/-- An `&` in a value ends it, a `+` becomes a space, and an argument with the name of a fixed
pair replaces it. -/
theorem not_sendsQuery :
    ((executeCall apiEnv (.local []) petsConn searchEndpoint (some (searchArgs "a&b".toList []))
        apiClient).request = some (searchRequest "http://h/v1/s?b=&q=a&v=1".toList) ∧
      ∃ created, Url.parse "http://h/v1/s?b=&q=a&v=1".toList = some created ∧
        ¬ SendsQuery searchQuery (searchArgs "a&b".toList []) created) ∧
    ((executeCall apiEnv (.local []) petsConn searchEndpoint (some (searchArgs "1+1".toList []))
        apiClient).request = some (searchRequest "http://h/v1/s?q=1+1&v=1".toList) ∧
      ∃ created, Url.parse "http://h/v1/s?q=1+1&v=1".toList = some created ∧
        ¬ SendsQuery searchQuery (searchArgs "1+1".toList []) created) ∧
    ((executeCall apiEnv (.local []) petsConn searchEndpoint
        (some (searchArgs ['x'] [(['v'], .str ['2'])])) apiClient).request =
          some (searchRequest "http://h/v1/s?q=x&v=2".toList) ∧
      ∃ created, Url.parse "http://h/v1/s?q=x&v=2".toList = some created ∧
        ¬ SendsQuery searchQuery (searchArgs ['x'] [(['v'], .str ['2'])]) created) :=
  ⟨⟨by decide +kernel,
      not_sendsQuery_of "b=&q=a&v=1".toList ['q'] (by decide +kernel) (by decide +kernel)⟩,
    ⟨by decide +kernel,
      not_sendsQuery_of "q=1+1&v=1".toList ['q'] (by decide +kernel) (by decide +kernel)⟩,
    by decide +kernel,
    not_sendsQuery_of "q=x&v=2".toList ['v'] (by decide +kernel) (by decide +kernel)⟩

end Janus.Gateway
