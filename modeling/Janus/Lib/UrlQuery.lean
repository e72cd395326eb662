import Janus.Lib.UrlSegments

/-!
# Query pairs

A query is read pair by pair. A value that was encoded for a path is read back from a
query up to its first `&`, with a space for each `+`.
-/

namespace Janus.Text

set_option autoImplicit false

theorem splitOn_append_left {sep : Char} {w : Str} (hw : sep ∉ w) {x part : Str} {parts : List Str}
    (hx : splitOn sep x = part :: parts) : splitOn sep (w ++ x) = (w ++ part) :: parts := by
  induction w with
  | nil => exact hx
  | cons c w ih =>
    obtain ⟨hc, hw⟩ := not_or.mp (List.mem_cons.not.mp hw)
    have hne : ¬ c = sep := fun he => hc he.symm
    rw [List.cons_append, splitOn, ih hw]
    simp only [if_neg hne, List.cons_append]

/-- A text that is rewritten character by character is split where it was. -/
theorem splitOn_flatMap {sep : Char} {f : Char → Str} (hsep : f sep = [sep])
    (hf : ∀ c, c ≠ sep → sep ∉ f c) (s : Str) :
    splitOn sep (s.flatMap f) = (splitOn sep s).map (List.flatMap f) := by
  induction s with
  | nil => rfl
  | cons c s ih =>
    obtain ⟨part, parts, hs⟩ := List.exists_cons_of_ne_nil (splitOn_ne_nil sep s)
    rw [hs, List.map_cons] at ih
    rw [List.flatMap_cons]
    by_cases hc : c = sep
    · subst hc
      have hempty : splitOn c (c :: s.flatMap f) = [] :: splitOn c (s.flatMap f) :=
        splitOn_append_sep List.not_mem_nil
      rw [hsep, List.singleton_append, hempty, ih]
      simp [splitOn, hs]
    · rw [splitOn_append_left (hf c hc) ih]
      simp [splitOn, hs, hc]

theorem splitOn_join_flatMap (sep : Char) {parts : List Str} (hne : parts ≠ []) :
    splitOn sep (join [sep] parts) = parts.flatMap (splitOn sep) := by
  induction parts with
  | nil => exact absurd rfl hne
  | cons s parts ih =>
    cases parts with
    | nil => simp [join]
    | cons t ts =>
      have hjoin : join [sep] (s :: t :: ts) = s ++ sep :: join [sep] (t :: ts) := by simp [join]
      rw [hjoin, splitOn_append_cons, ih (List.cons_ne_nil _ _)]
      rfl

end Janus.Text

namespace Janus.Url

set_option autoImplicit false

/-- One part of a query, where it is well formed. -/
def readPair (part : Str) : Option (Str × Str) :=
  if part.contains ';' || part = [] then none
  else
    (queryUnescape (cutAt '=' part).1).bind fun k =>
      (queryUnescape (cutAt '=' part).2).map fun v => (k, v)

def readPairs (query : Str) : List (Str × Str) := (Text.splitOn '&' query).filterMap readPair

theorem parseQuery_eq (query : Str) :
    parseQuery query = (readPairs query).foldl (fun vs p => addValue vs p.1 p.2) [] := by
  unfold parseQuery readPairs
  rw [List.foldl_filterMap]
  congr 1
  funext vs part
  unfold readPair
  split
  · rfl
  · obtain ⟨name, value⟩ := cutAt '=' part
    dsimp only
    cases queryUnescape name with
    | none => rfl
    | some k => cases queryUnescape value <;> rfl

theorem valuesOf_eq (query n : Str) :
    valuesOf query n = ((readPairs query).filter fun p => p.1 = n).map Prod.snd := by
  have hnil : (lookup n ([] : Values)).getD [] = [] := rfl
  rw [valuesOf, parseQuery_eq, lookup_foldl_addValue, hnil, List.nil_append]

theorem readPairs_join {parts : List Str} (hne : parts ≠ []) :
    readPairs (Text.join ['&'] parts) = parts.flatMap readPairs := by
  unfold readPairs
  rw [Text.splitOn_join_flatMap '&' hne, List.filterMap_flatMap]

theorem readPairs_single {part : Str} {p : Str × Str} (hamp : '&' ∉ part) (h : readPair part = some p) :
    readPairs part = [p] := by
  rw [readPairs, Text.splitOn_of_notMem hamp, List.filterMap_cons, h]
  rfl

theorem queryUnescape_plain {s : Str} (h : ∀ c ∈ s, c ≠ '%' ∧ c ≠ '+') : queryUnescape s = some s := by
  have hbytes : unescape .queryComponent s = some (Text.bytes s) := by
    induction s with
    | nil => rfl
    | cons c s ih =>
      obtain ⟨⟨hpct, hplus⟩, hs⟩ := List.forall_mem_cons.mp h
      rw [unescape]
      · simp [hplus, ih hs, Text.bytes]
      · intro _ _ _ he
        exact absurd he hpct
      · intro he
        exact absurd he hpct
  rw [queryUnescape, hbytes, Option.map_some, Text.ofBytes_bytes]

def plusToSpace (c : Char) : Char := if c = '+' then ' ' else c

theorem unescape_pathByte {b : Nat} (hb : b < 256) (s : Str) :
    unescape .queryComponent (escapeByte .pathSegment b ++ s) =
      (unescape .queryComponent s).map fun bs => (if b = 0x2B then 0x20 else b) :: bs := by
  by_cases hplus : b = 0x2B
  · subst hplus
    have hbare : escapeByte .pathSegment 0x2B = ['+'] := by decide
    rw [hbare, if_pos rfl]
    simp [unescape]
  · rw [if_neg hplus]
    unfold escapeByte
    rw [if_neg (by simp)]
    split
    · exact unescape_encodedByte (by decide) (by decide) hb s
    · rename_i hesc
      obtain ⟨hlt, hpct, _⟩ := bare_byte b .pathSegment (by simpa using hesc)
      exact unescape_bareByte (by decide) (by decide) hlt hpct (fun _ => hplus) s

theorem unescape_pathBytes {bs : List Nat} (hb : ∀ b ∈ bs, b < 256) :
    unescape .queryComponent (escape .pathSegment bs) =
      some (bs.map fun b => if b = 0x2B then 0x20 else b) := by
  induction bs with
  | nil => rfl
  | cons b bs ih =>
    obtain ⟨hlt, hrest⟩ := List.forall_mem_cons.mp hb
    have htail := ih hrest
    unfold escape at htail ⊢
    rw [List.flatMap_cons, unescape_pathByte hlt, htail]
    rfl

theorem utf8_plusToSpace (c : Char) :
    (Text.utf8 c).map (fun b => if b = 0x2B then 0x20 else b) = Text.utf8 (plusToSpace c) := by
  by_cases hc : c = '+'
  · rw [hc]
    decide
  · rw [plusToSpace, if_neg hc]
    have hkeep : ∀ b ∈ Text.utf8 c, (if b = 0x2B then 0x20 else b) = b := by
      intro b hb
      rw [if_neg]
      rintro rfl
      have hnat := Text.utf8_ascii hb (by decide)
      exact hc (Char.toNat_inj.mp hnat.symm)
    rw [List.map_congr_left hkeep, List.map_id']

theorem queryUnescape_pathEscape (s : Str) :
    queryUnescape (pathEscape s) = some (s.map plusToSpace) := by
  have hbytes : (Text.bytes s).map (fun b => if b = 0x2B then 0x20 else b) =
      Text.bytes (s.map plusToSpace) := by
    unfold Text.bytes
    rw [List.map_flatMap, List.flatMap_map]
    exact List.flatMap_congr fun c _ => utf8_plusToSpace c
  rw [queryUnescape, pathEscape, unescape_pathBytes fun b hb => Text.bytes_lt hb, hbytes,
    Option.map_some, Text.ofBytes_bytes]

theorem pathEscape_append (s t : Str) : pathEscape (s ++ t) = pathEscape s ++ pathEscape t :=
  escape_append .pathSegment s t

theorem splitOn_pathEscape (s : Str) :
    Text.splitOn '&' (pathEscape s) = (Text.splitOn '&' s).map pathEscape := by
  have hflat (t : Str) : pathEscape t = t.flatMap fun c => escape .pathSegment (Text.utf8 c) := by
    simp [pathEscape, escape, Text.bytes, List.flatMap_assoc]
  have hother : ∀ c, c ≠ '&' → '&' ∉ escape .pathSegment (Text.utf8 c) := by
    intro c hc hm
    have hone : Text.bytes [c] = Text.utf8 c := by simp [Text.bytes]
    rw [← hone, mem_escape_iff (by decide) (by decide)] at hm
    exact hc (List.mem_singleton.mp hm).symm
  rw [hflat, Text.splitOn_flatMap (by decide) hother]
  exact List.map_congr_left fun t _ => (hflat t).symm

/-- The value of a pair that was encoded for a path. -/
theorem readPair_pathEscape {t : Str} {p : Str × Str} (h : readPair (pathEscape t) = some p) :
    ∃ b : Str, (∀ c ∈ b, c ∈ t) ∧ p.2 = b.map plusToSpace := by
  unfold readPair at h
  split at h
  · cases h
  · obtain ⟨k, _, hpair⟩ := Option.bind_eq_some_iff.mp h
    obtain ⟨v, hv, rfl⟩ := Option.map_eq_some_iff.mp hpair
    cases hcut : Text.cut '=' t with
    | none =>
      have hno : '=' ∉ pathEscape t := by
        rw [pathEscape, mem_escape_iff (by decide) (by decide)]
        exact notMem_of_cut_none hcut
      have hnone : Text.cut '=' (pathEscape t) = none := by
        cases hc : Text.cut '=' (pathEscape t) with
        | none => rfl
        | some q =>
          refine absurd ?_ hno
          rw [(cut_eq_some (a := q.1) (b := q.2) hc).1]
          simp
      rw [cutAt, hnone] at hv
      exact ⟨[], by simp, (Option.some.inj hv).symm⟩
    | some q =>
      obtain ⟨hsplit, ha⟩ := cut_eq_some (a := q.1) (b := q.2) hcut
      have hmark : pathEscape ['='] = ['='] := by decide
      have hescape : pathEscape t = pathEscape q.1 ++ '=' :: pathEscape q.2 := by
        rw [hsplit, ← List.singleton_append, pathEscape_append, pathEscape_append, hmark,
          List.singleton_append]
      have hno : '=' ∉ pathEscape q.1 := by
        rwa [pathEscape, mem_escape_iff (by decide) (by decide)]
      rw [hescape, cutAt, cut_append hno, Option.getD_some, queryUnescape_pathEscape] at hv
      refine ⟨q.2, fun c hc => ?_, (Option.some.inj hv).symm⟩
      rw [hsplit]
      exact List.mem_append_right _ (List.mem_cons_of_mem _ hc)

/-- A name that is written as it stands in a query. -/
structure QueryName (name n : Str) : Prop where
  decoded : queryUnescape name = some n
  noMark : ∀ c ∈ name, c ∉ "&;=#".toList

namespace QueryName

variable {name n : Str} (h : QueryName name n)
include h

theorem notMem {c : Char} (hc : c ∈ "&;=#".toList) : c ∉ name := fun hm => h.noMark c hm hc

theorem readPair_value (t : Str) :
    readPair (name ++ '=' :: pathEscape t) = some (n, t.map plusToSpace) := by
  have hsemi : (name ++ '=' :: pathEscape t).contains ';' = false := by
    have hname := h.notMem (c := ';') (by decide)
    have hvalue : ';' ∉ pathEscape t := notMem_escape (by decide) (by decide) _
    simp [hname, hvalue]
  unfold readPair
  rw [hsemi, if_neg (by simp), cutAt, cut_append (h.notMem (by decide))]
  rw [Option.getD_some, h.decoded, queryUnescape_pathEscape]
  rfl

theorem splitOn_value (t : Str) {part : Str} {parts : List Str}
    (ht : Text.splitOn '&' t = part :: parts) :
    Text.splitOn '&' (name ++ '=' :: pathEscape t) =
      (name ++ '=' :: pathEscape part) :: parts.map pathEscape := by
  have hleft : '&' ∉ name ++ ['='] := by simp [h.notMem (c := '&') (by decide)]
  have hsplit := Text.splitOn_append_left hleft (x := pathEscape t) (by rw [splitOn_pathEscape, ht]; rfl)
  simpa using hsplit

/-- A value without `&` and `+` is read as it was. -/
theorem readPairs_value {t : Str} (hamp : '&' ∉ t) (hplus : '+' ∉ t) :
    readPairs (name ++ '=' :: pathEscape t) = [(n, t)] := by
  have hkeep : t.map plusToSpace = t := by
    refine (List.map_congr_left fun c hc => ?_).trans (List.map_id' t)
    rw [plusToSpace, if_neg]
    rintro rfl
    exact hplus hc
  rw [readPairs, h.splitOn_value t (Text.splitOn_of_notMem hamp), List.map_nil, List.filterMap_cons,
    h.readPair_value, hkeep]
  rfl

/-- Whatever a value is read as, no `&` and no `+` is in it. -/
theorem notMem_readPairs_value {t : Str} {p : Str × Str}
    (hp : p ∈ readPairs (name ++ '=' :: pathEscape t)) : '&' ∉ p.2 ∧ '+' ∉ p.2 := by
  have hclean {b : Str} (hb : '&' ∉ b) : '&' ∉ b.map plusToSpace ∧ '+' ∉ b.map plusToSpace := by
    refine ⟨fun hm => ?_, fun hm => ?_⟩
    · obtain ⟨c, hc, he⟩ := List.mem_map.mp hm
      unfold plusToSpace at he
      split at he
      · cases he
      · exact hb (he ▸ hc)
    · obtain ⟨c, _, he⟩ := List.mem_map.mp hm
      unfold plusToSpace at he
      split at he
      · cases he
      · rename_i hne
        exact hne he
  obtain ⟨part, parts, ht⟩ := List.exists_cons_of_ne_nil (Text.splitOn_ne_nil '&' t)
  have hsep : ∀ s ∈ part :: parts, '&' ∉ s := by
    rw [← ht]
    exact fun s hs => Text.notMem_of_mem_splitOn hs
  obtain ⟨hpart, hparts⟩ := List.forall_mem_cons.mp hsep
  rw [readPairs, h.splitOn_value t ht] at hp
  obtain ⟨raw, hraw, hread⟩ := List.mem_filterMap.mp hp
  obtain rfl | hraw := List.mem_cons.mp hraw
  · rw [h.readPair_value] at hread
    cases hread
    exact hclean hpart
  · obtain ⟨s, hs, rfl⟩ := List.mem_map.mp hraw
    obtain ⟨b, hb, hvalue⟩ := readPair_pathEscape hread
    rw [hvalue]
    exact hclean fun hm => hparts s hs (hb _ hm)

end QueryName

end Janus.Url
