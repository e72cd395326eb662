import Janus.Lib.GoString

/-!
# Queries of bytes

Query strings and their values as byte strings. A percent-encoded value is any
sequence of bytes, and what is written is read back byte for byte (`parse_encode`).
-/

namespace Janus.ByteQuery

set_option autoImplicit false

def byte (c : Char) : Byte := Fin.ofNat 256 c.toNat

def unhex (b : Byte) : Option Nat := Url.unhex (Char.ofNat b)

/-- `url.QueryUnescape`. -/
def unescape : GoString → Option GoString
  | [] => some []
  | c :: s =>
    if c = byte '%' then
      match s with
      | a :: b :: rest =>
        match unhex a, unhex b with
        | some x, some y => (unescape rest).map (Fin.ofNat 256 (16 * x + y) :: ·)
        | _, _ => none
      | _ => none
    else (unescape s).map ((if c = byte '+' then byte ' ' else c) :: ·)

def escapeByte (b : Byte) : GoString := GoString.ofText (Url.escapeByte .queryComponent b)

/-- `url.QueryEscape`. -/
def escape (s : GoString) : GoString := s.flatMap escapeByte

def cutAt (sep : Byte) (s : GoString) : GoString × GoString :=
  (s.takeWhile (· ≠ sep), (s.dropWhile (· ≠ sep)).tail)

/-- The values of a query, those of one key in order. -/
abbrev Values := List (GoString × GoString)

def Values.get (vs : Values) (k : GoString) : List GoString :=
  vs.filterMap fun p => if p.1 = k then some p.2 else none

def Values.sortedKeys (vs : Values) : List GoString := (vs.map Prod.fst).dedup.insertionSort (· ≤ ·)

/-- One part of a query: none where it is malformed, and no pair where it is empty. -/
def readPart (part : GoString) : Option Values :=
  if byte ';' ∈ part then none
  else if part = [] then some []
  else
    (unescape (cutAt (byte '=') part).1).bind fun k =>
      (unescape (cutAt (byte '=') part).2).map fun v => [(k, v)]

/-- `url.ParseQuery`, none where it returns an error. -/
def parseQuery (query : GoString) : Option Values :=
  ((query.splitOn (byte '&')).mapM readPart).map List.flatten

def pairText (k v : GoString) : GoString := escape k ++ byte '=' :: escape v

/-- `Values.Encode`. -/
def Values.encode (vs : Values) : GoString :=
  [byte '&'].intercalate (vs.sortedKeys.flatMap fun k => (vs.get k).map (pairText k))

def separators : List Byte := [byte '&', byte '=', byte ';']

def unhexPair (a b : Byte) : Option Byte :=
  (unhex a).bind fun x => (unhex b).map fun y => Fin.ofNat 256 (16 * x + y)

/-- How a byte is written: bare, as a plus sign, or in hexadecimal. -/
theorem escapeByte_cases : ∀ b : Byte,
    (escapeByte b = [b] ∧ b ≠ byte '%' ∧ b ≠ byte '+') ∨
    (escapeByte b = [byte '+'] ∧ b = byte ' ') ∨
    (escapeByte b = [byte '%', byte (Url.upperHex (b / 16)), byte (Url.upperHex (b % 16))] ∧
      unhexPair (byte (Url.upperHex (b / 16))) (byte (Url.upperHex (b % 16))) = some b) := by
  decide +kernel

theorem escapeByte_separators : ∀ b : Byte, ∀ c ∈ escapeByte b, c ∉ separators := by
  decide +kernel

theorem unescape_bare {c : Byte} (h : c ≠ byte '%') (s : GoString) :
    unescape (c :: s) = (unescape s).map ((if c = byte '+' then byte ' ' else c) :: ·) := by
  rw [unescape.eq_def]
  exact if_neg h

theorem unescape_pair {a b c : Byte} (h : unhexPair a b = some c) (s : GoString) :
    unescape (byte '%' :: a :: b :: s) = (unescape s).map (c :: ·) := by
  obtain ⟨x, hx, hmap⟩ := Option.bind_eq_some_iff.mp h
  obtain ⟨y, hy, rfl⟩ := Option.map_eq_some_iff.mp hmap
  rw [unescape, if_pos rfl, hx, hy]

theorem unescape_escapeByte (b : Byte) (s : GoString) :
    unescape (escapeByte b ++ s) = (unescape s).map (b :: ·) := by
  rcases escapeByte_cases b with ⟨hb, hpct, hplus⟩ | ⟨hb, rfl⟩ | ⟨hb, hpair⟩
  · rw [hb, List.singleton_append, unescape_bare hpct, if_neg hplus]
  · rw [hb, List.singleton_append, unescape_bare (by decide), if_pos rfl]
  · rw [hb]
    exact unescape_pair hpair s

theorem unescape_escape (s : GoString) : unescape (escape s) = some s := by
  induction s with
  | nil => rfl
  | cons b s ih =>
    have hs : unescape (escapeByte b ++ escape s) = some (b :: s) := by
      rw [unescape_escapeByte, ih, Option.map_some]
    exact hs

theorem notMem_escape {c : Byte} (hc : c ∈ separators) (s : GoString) : c ∉ escape s := by
  intro hm
  obtain ⟨b, _, hb⟩ := List.mem_flatMap.mp hm
  exact escapeByte_separators b c hb hc

theorem cutAt_append {sep : Byte} {s : GoString} (h : sep ∉ s) (t : GoString) :
    cutAt sep (s ++ sep :: t) = (s, t) := by
  have hall : ∀ c ∈ s, (decide (c ≠ sep)) = true := by
    intro c hc
    exact decide_eq_true fun he => h (he ▸ hc)
  rw [cutAt, List.takeWhile_append_of_pos hall, List.dropWhile_append_of_pos hall]
  simp

theorem readPart_pairText (k v : GoString) : readPart (pairText k v) = some [(k, v)] := by
  have hcut : cutAt (byte '=') (pairText k v) = (escape k, escape v) :=
    cutAt_append (notMem_escape (by decide) k) (escape v)
  have hsemi : byte ';' ∉ pairText k v := by
    rw [pairText, List.mem_append, List.mem_cons]
    rintro (h | h | h)
    · exact notMem_escape (by decide) k h
    · exact absurd h (by decide)
    · exact notMem_escape (by decide) v h
  rw [readPart, if_neg hsemi, if_neg (by simp [pairText]), hcut]
  simp [unescape_escape]

theorem mapM_readPart (ps : Values) :
    (ps.map fun p => pairText p.1 p.2).mapM readPart = some (ps.map fun p => [p]) := by
  induction ps with
  | nil => rfl
  | cons p ps ih => simp [List.mapM_cons, readPart_pairText, ih]

/-- The pairs in the order in which they are written. -/
def Values.sorted (vs : Values) : Values :=
  vs.sortedKeys.flatMap fun k => (vs.get k).map fun v => (k, v)

theorem encode_eq (vs : Values) :
    vs.encode = [byte '&'].intercalate (vs.sorted.map fun p => pairText p.1 p.2) := by
  simp [Values.encode, Values.sorted, List.map_flatMap, Function.comp_def]

theorem amp_notMem_pairText (k v : GoString) : byte '&' ∉ pairText k v := by
  rw [pairText, List.mem_append, List.mem_cons]
  rintro (h | h | h)
  · exact notMem_escape (by decide) k h
  · exact absurd h (by decide)
  · exact notMem_escape (by decide) v h

/-- A query that is written is read back into its pairs. -/
theorem parseQuery_encode (vs : Values) : parseQuery vs.encode = some vs.sorted := by
  rw [encode_eq, parseQuery]
  cases hs : vs.sorted with
  | nil => rfl
  | cons p ps =>
    have hamp : ∀ l ∈ (p :: ps).map fun p => pairText p.1 p.2, byte '&' ∉ l := by
      intro l hl
      obtain ⟨q, _, rfl⟩ := List.mem_map.mp hl
      exact amp_notMem_pairText q.1 q.2
    rw [List.splitOn_intercalate _ hamp (by simp), mapM_readPart, Option.map_some]
    simp [List.flatten_eq_flatMap, List.flatMap_map]

theorem mem_sortedKeys {vs : Values} {k : GoString} : k ∈ vs.sortedKeys ↔ ∃ v, (k, v) ∈ vs := by
  rw [Values.sortedKeys, (List.perm_insertionSort _ _).mem_iff, List.mem_dedup]
  simp

theorem mem_get {vs : Values} {k v : GoString} : v ∈ vs.get k ↔ (k, v) ∈ vs := by
  rw [Values.get, List.mem_filterMap]
  constructor
  · rintro ⟨⟨j, w⟩, hm, h⟩
    split at h
    · rename_i hj
      cases h
      cases hj
      exact hm
    · cases h
  · intro hm
    exact ⟨(k, v), hm, if_pos rfl⟩

theorem nodup_sortedKeys (vs : Values) : vs.sortedKeys.Nodup :=
  (List.perm_insertionSort _ _).nodup_iff.mpr (List.nodup_dedup _)

theorem sortedKeys_congr {vs ws : Values} (h : ∀ k, (∃ v, (k, v) ∈ vs) ↔ ∃ v, (k, v) ∈ ws) :
    vs.sortedKeys = ws.sortedKeys := by
  have hperm : vs.sortedKeys.Perm ws.sortedKeys := by
    apply (List.perm_ext_iff_of_nodup (nodup_sortedKeys vs) (nodup_sortedKeys ws)).mpr
    intro k
    rw [mem_sortedKeys, mem_sortedKeys]
    exact h k
  exact hperm.eq_of_pairwise (fun _ _ _ _ => le_antisymm) (List.pairwise_insertionSort _ _)
    (List.pairwise_insertionSort _ _)

/-- The written query depends on the values of each key only. -/
theorem encode_congr {vs ws : Values} (h : ∀ k, vs.get k = ws.get k) : vs.encode = ws.encode := by
  have hkeys : vs.sortedKeys = ws.sortedKeys := by
    apply sortedKeys_congr
    intro k
    simp only [← mem_get, h]
  rw [Values.encode, Values.encode, hkeys]
  simp only [h]

theorem get_append (vs ws : Values) (k : GoString) :
    Values.get (vs ++ ws) k = vs.get k ++ ws.get k :=
  List.filterMap_append

theorem get_sorted (vs : Values) (k : GoString) : vs.sorted.get k = vs.get k := by
  have hkey (j : GoString) (xs : List GoString) :
      Values.get (xs.map fun v => (j, v)) k = if j = k then xs else [] := by
    by_cases hj : j = k
    · simp [Values.get, hj, List.filterMap_map]
    · simp [Values.get, hj, List.filterMap_map]
  have hall : ∀ ks : List GoString, ks.Nodup →
      Values.get (ks.flatMap fun j => (vs.get j).map fun v => (j, v)) k =
        if k ∈ ks then vs.get k else [] := by
    intro ks hks
    induction ks with
    | nil => rfl
    | cons j ks ih =>
      obtain ⟨hj, hrest⟩ := List.nodup_cons.mp hks
      rw [List.flatMap_cons, get_append, hkey, ih hrest]
      by_cases hjk : j = k
      · subst hjk
        simp [hj]
      · have hkj : ¬ k = j := fun he => hjk he.symm
        simp [hjk, hkj]
  rw [Values.sorted, hall _ (nodup_sortedKeys vs)]
  split
  · rfl
  · rename_i hk
    cases hg : vs.get k with
    | nil => rfl
    | cons v xs => exact absurd (mem_sortedKeys.mpr ⟨v, mem_get.mp (hg ▸ List.mem_cons_self)⟩) hk

end Janus.ByteQuery
