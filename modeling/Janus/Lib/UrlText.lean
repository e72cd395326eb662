import Janus.Lib.Url

/-!
# Reading encoded text back

UTF-8 bytes are read back into the text they encode, percent-decoding undoes
percent-encoding, and a query string that is written from values is read back into
them (`valuesOf_encode`).
-/

namespace Janus.Text

set_option autoImplicit false

theorem ofNat_toNat_of_eq {c : Char} {n : Nat} (h : n = c.toNat) : Char.ofNat n = c := by
  rw [h, Char.ofNat_toNat]

theorem toNat_cases (c : Char) : c.toNat < 0xD800 ∨ (0xDFFF < c.toNat ∧ c.toNat < 0x110000) := by
  exact c.valid

theorem ofBytes_one {a : Nat} (ha : a < 0x80) (bs : List Nat) :
    ofBytes (a :: bs) = Char.ofNat a :: ofBytes bs := by
  match bs with
  | [] => simp [ofBytes, ha]
  | [b] => simp [ofBytes, ha]
  | [b, c] => simp [ofBytes, ha]
  | b :: c :: d :: rest => simp [ofBytes, ha]

theorem ofBytes_two {a b : Nat} (ha : 0xC2 ≤ a) (ha' : a < 0xE0) (hb : 0x80 ≤ b) (hb' : b < 0xC0)
    (bs : List Nat) :
    ofBytes (a :: b :: bs) = Char.ofNat ((a - 0xC0) * 64 + (b - 0x80)) :: ofBytes bs := by
  have h1 : ¬ a < 0x80 := by omega
  match bs with
  | [] => simp [ofBytes, h1, ha, ha', isContinuation, hb, hb']
  | [c] => simp [ofBytes, h1, ha, ha', isContinuation, hb, hb']
  | c :: d :: rest => simp [ofBytes, h1, ha, ha', isContinuation, hb, hb']

theorem ofBytes_three {a b c : Nat} (h : ofBytes.wide a b c = true) (bs : List Nat) :
    ofBytes (a :: b :: c :: bs) =
      Char.ofNat ((a - 0xE0) * 4096 + (b - 0x80) * 64 + (c - 0x80)) :: ofBytes bs := by
  have ha : 0xE0 ≤ a := by
    simp only [ofBytes.wide, Bool.and_eq_true, decide_eq_true_eq] at h
    exact h.1.1.1.1.1
  have h1 : ¬ a < 0x80 := by omega
  have h2 : ¬ a < 0xE0 := by omega
  match bs with
  | [] => simp [ofBytes, h1, h2, h]
  | d :: rest => simp [ofBytes, h1, h2, h]

theorem ofBytes_four {a b c d : Nat} (h : ofBytes.astral a b c d = true) (bs : List Nat) :
    ofBytes (a :: b :: c :: d :: bs) =
      Char.ofNat ((a - 0xF0) * 262144 + (b - 0x80) * 4096 + (c - 0x80) * 64 + (d - 0x80)) ::
        ofBytes bs := by
  have ha : 0xF0 ≤ a := by
    simp only [ofBytes.astral, Bool.and_eq_true, decide_eq_true_eq] at h
    exact h.1.1.1.1.1.1
  have h1 : ¬ a < 0x80 := by omega
  have h2 : ¬ a < 0xE0 := by omega
  have h3 : ofBytes.wide a b c = false := by
    have hlt : ¬ a < 0xF0 := by omega
    simp [ofBytes.wide, hlt]
  simp [ofBytes, h1, h2, h3, h]

theorem ofBytes_utf8 (c : Char) (bs : List Nat) : ofBytes (utf8 c ++ bs) = c :: ofBytes bs := by
  have hvalid := toNat_cases c
  unfold utf8
  dsimp only
  split
  · rename_i h
    rw [List.cons_append, List.nil_append, ofBytes_one h, Char.ofNat_toNat]
  · split
    · rw [List.cons_append, List.cons_append, List.nil_append,
        ofBytes_two (by omega) (by omega) (by omega) (by omega), ofNat_toNat_of_eq]
      omega
    · split
      · have hw : ofBytes.wide (0xE0 + c.toNat / 4096) (0x80 + c.toNat / 64 % 64) (0x80 + c.toNat % 64) =
            true := by
          simp only [ofBytes.wide, isContinuation, Bool.and_eq_true, Bool.or_eq_true,
            decide_eq_true_eq, ne_eq]
          omega
        rw [List.cons_append, List.cons_append, List.cons_append, List.nil_append, ofBytes_three hw,
          ofNat_toNat_of_eq]
        omega
      · have hw : ofBytes.astral (0xF0 + c.toNat / 262144) (0x80 + c.toNat / 4096 % 64)
            (0x80 + c.toNat / 64 % 64) (0x80 + c.toNat % 64) = true := by
          simp only [ofBytes.astral, isContinuation, Bool.and_eq_true, Bool.or_eq_true,
            decide_eq_true_eq, ne_eq]
          omega
        rw [List.cons_append, List.cons_append, List.cons_append, List.cons_append, List.nil_append,
          ofBytes_four hw, ofNat_toNat_of_eq]
        omega

/-- The bytes of a text are read back into it. -/
theorem ofBytes_bytes (s : Str) : ofBytes (bytes s) = s := by
  induction s with
  | nil => rfl
  | cons c s ih =>
    rw [bytes, List.flatMap_cons, ofBytes_utf8]
    exact congrArg _ ih

theorem utf8_lt {c : Char} {b : Nat} (h : b ∈ utf8 c) : b < 256 := by
  have hvalid := toNat_cases c
  unfold utf8 at h
  dsimp only at h
  split_ifs at h <;> simp only [List.mem_cons, List.not_mem_nil, or_false] at h <;> omega

/-- A byte of ASCII encodes its own character. -/
theorem utf8_ascii {c : Char} {b : Nat} (h : b ∈ utf8 c) (hb : b < 128) : b = c.toNat := by
  unfold utf8 at h
  dsimp only at h
  split_ifs at h <;> simp only [List.mem_cons, List.not_mem_nil, or_false] at h <;> omega

theorem bytes_lt {s : Str} {b : Nat} (h : b ∈ bytes s) : b < 256 := by
  obtain ⟨c, _, hc⟩ := List.mem_flatMap.mp h
  exact utf8_lt hc

end Janus.Text

namespace Janus.Url

set_option autoImplicit false

theorem unhex_upperHex : ∀ n < 16, unhex (upperHex n) = some n := by decide

theorem isOneOf_iff (b : Nat) (s : String) : isOneOf b s = true ↔ ∃ c ∈ s.toList, c.toNat = b := by
  simp [isOneOf]

/-- What stands unencoded in a component is an ASCII character without a meaning of its
own there. -/
theorem bare_byte (b : Nat) (mode : Mode) (h : shouldEscape b mode = false) :
    b < 128 ∧ b ≠ 0x25 ∧ (mode = .queryComponent → b ≠ 0x2B) := by
  have hof {s : String} (hs : (s.toList.all fun c => c.toNat < 128 && c.toNat != 0x25) = true)
      (hb : isOneOf b s = true) : b < 128 ∧ b ≠ 0x25 := by
    obtain ⟨c, hc, rfl⟩ := (isOneOf_iff b s).mp hb
    simpa using List.all_eq_true.mp hs c hc
  unfold shouldEscape at h
  split at h
  · rename_i halnum
    simp only [isAlnum, Bool.or_eq_true, Bool.and_eq_true, decide_eq_true_eq] at halnum
    omega
  split at h
  · rename_i hhost
    simp only [Bool.and_eq_true, Bool.or_eq_true, decide_eq_true_eq] at hhost
    obtain ⟨hmode, hb⟩ := hhost
    obtain ⟨hlt, hne⟩ := hof rfl hb
    refine ⟨hlt, hne, ?_⟩
    rintro rfl
    simp at hmode
  split at h
  · rename_i hb
    obtain ⟨hlt, hne⟩ := hof rfl hb
    refine ⟨hlt, hne, fun _ => ?_⟩
    rintro rfl
    revert hb
    decide
  split at h
  · rename_i hb
    obtain ⟨hlt, hne⟩ := hof rfl hb
    refine ⟨hlt, hne, ?_⟩
    rintro rfl
    cases h
  split at h
  · rename_i hfrag
    simp only [Bool.and_eq_true, decide_eq_true_eq] at hfrag
    obtain ⟨rfl, hb⟩ := hfrag
    obtain ⟨hlt, hne⟩ := hof rfl hb
    refine ⟨hlt, hne, ?_⟩
    intro hq
    cases hq
  · cases h

theorem toNat_ofNat_ascii {b : Nat} (h : b < 128) : (Char.ofNat b).toNat = b := by
  have hall : ∀ n < 128, (Char.ofNat n).toNat = n := by decide
  exact hall b h

/-- The decoder takes a plus sign as the encoder writes it, and any encoded byte. -/
structure Reads (dec enc : Mode) : Prop where
  query : dec = .queryComponent ↔ enc = .queryComponent
  not_host : dec ≠ .host
  not_zone : dec ≠ .zone

theorem unescape_encodedByte {dec : Mode} (hhost : dec ≠ .host) (hzone : dec ≠ .zone) {b : Nat}
    (hb : b < 256) (s : Str) :
    unescape dec ('%' :: upperHex (b / 16) :: upperHex (b % 16) :: s) =
      (unescape dec s).map fun bs => b :: bs := by
  have hhi := unhex_upperHex (b / 16) (by omega)
  have hlo := unhex_upperHex (b % 16) (by omega)
  have hval : 16 * (b / 16) + b % 16 = b := by omega
  have hok : badEscape dec b = false := by
    simp [badEscape, hhost, hzone]
  simp only [unescape, hhi, hlo, hval, hok]
  rfl

theorem unescape_bareByte {dec : Mode} (hhost : dec ≠ .host) (hzone : dec ≠ .zone) {b : Nat}
    (hlt : b < 128) (hpct : b ≠ 0x25) (hplus : dec = .queryComponent → b ≠ 0x2B) (s : Str) :
    unescape dec (Char.ofNat b :: s) = (unescape dec s).map fun bs => b :: bs := by
  have hnat := toNat_ofNat_ascii hlt
  have hne : Char.ofNat b ≠ '%' := by
    intro he
    rw [he] at hnat
    exact hpct hnat.symm
  have hnp : ¬ (dec = .queryComponent ∧ Char.ofNat b = '+') := by
    rintro ⟨hm, he⟩
    rw [he] at hnat
    exact hplus hm hnat.symm
  have hutf : Text.utf8 (Char.ofNat b) = [b] := by
    simp [Text.utf8, hnat, hlt]
  rw [unescape]
  · simp [hnp, hhost, hzone, hutf]
  · intro _ _ _ he
    exact absurd he hne
  · intro he
    exact absurd he hne

/-- Decoding undoes the encoding of one byte. -/
theorem unescape_escapeByte {dec enc : Mode} (hr : Reads dec enc) {b : Nat} (hb : b < 256) (s : Str) :
    unescape dec (escapeByte enc b ++ s) = (unescape dec s).map fun bs => b :: bs := by
  unfold escapeByte
  split
  · rename_i hsp
    simp only [Bool.and_eq_true, decide_eq_true_eq] at hsp
    obtain ⟨henc, rfl⟩ := hsp
    rw [hr.query.mpr henc]
    rfl
  · split
    · exact unescape_encodedByte hr.not_host hr.not_zone hb s
    · rename_i hesc
      obtain ⟨hlt, hpct, hplus⟩ := bare_byte b enc (by simpa using hesc)
      exact unescape_bareByte hr.not_host hr.not_zone hlt hpct (fun hm => hplus (hr.query.mp hm)) s

theorem upperHex_mem (n : Nat) : upperHex n ∈ "+%0123456789ABCDEF".toList := by
  rw [upperHex, List.getD_eq_getElem?_getD]
  cases h : "0123456789ABCDEF".toList[n]? with
  | none => simp
  | some d => exact List.mem_cons_of_mem _ (List.mem_cons_of_mem _ (List.mem_of_getElem? h))

/-- A character that has to be encoded, and that encoding does not itself produce, is not
in an encoded text. -/
theorem notMem_escape {mode : Mode} {c : Char} (hc : c ∉ "+%0123456789ABCDEF".toList)
    (hesc : shouldEscape c.toNat mode = true) (bs : List Nat) : c ∉ escape mode bs := by
  intro h
  obtain ⟨b, hmem, hcb⟩ := List.mem_flatMap.mp h
  unfold escapeByte at hcb
  split at hcb
  · rw [List.mem_singleton.mp hcb] at hc
    exact hc (by simp)
  · split at hcb
    · simp only [List.mem_cons, List.not_mem_nil, or_false] at hcb
      rcases hcb with rfl | rfl | rfl
      · exact hc (by simp)
      · exact hc (upperHex_mem _)
      · exact hc (upperHex_mem _)
    · rename_i hno
      have hbare : shouldEscape b mode = false := by simpa using hno
      have hlt := (bare_byte b mode hbare).1
      rw [List.mem_singleton.mp hcb, toNat_ofNat_ascii hlt, hbare] at hesc
      cases hesc

/-- A character that stands bare in a component is in the encoded text where it is in the text. -/
theorem mem_escape_iff {mode : Mode} {c : Char} (hc : c ∉ "+%0123456789ABCDEF".toList)
    (hbare : shouldEscape c.toNat mode = false) (s : Str) :
    c ∈ escape mode (Text.bytes s) ↔ c ∈ s := by
  constructor
  · intro h
    obtain ⟨b, hb, hcb⟩ := List.mem_flatMap.mp h
    obtain ⟨d, hd, hbd⟩ := List.mem_flatMap.mp hb
    unfold escapeByte at hcb
    split at hcb
    · rw [List.mem_singleton.mp hcb] at hc
      exact absurd (by simp) hc
    · split at hcb
      · simp only [List.mem_cons, List.not_mem_nil, or_false] at hcb
        rcases hcb with rfl | rfl | rfl
        · exact absurd (by simp) hc
        · exact absurd (upperHex_mem _) hc
        · exact absurd (upperHex_mem _) hc
      · rename_i hno
        have hlt := (bare_byte b mode (by simpa using hno)).1
        rw [List.mem_singleton.mp hcb, Text.utf8_ascii hbd hlt, Char.ofNat_toNat]
        exact hd
  · intro h
    have hlt := (bare_byte _ mode hbare).1
    refine List.mem_flatMap.mpr ⟨c.toNat, List.mem_flatMap.mpr ⟨c, h, ?_⟩, ?_⟩
    · rw [Text.utf8, if_pos hlt]
      exact List.mem_singleton.mpr rfl
    · unfold escapeByte
      split
      · rename_i hsp
        simp only [Bool.and_eq_true, decide_eq_true_eq] at hsp
        rw [hsp.1, hsp.2] at hbare
        cases hbare
      · rw [if_neg (by simp [hbare]), Char.ofNat_toNat]
        exact List.mem_singleton.mpr rfl

/-- A text of characters that stand bare is encoded as itself. -/
theorem escape_eq_self {mode : Mode} {s : Str} (h : ∀ c ∈ s, shouldEscape c.toNat mode = false) :
    escape mode (Text.bytes s) = s := by
  induction s with
  | nil => rfl
  | cons c s ih =>
    obtain ⟨hc, hs⟩ := List.forall_mem_cons.mp h
    have hutf : Text.utf8 c = [c.toNat] := by
      rw [Text.utf8, if_pos (bare_byte _ mode hc).1]
    have hbyte : escapeByte mode c.toNat = [c] := by
      unfold escapeByte
      rw [if_neg, if_neg (by simp [hc]), Char.ofNat_toNat]
      intro hsp
      simp only [Bool.and_eq_true, decide_eq_true_eq] at hsp
      rw [hsp.1, hsp.2] at hc
      cases hc
    have htail := ih hs
    unfold escape Text.bytes at htail ⊢
    rw [List.flatMap_cons, hutf, List.flatMap_append, htail, List.flatMap_singleton, hbyte]
    rfl

theorem escape_append (mode : Mode) (s t : Str) :
    escape mode (Text.bytes (s ++ t)) = escape mode (Text.bytes s) ++ escape mode (Text.bytes t) := by
  simp [escape, Text.bytes]

theorem notMem_queryEscape {c : Char} (hc : c ∉ "+%0123456789ABCDEF".toList)
    (hesc : shouldEscape c.toNat .queryComponent = true) (s : Str) : c ∉ queryEscape s :=
  notMem_escape hc hesc (Text.bytes s)

/-- Decoding undoes encoding. -/
theorem unescape_escape {dec enc : Mode} (hr : Reads dec enc) {bs : List Nat} (hb : ∀ b ∈ bs, b < 256) :
    unescape dec (escape enc bs) = some bs := by
  induction bs with
  | nil => rfl
  | cons b bs ih =>
    obtain ⟨hlt, hrest⟩ := List.forall_mem_cons.mp hb
    have htail := ih hrest
    rw [escape] at htail
    rw [escape, List.flatMap_cons, unescape_escapeByte hr hlt, htail]
    rfl

theorem queryUnescape_queryEscape (s : Str) : queryUnescape (queryEscape s) = some s := by
  have hr : Reads .queryComponent .queryComponent := ⟨Iff.rfl, by decide, by decide⟩
  rw [queryUnescape, queryEscape, unescape_escape hr fun b hb => Text.bytes_lt hb,
    Option.map_some, Text.ofBytes_bytes]

theorem amp_notMem_queryEscape (s : Str) : '&' ∉ queryEscape s :=
  notMem_queryEscape (by simp) (by decide) s

/-- The text of one name and value of a query. -/
def pairText (p : Str × Str) : Str := queryEscape p.1 ++ '=' :: queryEscape p.2

/-- The pairs of a query in the order in which they are written. -/
def Values.pairs (vs : Values) : List (Str × Str) :=
  (sortMembers vs).flatMap fun (k, xs) => xs.map fun x => (k, x)

theorem encode_eq (vs : Values) : vs.encode = Text.join ['&'] (vs.pairs.map pairText) := by
  simp [Values.encode, Values.pairs, pairText, List.map_flatMap, Function.comp_def]

theorem cut_append {sep : Char} {s t : Str} (h : sep ∉ s) :
    Text.cut sep (s ++ sep :: t) = some (s, t) := by
  induction s with
  | nil => simp [Text.cut]
  | cons c s ih =>
    have hc : ¬ c = sep := fun he => h (by rw [he]; exact List.mem_cons_self)
    have hs : sep ∉ s := fun hm => h (List.mem_cons_of_mem c hm)
    simp [Text.cut, hc, ih hs]

/-- One part of a query string is read into its name and value. -/
theorem parse_pairText (p : Str × Str) (vs : Values) :
    (if (pairText p).contains ';' || pairText p = [] then vs
      else
        match queryUnescape (cutAt '=' (pairText p)).1, queryUnescape (cutAt '=' (pairText p)).2 with
        | some k, some v => addValue vs k v
        | _, _ => vs) = addValue vs p.1 p.2 := by
  have hsemi : (pairText p).contains ';' = false := by
    have h1 := notMem_queryEscape (c := ';') (by simp) (by decide) p.1
    have h2 := notMem_queryEscape (c := ';') (by simp) (by decide) p.2
    simp [pairText, h1, h2]
  have hne : pairText p ≠ [] := by simp [pairText]
  have hcut : cutAt '=' (pairText p) = (queryEscape p.1, queryEscape p.2) := by
    rw [cutAt, pairText, cut_append (notMem_queryEscape (by simp) (by decide) p.1)]
    rfl
  rw [hsemi, hcut]
  simp [hne, queryUnescape_queryEscape]

theorem parseQuery_join (ps : List (Str × Str)) :
    parseQuery (Text.join ['&'] (ps.map pairText)) =
      ps.foldl (fun vs p => addValue vs p.1 p.2) [] := by
  cases hps : ps with
  | nil => rfl
  | cons p qs =>
    have hparts : ∀ part ∈ ps.map pairText, '&' ∉ part := by
      intro part hpart
      obtain ⟨q, _, rfl⟩ := List.mem_map.mp hpart
      have h1 := amp_notMem_queryEscape q.1
      have h2 := amp_notMem_queryEscape q.2
      simp [pairText, h1, h2]
    rw [← hps, parseQuery, Text.splitOn_join (by simp [hps]) hparts, List.foldl_map]
    congr 1
    funext vs q
    exact parse_pairText q vs

theorem lookup_addValue (vs : Values) (k k' v : Str) :
    (lookup k (addValue vs k' v)).getD [] =
      (lookup k vs).getD [] ++ if k' = k then [v] else [] := by
  unfold addValue
  by_cases h : k' = k
  · subst h
    rw [lookup_setMember_self, if_pos rfl]
    rfl
  · rw [lookup_setMember_of_ne (fun he => h he.symm), if_neg h, List.append_nil]

theorem lookup_foldl_addValue (ps : List (Str × Str)) (acc : Values) (k : Str) :
    (lookup k (ps.foldl (fun vs p => addValue vs p.1 p.2) acc)).getD [] =
      (lookup k acc).getD [] ++ (ps.filter fun p => p.1 = k).map Prod.snd := by
  induction ps generalizing acc with
  | nil => simp
  | cons p ps ih =>
    rw [List.foldl_cons, ih, lookup_addValue]
    by_cases h : p.1 = k
    · simp [h]
    · simp [h]

theorem nodup_parseQuery (query : Str) : ((parseQuery query).map Prod.fst).Nodup := by
  unfold parseQuery
  generalize Text.splitOn '&' query = parts
  have hfold : ∀ vs : Values, (vs.map Prod.fst).Nodup → ((parts.foldl (fun vs part =>
      if part.contains ';' || part = [] then vs
      else
        match queryUnescape (cutAt '=' part).1, queryUnescape (cutAt '=' part).2 with
        | some k, some v => addValue vs k v
        | _, _ => vs) vs).map Prod.fst).Nodup := by
    induction parts with
    | nil => exact fun vs h => h
    | cons part parts ih =>
      intro vs h
      apply ih
      beta_reduce
      split
      · exact h
      · split
        · exact nodup_setMember _ _ h
        · exact h
  exact hfold [] List.nodup_nil

theorem pairs_of_name {ms : Values} (h : (ms.map Prod.fst).Nodup) (k : Str) :
    ((ms.flatMap fun (l, xs) => xs.map fun x => (l, x)).filter fun p => p.1 = k).map Prod.snd =
      (lookup k ms).getD [] := by
  induction ms with
  | nil => rfl
  | cons m ms ih =>
    obtain ⟨l, xs⟩ := m
    obtain ⟨hl, hms⟩ := List.nodup_cons.mp h
    rw [List.flatMap_cons, List.filter_append, List.map_append, ih hms]
    by_cases hk : l = k
    · subst hk
      have hnone : lookup l ms = none := by
        apply lookup_eq_none_of_forall
        intro m hm he
        exact hl (List.mem_map.mpr ⟨m, hm, he⟩)
      simp [lookup, hnone, List.filter_map, Function.comp_def]
    · simp [lookup, hk, List.filter_map, Function.comp_def]

/-- The values of a name, as a reader of the query string finds them. -/
def valuesOf (query k : Str) : List Str := (lookup k (parseQuery query)).getD []

/-- What is written into a query string is read back from it. -/
theorem valuesOf_encode {vs : Values} (h : (vs.map Prod.fst).Nodup) (k : Str) :
    valuesOf vs.encode k = (lookup k vs).getD [] := by
  have hperm := perm_sortMembers vs
  have hnodup : ((sortMembers vs).map Prod.fst).Nodup := (hperm.map Prod.fst).nodup_iff.mpr h
  have hnil : (lookup k ([] : Values)).getD [] = [] := rfl
  rw [valuesOf, encode_eq, parseQuery_join, lookup_foldl_addValue, hnil, List.nil_append, Values.pairs,
    pairs_of_name hnodup, lookup_perm k h hperm.symm]

end Janus.Url
