import Janus.Lib.JsonLeaves
import Janus.Lib.JsonLexing

/-!
# Replacing the strings of a JSON text

Two JSON texts that differ only in their string literals, and not in the names of members,
are read as the same value up to its strings (`parse_swap`).
-/

namespace Janus.JsonText

set_option autoImplicit false

/-- A string with this behind it is the name of a member. -/
def isName (s : Str) : Bool := (skipSpace s).head? = some ':'

/-- Texts that are the same outside their string literals. Where a literal is read as `d`, one
stands that is read as `f d`, or as `d` if it is a name. -/
inductive Swap (f : Str → Str) : Str → Str → Prop where
  | nil : Swap f [] []
  | char {c : Char} {s s' : Str} (hc : c ≠ '"') (h : Swap f s s') : Swap f (c :: s) (c :: s')
  | lit {x x' d s s' : Str} (hx : readString x = some (d, s))
    (hx' : readString x' = some (if isName s then d else f d, s')) (h : Swap f s s') :
    Swap f ('"' :: x) ('"' :: x')

variable {f : Str → Str}

theorem Swap.of_char {c : Char} (hc : c ≠ '"') {s t : Str} (h : Swap f (c :: s) t) :
    ∃ s', t = c :: s' ∧ Swap f s s' := by
  cases h with
  | char _ h => exact ⟨_, rfl, h⟩
  | lit _ _ _ => exact absurd rfl hc

theorem Swap.of_quote {s t d r : Str} (h : Swap f ('"' :: s) t) (hs : readString s = some (d, r)) :
    ∃ s' r', t = '"' :: s' ∧ readString s' = some (if isName r then d else f d, r') ∧ Swap f r r' := by
  cases h with
  | char hc _ => exact absurd rfl hc
  | lit hx hx' h =>
    rw [hs] at hx
    cases hx
    exact ⟨_, _, rfl, hx', h⟩

theorem Swap.of_nil {t : Str} (h : Swap f [] t) : t = [] := by
  cases h
  rfl

theorem Swap.of_word {u : Str} (hu : '"' ∉ u) {s t : Str} (h : Swap f (u ++ s) t) :
    ∃ s', t = u ++ s' ∧ Swap f s s' := by
  induction u generalizing t with
  | nil => exact ⟨t, rfl, h⟩
  | cons c u ih =>
    obtain ⟨hc, hu⟩ := not_or.mp (mt List.mem_cons.mpr hu)
    obtain ⟨t', rfl, ht⟩ := h.of_char fun he => hc he.symm
    obtain ⟨s', rfl, hs⟩ := ih hu ht
    exact ⟨s', rfl, hs⟩

theorem Swap.keep {u s s' : Str} (hu : '"' ∉ u) (h : Swap f s s') : Swap f (u ++ s) (u ++ s') := by
  induction u with
  | nil => exact h
  | cons c u ih =>
    obtain ⟨hc, hu⟩ := not_or.mp (mt List.mem_cons.mpr hu)
    exact .char (fun he => hc he.symm) (ih hu)

/-- What stands in front, outside the strings, is the same. -/
theorem Swap.span {p : Char → Bool} (hp : p '"' = false) {s s' : Str} (h : Swap f s s') :
    s'.takeWhile p = s.takeWhile p ∧ Swap f (s.dropWhile p) (s'.dropWhile p) := by
  induction h with
  | nil => exact ⟨rfl, .nil⟩
  | @char c s s' hc h ih =>
    by_cases hpc : p c = true
    · simp only [List.takeWhile_cons_of_pos hpc, List.dropWhile_cons_of_pos hpc, ih.1]
      exact ⟨trivial, ih.2⟩
    · simp only [List.takeWhile_cons_of_neg hpc, List.dropWhile_cons_of_neg hpc]
      exact ⟨trivial, .char hc h⟩
  | lit hx hx' h _ =>
    have hq : ¬ p '"' = true := by simp [hp]
    simp only [List.takeWhile_cons_of_neg hq, List.dropWhile_cons_of_neg hq]
    exact ⟨trivial, .lit hx hx' h⟩

theorem Swap.skipSpace {s s' : Str} (h : Swap f s s') : Swap f (skipSpace s) (skipSpace s') :=
  (h.span (by decide)).2

theorem Swap.head {s s' : Str} (h : Swap f s s') : s'.head? = s.head? := by
  cases h with
  | nil => rfl
  | char _ _ => rfl
  | lit _ _ _ => rfl

theorem Swap.head_ne {s s' : Str} (h : Swap f s s') {c : Char} (hc : ∀ r, s = c :: r → False)
    (r : Str) : s' ≠ c :: r := by
  rintro rfl
  have hhead := h.head
  cases s with
  | nil => cases hhead
  | cons d s =>
    cases hhead
    exact hc s rfl

theorem length_skipSpace_le (s : Str) : (skipSpace s).length ≤ s.length :=
  List.length_dropWhile_le _ _

/-- White space up to a character outside the strings. -/
theorem Swap.of_skipSpace {c : Char} (hc : c ≠ '"') {s r t : Str} (h : Swap f s t)
    (hs : JsonText.skipSpace s = c :: r) :
    ∃ r', JsonText.skipSpace t = c :: r' ∧ Swap f r r' ∧ r'.length < t.length := by
  have hskip := h.skipSpace
  rw [hs] at hskip
  obtain ⟨r', hr', hswap⟩ := hskip.of_char hc
  have hlen := length_skipSpace_le t
  rw [hr', List.length_cons] at hlen
  exact ⟨r', hr', hswap, hlen⟩

/-- From `s'` a reader comes to `r'` with the value, with as many rounds as it reads
characters. -/
def Reaches {α : Type} (reader : Nat → Str → Option (α × Str)) (s' : Str) (v : α) (r' : Str) : Prop :=
  r'.length < s'.length ∧ ∀ m, s'.length ≤ m + r'.length → reader m s' = some (v, r')

/-- It is enough to read with one round more. -/
theorem Reaches.intro {α : Type} {reader : Nat → Str → Option (α × Str)} {s' r' : Str} {v : α}
    (hlen : r'.length < s'.length)
    (h : ∀ m, s'.length ≤ m + 1 + r'.length → reader (m + 1) s' = some (v, r')) :
    Reaches reader s' v r' := by
  refine ⟨hlen, ?_⟩
  intro m hm
  cases m with
  | zero => omega
  | succ m => exact h m hm

theorem readNumber_head {s r : Str} {v : Json} (h : readNumber s = some (v, r)) :
    ∃ c s₁, s = c :: s₁ ∧ isNumChar c = true := by
  obtain ⟨n, hn, _⟩ := Option.map_eq_some_iff.mp h
  have hnone : numLit? [] = none := by decide
  cases s with
  | nil =>
    rw [List.takeWhile_nil, hnone] at hn
    cases hn
  | cons c s =>
    refine ⟨c, s, rfl, ?_⟩
    by_contra hc
    rw [List.takeWhile_cons_of_neg hc, hnone] at hn
    cases hn

theorem parseValue_number (n : Nat) {s r : Str} {v : Json} (h : readNumber (skipSpace s) = some (v, r)) :
    parseValue (n + 1) s = some (v, r) := by
  obtain ⟨c, s₁, hs, hc⟩ := readNumber_head h
  rw [hs] at h
  rw [parseValue, hs]
  split <;> first
    | exact h
    | (rename_i he
       obtain ⟨rfl, _⟩ := List.cons.inj he
       exact absurd hc (by decide))

theorem Swap.number {s s' r : Str} {v : Json} (hs : Swap f s s') (h : readNumber s = some (v, r)) :
    ∃ r', readNumber s' = some (v, r') ∧ Swap f r r' ∧ v.mapStrings f = v := by
  obtain ⟨n, hn, he⟩ := Option.map_eq_some_iff.mp h
  cases he
  obtain ⟨htake, hdrop⟩ := hs.span (p := isNumChar) (by decide)
  refine ⟨s'.dropWhile isNumChar, ?_, hdrop, rfl⟩
  rw [readNumber, htake, hn]
  rfl

theorem length_readNumber {s r : Str} {v : Json} (h : readNumber s = some (v, r)) :
    r.length < s.length := by
  obtain ⟨c, s₁, rfl, hc⟩ := readNumber_head h
  obtain ⟨n, _, he⟩ := Option.map_eq_some_iff.mp h
  cases he
  rw [List.dropWhile_cons_of_pos hc]
  exact Nat.lt_succ_of_le (List.length_dropWhile_le _ _)

/-- What is read from one of two texts is read from the other, up to its strings. -/
structure SwapsRead (f : Str → Str) (n : Nat) : Prop where
  value : ∀ s s' v r, parseValue n s = some (v, r) → isName r = false → Swap f s s' →
    ∃ r', Swap f r r' ∧ Reaches parseValue s' (v.mapStrings f) r'
  items : ∀ s s' vs r, parseItems n s = some (vs, r) → Swap f s s' →
    ∃ r', Swap f r r' ∧ Reaches parseItems s' (Json.mapStringsItems f vs) r'
  members : ∀ s s' ms r, parseMembers n s = some (ms, r) → Swap f s s' →
    ∃ r', Swap f r r' ∧ Reaches parseMembers s' (Json.mapStringsMembers f ms) r'

/-- The three words of JSON. -/
theorem Swap.word {s s' u r : Str} {v : Json} (h : Swap f s s') (hq : '"' ∉ u) (hu : u ≠ [])
    (hs : JsonText.skipSpace s = u ++ r)
    (hread : ∀ m r', JsonText.skipSpace s' = u ++ r' → parseValue (m + 1) s' = some (v, r')) :
    ∃ r', Swap f r r' ∧ Reaches parseValue s' v r' := by
  have hskip := h.skipSpace
  rw [hs] at hskip
  obtain ⟨r', hr', hrest⟩ := hskip.of_word hq
  have hlen := length_skipSpace_le s'
  have hpos := List.length_pos_of_ne_nil hu
  rw [hr', List.length_append] at hlen
  exact ⟨r', hrest, .intro (by omega) fun m _ => hread m r' hr'⟩

theorem swapsRead_arr {n : Nat} (ih : SwapsRead f n) {s s' t r : Str} {v : Json}
    (hs : skipSpace s = '[' :: t) (h : parseValue (n + 1) s = some (v, r)) (hswap : Swap f s s') :
    ∃ r', Swap f r r' ∧ Reaches parseValue s' (v.mapStrings f) r' := by
  obtain ⟨t', ht, hrest, hlen⟩ := hswap.of_skipSpace (by decide) hs
  rcases parseValue_arr_cases hs h with ⟨hend, rfl⟩ | ⟨xs, hnot, hread, rfl⟩
  · obtain ⟨r', hr', hend', hlen'⟩ := hrest.of_skipSpace (by decide) hend
    refine ⟨r', hend', .intro (by omega) ?_⟩
    intro m _
    rw [parseValue, ht]
    simp [hr', Json.mapStrings, Json.mapStringsItems]
  · obtain ⟨r', hend, hshort, hread'⟩ := ih.items _ _ _ _ hread hrest.skipSpace
    have hskip := length_skipSpace_le t'
    refine ⟨r', hend, .intro (by omega) ?_⟩
    intro m hm
    have hitems := hread' m (by omega)
    rw [parseValue_open_arr m ht]
    split
    · rename_i t₂ ht₂
      exact absurd ht₂ (hrest.skipSpace.head_ne hnot t₂)
    · rw [hitems]
      rfl

theorem swapsRead_obj {n : Nat} (ih : SwapsRead f n) {s s' t r : Str} {v : Json}
    (hs : skipSpace s = '{' :: t) (h : parseValue (n + 1) s = some (v, r)) (hswap : Swap f s s') :
    ∃ r', Swap f r r' ∧ Reaches parseValue s' (v.mapStrings f) r' := by
  obtain ⟨t', ht, hrest, hlen⟩ := hswap.of_skipSpace (by decide) hs
  rcases parseValue_obj_cases hs h with ⟨hend, rfl⟩ | ⟨ms, hnot, hread, rfl⟩
  · obtain ⟨r', hr', hend', hlen'⟩ := hrest.of_skipSpace (by decide) hend
    refine ⟨r', hend', .intro (by omega) ?_⟩
    intro m _
    rw [parseValue, ht]
    simp [hr', Json.mapStrings, Json.mapStringsMembers]
  · obtain ⟨r', hend, hshort, hread'⟩ := ih.members _ _ _ _ hread hrest.skipSpace
    have hskip := length_skipSpace_le t'
    refine ⟨r', hend, .intro (by omega) ?_⟩
    intro m hm
    have hmembers := hread' m (by omega)
    rw [parseValue_open_obj m ht]
    split
    · rename_i t₂ ht₂
      exact absurd ht₂ (hrest.skipSpace.head_ne hnot t₂)
    · rw [hmembers]
      rfl

theorem swapsRead_value {n : Nat} (ih : SwapsRead f n) {s s' r : Str} {v : Json}
    (h : parseValue (n + 1) s = some (v, r)) (hname : isName r = false) (hswap : Swap f s s') :
    ∃ r', Swap f r r' ∧ Reaches parseValue s' (v.mapStrings f) r' := by
  have hvalue := h
  simp only [parseValue] at h
  split at h
  · rename_i r₁ hs
    cases h
    apply hswap.word (u := "null".toList) (by decide) (by decide) hs
    intro m r' hs'
    rw [parseValue, hs']
    rfl
  · rename_i r₁ hs
    cases h
    apply hswap.word (u := "true".toList) (by decide) (by decide) hs
    intro m r' hs'
    rw [parseValue, hs']
    rfl
  · rename_i r₁ hs
    cases h
    apply hswap.word (u := "false".toList) (by decide) (by decide) hs
    intro m r' hs'
    rw [parseValue, hs']
    rfl
  · rename_i r₁ hs
    obtain ⟨⟨d, r₂⟩, hread, he⟩ := Option.map_eq_some_iff.mp h
    cases he
    have hskip := hswap.skipSpace
    rw [hs] at hskip
    obtain ⟨t, r', ht, hread', hrest⟩ := hskip.of_quote hread
    have hlen := length_skipSpace_le s'
    have hshort := length_of_readString hread'
    rw [ht, List.length_cons] at hlen
    refine ⟨r', hrest, .intro (by omega) ?_⟩
    intro m _
    rw [parseValue, ht]
    simp [hread', hname, Json.mapStrings]
  · rename_i r₁ hs
    exact swapsRead_arr ih hs hvalue hswap
  · rename_i r₁ hs
    exact swapsRead_obj ih hs hvalue hswap
  · obtain ⟨r', hread, hrest, hself⟩ := hswap.skipSpace.number h
    have hlen := length_skipSpace_le s'
    have hshort := length_readNumber hread
    rw [hself]
    refine ⟨r', hrest, .intro (by omega) ?_⟩
    intro m _
    exact parseValue_number m hread

theorem isName_eq_false {s : Str} {c : Char} {r : Str} (h : skipSpace s = c :: r) (hc : c ≠ ':') :
    isName s = false := by
  simp [isName, h, hc]

theorem swapsRead_items {n : Nat} (ih : SwapsRead f n) {s s' r : Str} {vs : List Json}
    (h : parseItems (n + 1) s = some (vs, r)) (hswap : Swap f s s') :
    ∃ r', Swap f r r' ∧ Reaches parseItems s' (Json.mapStringsItems f vs) r' := by
  obtain ⟨v, r₁, hv, hrest⟩ := parseItems_cases h
  rcases hrest with ⟨hs, rfl⟩ | ⟨r₂, xs, hs, hxs, rfl⟩
  · obtain ⟨t, ht, hlen, hread⟩ := ih.value s s' v r₁ hv (isName_eq_false hs (by decide)) hswap
    obtain ⟨r', hr', hend, hlen'⟩ := ht.of_skipSpace (by decide) hs
    refine ⟨r', hend, .intro (by omega) ?_⟩
    intro m hm
    rw [parseItems, hread m (by omega)]
    simp [hr', Json.mapStringsItems]
  · obtain ⟨t, ht, hlen, hread⟩ := ih.value s s' v r₁ hv (isName_eq_false hs (by decide)) hswap
    obtain ⟨t₂, ht₂, hmore, hlen₂⟩ := ht.of_skipSpace (by decide) hs
    obtain ⟨r', hend, hlen₃, hread₃⟩ := ih.items _ _ _ _ hxs hmore
    refine ⟨r', hend, .intro (by omega) ?_⟩
    intro m hm
    rw [parseItems, hread m (by omega)]
    simp [ht₂, hread₃ m (by omega), Json.mapStringsItems]

theorem swapsRead_members {n : Nat} (ih : SwapsRead f n) {s s' r : Str} {ms : List (Str × Json)}
    (h : parseMembers (n + 1) s = some (ms, r)) (hswap : Swap f s s') :
    ∃ r', Swap f r r' ∧ Reaches parseMembers s' (Json.mapStringsMembers f ms) r' := by
  obtain ⟨r₁, k, r₂, r₃, v, r₄, hs, hk, hcolon, hv, hrest⟩ := parseMembers_cases h
  have hname : isName r₂ = true := by simp [isName, hcolon]
  have hskip := hswap.skipSpace
  rw [hs] at hskip
  obtain ⟨t₁, t₂, ht₁, hk', hname'⟩ := hskip.of_quote hk
  have hlen := length_skipSpace_le s'
  have hshort := length_of_readString hk'
  rw [ht₁, List.length_cons] at hlen
  obtain ⟨t₃, ht₃, hvalue, hlen₃⟩ := hname'.of_skipSpace (by decide) hcolon
  rw [hname, if_pos rfl] at hk'
  rcases hrest with ⟨hs₅, rfl⟩ | ⟨r₅, xs, hs₅, hxs, rfl⟩
  · obtain ⟨t₄, ht₄, hlen₄, hread⟩ :=
      ih.value r₃ t₃ v r₄ hv (isName_eq_false hs₅ (by decide)) hvalue
    obtain ⟨r', hr', hend, hlen₅⟩ := ht₄.of_skipSpace (by decide) hs₅
    refine ⟨r', hend, .intro (by omega) ?_⟩
    intro m hm
    simp [parseMembers, ht₁, hk', ht₃, hread m (by omega), hr', Json.mapStringsMembers]
  · obtain ⟨t₄, ht₄, hlen₄, hread⟩ :=
      ih.value r₃ t₃ v r₄ hv (isName_eq_false hs₅ (by decide)) hvalue
    obtain ⟨t₅, ht₅, hmore, hlen₅⟩ := ht₄.of_skipSpace (by decide) hs₅
    obtain ⟨r', hend, hlen₆, hread₆⟩ := ih.members _ _ _ _ hxs hmore
    refine ⟨r', hend, .intro (by omega) ?_⟩
    intro m hm
    simp [parseMembers, ht₁, hk', ht₃, hread m (by omega), ht₅, hread₆ m (by omega),
      Json.mapStringsMembers]

theorem swapsRead (f : Str → Str) (n : Nat) : SwapsRead f n := by
  induction n with
  | zero =>
    refine ⟨?_, ?_, ?_⟩
    · intro s s' v r h
      cases h
    · intro s s' vs r h
      cases h
    · intro s s' ms r h
      cases h
  | succ n ih =>
    exact ⟨fun _ _ _ _ => swapsRead_value ih, fun _ _ _ _ => swapsRead_items ih,
      fun _ _ _ _ => swapsRead_members ih⟩

/-- With its strings replaced the text is read as the value with its strings replaced. -/
theorem parse_swap {s s' : Str} {v : Json} (h : parse s = some v) (hswap : Swap f s s') :
    parse s' = some (v.mapStrings f) := by
  unfold parse at h
  split at h
  · rename_i w r hvalue
    split at h
    · rename_i hempty
      cases h
      have hnil : skipSpace r = [] := List.isEmpty_iff.mp hempty
      have hname : isName r = false := by simp [isName, hnil]
      obtain ⟨r', hr', hlen, hread⟩ := (swapsRead f _).value s s' _ r hvalue hname hswap
      have hend := hr'.skipSpace
      rw [hnil] at hend
      rw [parse, hread (s'.length + 1) (by omega)]
      simp [hend.of_nil]
    · cases h
  · cases h

end Janus.JsonText
