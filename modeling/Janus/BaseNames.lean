import Janus.Lib.JsonLiteral
import Janus.Lib.RegexPath
import Janus.OpenApi

/-!
# The form of the base names

A run of other characters becomes one underscore, and the underscores at both ends are cut off.
What is left are words of small letters and digits with single underscores between them
(`sanitizeName_cases`), whatever letters of Unicode the text has, and a name of that form
stays as it is. The fallback of `toolNameBase` begins with a method and is never empty
(`baseNames_wellFormed`).
-/

namespace Janus.OpenApi

set_option autoImplicit false

def alnumRe : Regex := .set false [('a', 'z'), ('0', '9')]

/-- `[a-z0-9]+(_[a-z0-9]+)*` -/
def baseNameRe : Regex :=
  .seq (.rep 1 none alnumRe)
    (.rep 0 none (.seq (.set false [('_', '_')]) (.rep 1 none alnumRe)))

/-- A lower-casing of all letters that gives a small letter or a digit of ASCII just where `lowerChar`
does, and the same one. -/
def LowersAscii (lower : Char → Char) : Prop :=
  ∀ c, isLowerAlnum (lower c) = true ∨ isLowerAlnum (lowerChar c) = true → lower c = lowerChar c

/-- Words of small letters and digits, joined by single underscores. -/
inductive BaseName : Str → Prop where
  | single {c : Char} (hc : isLowerAlnum c = true) : BaseName [c]
  | letter {c : Char} {s : Str} (hc : isLowerAlnum c = true) (h : BaseName s) : BaseName (c :: s)
  | next {c : Char} {s : Str} (hc : isLowerAlnum c = true) (h : BaseName s) : BaseName (c :: '_' :: s)

theorem accepts_alnum (c : Char) : Regex.accepts false [('a', 'z'), ('0', '9')] c = isLowerAlnum c := by
  simp [Regex.accepts, Regex.inRanges, isLowerAlnum]

theorem lang_alnum {c : Char} (hc : isLowerAlnum c = true) : Regex.Lang alnumRe [c] :=
  ⟨c, (accepts_alnum c).trans hc, rfl⟩

theorem lang_word {c : Char} (hc : isLowerAlnum c = true) : Regex.Lang (.rep 1 none alnumRe) [c] := by
  refine ⟨[[c]], Nat.le_refl _, fun _ he => (by cases he), ?_, rfl⟩
  intro a ha
  rw [List.mem_singleton.mp ha]
  exact lang_alnum hc

theorem lang_word_cons {c : Char} {u : Str} (hc : isLowerAlnum c = true)
    (h : Regex.Lang (.rep 1 none alnumRe) u) : Regex.Lang (.rep 1 none alnumRe) (c :: u) := by
  obtain ⟨us, hleast, _, hus, rfl⟩ := h
  refine ⟨[c] :: us, Nat.le_succ_of_le hleast, fun _ he => (by cases he), ?_, rfl⟩
  exact List.forall_mem_cons.mpr ⟨lang_alnum hc, hus⟩

theorem BaseName.lang {s : Str} (h : BaseName s) : Regex.Lang baseNameRe s := by
  induction h with
  | @single c hc =>
    refine ⟨[c], [], rfl, lang_word hc, [], Nat.zero_le _, fun _ he => (by cases he), ?_, rfl⟩
    intro a ha
    cases ha
  | letter hc _ ih =>
    obtain ⟨a, b, rfl, ha, hb⟩ := ih
    exact ⟨_ :: a, b, rfl, lang_word_cons hc ha, hb⟩
  | @next c s hc _ ih =>
    obtain ⟨a, b, rfl, ha, us, _, _, hus, rfl⟩ := ih
    refine ⟨[c], '_' :: (a ++ us.flatten), rfl, lang_word hc, ('_' :: a) :: us, Nat.zero_le _,
      fun _ he => (by cases he), ?_, rfl⟩
    refine List.forall_mem_cons.mpr ⟨⟨['_'], a, rfl, ⟨'_', rfl, rfl⟩, ha⟩, hus⟩

theorem BaseName.ne_nil {s : Str} (h : BaseName s) : s ≠ [] := by
  cases h <;> exact List.cons_ne_nil _ _

theorem BaseName.head {s : Str} (h : BaseName s) : ∃ c t, s = c :: t ∧ isLowerAlnum c = true := by
  cases h with
  | single hc => exact ⟨_, _, rfl, hc⟩
  | letter hc _ => exact ⟨_, _, rfl, hc⟩
  | next hc _ => exact ⟨_, _, rfl, hc⟩

theorem BaseName.last {s : Str} (h : BaseName s) : ∃ t c, s = t ++ [c] ∧ isLowerAlnum c = true := by
  induction h with
  | single hc => exact ⟨[], _, rfl, hc⟩
  | @letter c s hc _ ih =>
    obtain ⟨t, d, rfl, hd⟩ := ih
    exact ⟨c :: t, d, rfl, hd⟩
  | @next c s hc _ ih =>
    obtain ⟨t, d, rfl, hd⟩ := ih
    exact ⟨c :: '_' :: t, d, rfl, hd⟩

theorem BaseName.mem {s : Str} (h : BaseName s) : ∀ c ∈ s, isLowerAlnum c = true ∨ c = '_' := by
  induction h with
  | single hc => simpa using Or.inl hc
  | letter hc _ ih => exact List.forall_mem_cons.mpr ⟨Or.inl hc, ih⟩
  | next hc _ ih => exact List.forall_mem_cons.mpr ⟨Or.inl hc, List.forall_mem_cons.mpr ⟨Or.inr rfl, ih⟩⟩

theorem isLowerAlnum_underscore : isLowerAlnum '_' = false := rfl

theorem ne_underscore {c : Char} (hc : isLowerAlnum c = true) : decide (c = '_') = false := by
  apply decide_eq_false
  rintro rfl
  cases hc

/-- Underscores around a name are cut off. -/
theorem BaseName.trim {s lead trail : Str} (h : BaseName s) (hlead : ∀ c ∈ lead, c = '_')
    (htrail : ∀ c ∈ trail, c = '_') : Text.trim (· = '_') (lead ++ (s ++ trail)) = s := by
  have hleft : Text.trimLeft (· = '_') (lead ++ (s ++ trail)) = s ++ trail := by
    obtain ⟨c, t, rfl, hc⟩ := h.head
    unfold Text.trimLeft
    rw [List.dropWhile_append_of_pos (by simpa using hlead)]
    exact List.dropWhile_cons_of_neg (by simp [ne_underscore hc])
  have hright : Text.trimRight (· = '_') (s ++ trail) = s := by
    obtain ⟨t, c, rfl, hc⟩ := h.last
    unfold Text.trimRight
    rw [List.reverse_append, List.dropWhile_append_of_pos (by simpa using htrail), List.reverse_append]
    rw [List.reverse_singleton, List.singleton_append,
      List.dropWhile_cons_of_neg (by simp [ne_underscore hc]), List.reverse_cons, List.reverse_reverse]
  rw [Text.trim, hleft, hright]

/-- What a collapsed text is, and whether it has a letter or digit: an underscore at most, or a name
with an underscore at either end at most. -/
inductive Collapsed (run : Bool) : Str → Bool → Prop where
  | none : Collapsed run [] false
  | underscore (hrun : run = false) : Collapsed run ['_'] false
  | name {lead s trail : Str} (hlead : lead = [] ∨ (lead = ['_'] ∧ run = false)) (h : BaseName s)
      (htrail : trail = [] ∨ trail = ['_']) : Collapsed run (lead ++ (s ++ trail)) true

theorem Collapsed.cons {run : Bool} {c : Char} {t : Str} {some : Bool} (hc : isLowerAlnum c = true)
    (h : Collapsed false t some) : Collapsed run (c :: t) true := by
  cases h with
  | none => exact @Collapsed.name run [] [c] [] (Or.inl rfl) (.single hc) (Or.inl rfl)
  | underscore _ => exact @Collapsed.name run [] [c] ['_'] (Or.inl rfl) (.single hc) (Or.inr rfl)
  | @name lead s trail hlead h htrail =>
    rcases hlead with rfl | ⟨rfl, _⟩
    · exact @Collapsed.name run [] (c :: s) trail (Or.inl rfl) (.letter hc h) htrail
    · exact @Collapsed.name run [] (c :: '_' :: s) trail (Or.inl rfl) (.next hc h) htrail

theorem Collapsed.skip {t : Str} {some : Bool} (h : Collapsed true t some) :
    Collapsed false ('_' :: t) some := by
  cases h with
  | none => exact .underscore rfl
  | underscore hrun => cases hrun
  | @name lead s trail hlead h htrail =>
    rcases hlead with rfl | ⟨_, hrun⟩
    · exact @Collapsed.name false ['_'] s trail (Or.inr ⟨rfl, rfl⟩) h htrail
    · cases hrun

theorem collapsed_collapse (run : Bool) (s : Str) : Collapsed run (collapse run s) (s.any isLowerAlnum) := by
  induction s generalizing run with
  | nil => exact .none
  | cons c s ih =>
    rw [collapse, List.any_cons]
    by_cases hc : isLowerAlnum c = true
    · rw [if_pos hc, hc, Bool.true_or]
      exact (ih false).cons hc
    · rw [if_neg hc, Bool.eq_false_iff.mpr hc, Bool.false_or]
      cases run with
      | true => exact ih true
      | false => exact (ih true).skip

/-- A sanitized text is empty or a name, as the text has a letter or digit or none. -/
theorem sanitizeName_cases (s : Str) :
    (sanitizeName s = [] ∧ (s.map lowerChar).any isLowerAlnum = false) ∨
      (BaseName (sanitizeName s) ∧ (s.map lowerChar).any isLowerAlnum = true) := by
  have hcollapsed := collapsed_collapse false (s.map lowerChar)
  unfold sanitizeName
  generalize collapse false (s.map lowerChar) = t at hcollapsed
  generalize (s.map lowerChar).any isLowerAlnum = some at hcollapsed
  cases hcollapsed with
  | none => exact Or.inl ⟨rfl, rfl⟩
  | underscore _ => exact Or.inl ⟨rfl, rfl⟩
  | @name lead s trail hlead h htrail =>
    right
    refine ⟨?_, rfl⟩
    rw [h.trim]
    · exact h
    · rcases hlead with rfl | ⟨rfl, _⟩ <;> simp
    · rcases htrail with rfl | rfl <;> simp

theorem toNat_of_alnum {c : Char} (h : isLowerAlnum c = true) :
    (97 ≤ c.toNat ∧ c.toNat ≤ 122) ∨ (48 ≤ c.toNat ∧ c.toNat ≤ 57) := by
  unfold isLowerAlnum at h
  rw [Bool.or_eq_true, Bool.and_eq_true, Bool.and_eq_true] at h
  rcases h with ⟨hlow, hhigh⟩ | ⟨hlow, hhigh⟩
  · exact Or.inl ⟨of_decide_eq_true hlow, of_decide_eq_true hhigh⟩
  · exact Or.inr ⟨of_decide_eq_true hlow, of_decide_eq_true hhigh⟩

/-- Apart from the capitals and the two letters beyond ASCII. -/
theorem lowerChar_eq_self {c : Char} (h : c.toNat < 65 ∨ 90 < c.toNat) (hdotted : c.toNat ≠ 0x130)
    (hkelvin : c.toNat ≠ 0x212A) : lowerChar c = c := by
  have hupper : ¬ (decide ('A' ≤ c) && decide (c ≤ 'Z')) = true := by
    intro hle
    rw [Bool.and_eq_true] at hle
    have hlow : 65 ≤ c.toNat := of_decide_eq_true hle.1
    have hhigh : c.toNat ≤ 90 := of_decide_eq_true hle.2
    omega
  unfold lowerChar
  rw [if_neg hupper, if_neg hdotted, if_neg hkelvin]

theorem lowerChar_of_alnum {c : Char} (h : isLowerAlnum c = true) : lowerChar c = c := by
  have hrange := toNat_of_alnum h
  apply lowerChar_eq_self <;> omega

theorem BaseName.collapse {s : Str} (h : BaseName s) (run : Bool) : collapse run s = s := by
  induction h generalizing run with
  | single hc => simp [OpenApi.collapse, hc]
  | letter hc _ ih => simp [OpenApi.collapse, hc, ih]
  | next hc _ ih => simp [OpenApi.collapse, hc, ih, isLowerAlnum_underscore]

theorem BaseName.sanitizeName {s : Str} (h : BaseName s) : sanitizeName s = s := by
  have hlower : s.map lowerChar = s := by
    have hid : ∀ c ∈ s, lowerChar c = c := by
      intro c hc
      rcases h.mem c hc with hc | rfl
      · exact lowerChar_of_alnum hc
      · rfl
    exact (List.map_congr_left hid).trans (List.map_id s)
  have htrim := @BaseName.trim s [] [] h (by simp) (by simp)
  rw [List.append_nil, List.nil_append] at htrim
  rw [OpenApi.sanitizeName, hlower, h.collapse, htrim]

theorem sanitizeName_idem (s : Str) : sanitizeName (sanitizeName s) = sanitizeName s := by
  rcases sanitizeName_cases s with ⟨hempty, _⟩ | ⟨hname, _⟩
  · rw [hempty]
    rfl
  · exact hname.sanitizeName

theorem sanitizeName_eq_nil_iff (s : Str) :
    sanitizeName s = [] ↔ ∀ c ∈ s.map lowerChar, isLowerAlnum c = false := by
  have hany : (∀ c ∈ s.map lowerChar, isLowerAlnum c = false) ↔ (s.map lowerChar).any isLowerAlnum = false := by
    simp only [List.any_eq_false, Bool.not_eq_true]
  rw [hany]
  rcases sanitizeName_cases s with ⟨hempty, hnone⟩ | ⟨hname, hsome⟩
  · rw [hempty, hnone]
    exact iff_of_true rfl rfl
  · rw [hsome]
    exact iff_of_false hname.ne_nil (by decide)

theorem collapse_congr {lower : Char → Char} (h : LowersAscii lower) (run : Bool) (s : Str) :
    collapse run (s.map lower) = collapse run (s.map lowerChar) := by
  induction s generalizing run with
  | nil => rfl
  | cons c s ih =>
    simp only [List.map_cons, collapse, ih]
    by_cases hc : isLowerAlnum (lowerChar c) = true
    · rw [h c (Or.inr hc)]
    · have hnot : ¬ isLowerAlnum (lower c) = true := by
        intro hl
        rw [h c (Or.inl hl)] at hl
        exact hc hl
      rw [if_neg hc, if_neg hnot]

theorem alnum_congr {lower : Char → Char} (h : LowersAscii lower) (s : Str) :
    (∀ c ∈ s.map lower, isLowerAlnum c = false) ↔ ∀ c ∈ s.map lowerChar, isLowerAlnum c = false := by
  have hchar : ∀ c, isLowerAlnum (lower c) = isLowerAlnum (lowerChar c) := by
    intro c
    by_cases hc : isLowerAlnum (lower c) = true ∨ isLowerAlnum (lowerChar c) = true
    · rw [h c hc]
    · rw [not_or, Bool.not_eq_true, Bool.not_eq_true] at hc
      rw [hc.1, hc.2]
  simp only [List.forall_mem_map, hchar]

theorem baseName_of_method {method : Str} (hm : method ∈ httpMethods) (path : Str) :
    BaseName (sanitizeName (method ++ '_' :: path)) := by
  rcases sanitizeName_cases (method ++ '_' :: path) with ⟨_, hnone⟩ | ⟨hname, _⟩
  · rw [List.map_append, List.any_append, Bool.or_eq_false_iff] at hnone
    have hletter : ∀ m ∈ httpMethods, (m.map lowerChar).any isLowerAlnum = true := by decide
    rw [hletter method hm] at hnone
    cases hnone.1
  · exact hname

theorem baseName_toolNameBase (operationID : Str) {method : Str} (hm : method ∈ httpMethods) (path : Str) :
    BaseName (toolNameBase operationID method path) := by
  unfold toolNameBase
  dsimp only
  split
  · rcases sanitizeName_cases operationID with ⟨hempty, _⟩ | ⟨hname, _⟩
    · contradiction
    · exact hname
  · exact baseName_of_method hm path

/-- Every base name is a name of the form, sanitizing again changes nothing, and a text is sanitized
to nothing exactly when no letter or digit is in its lower case. -/
theorem baseNames_wellFormed (lower : Char → Char) (h : LowersAscii lower) :
    (∀ operationID, ∀ method ∈ httpMethods, ∀ path,
      toolNameBase operationID method path ≠ [] ∧
        Regex.Lang baseNameRe (toolNameBase operationID method path)) ∧
      (∀ s, sanitizeName (sanitizeName s) = sanitizeName s) ∧
      ∀ s, sanitizeName s = Text.trim (· = '_') (collapse false (s.map lower)) ∧
        (sanitizeName s = [] ↔ ∀ c ∈ s.map lower, isLowerAlnum c = false) := by
  refine ⟨?_, sanitizeName_idem, ?_⟩
  · intro operationID method hm path
    have hname := baseName_toolNameBase operationID hm path
    exact ⟨hname.ne_nil, hname.lang⟩
  · intro s
    rw [collapse_congr h, alnum_congr h]
    exact ⟨rfl, sanitizeName_eq_nil_iff s⟩

/-- The lower case of the letters of Latin-1, and of the two letters whose lower case is in ASCII. -/
def latinLower (c : Char) : Char :=
  if 0xC0 ≤ c.toNat && c.toNat ≤ 0xDE && c.toNat ≠ 0xD7 then Char.ofNat (c.toNat + 32) else lowerChar c

theorem lowersAscii_latinLower : LowersAscii latinLower := by
  intro c hc
  unfold latinLower at hc ⊢
  split_ifs at hc ⊢ with hrange
  · exfalso
    have hbounds : 0xC0 ≤ c.toNat ∧ c.toNat ≤ 0xDE := by
      simp only [Bool.and_eq_true, decide_eq_true_eq] at hrange
      exact hrange.1
    rcases hc with hc | hc
    · have hvalid : (c.toNat + 32).isValidChar := Or.inl (by omega)
      have hnat := toNat_of_alnum hc
      rw [JsonText.toNat_ofNat_of_valid hvalid] at hnat
      omega
    · rw [lowerChar_eq_self (by omega) (by omega) (by omega)] at hc
      have hnat := toNat_of_alnum hc
      omega
  · rfl

theorem baseNames_latin :
    Regex.Lang baseNameRe (toolNameBase "Éé".toList "get".toList "/é".toList) ∧
      sanitizeName (sanitizeName "Éa".toList) = sanitizeName "Éa".toList ∧ sanitizeName "Éé".toList = [] := by
  obtain ⟨hform, hidem, hempty⟩ := baseNames_wellFormed latinLower lowersAscii_latinLower
  exact ⟨(hform "Éé".toList "get".toList (by decide) "/é".toList).2, hidem "Éa".toList,
    (hempty "Éé".toList).2.mpr (by decide)⟩

end Janus.OpenApi
