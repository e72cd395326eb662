import Janus.Lib.JsonLiteral

/-!
# The code units of a string literal

A string literal stands for a list of UTF-16 code units, and its escapes can write a surrogate
without the other half of its pair. The reader puts U+FFFD for each of these, so what it reads
has the code units of the literal exactly when all surrogates are paired (`StringLit.textUnits_chars`).
-/

namespace Janus.JsonText

set_option autoImplicit false

def highUnit (n : Nat) : Nat := 0xD800 + (n - 0x10000) / 1024

def lowUnit (n : Nat) : Nat := 0xDC00 + (n - 0x10000) % 1024

def charUnits (c : Char) : List Nat :=
  if c.toNat < 0x10000 then [c.toNat] else [highUnit c.toNat, lowUnit c.toNat]

def textUnits (s : Str) : List Nat := s.flatMap charUnits

/-- The code units of a string literal after its opening quote. -/
def readUnits : Str → Option (List Nat × Str)
  | [] => none
  | '"' :: s => some ([], s)
  | '\\' :: 'u' :: a :: b :: c :: d :: s =>
    match hex4Val a b c d with
    | none => none
    | some n => (readUnits s).map fun (us, r) => (n :: us, r)
  | '\\' :: e :: s =>
    match shortEscape e with
    | none => none
    | some c => (readUnits s).map fun (us, r) => (charUnits c ++ us, r)
  | c :: s =>
    if c = '\\' || c.toNat < 32 then none
    else (readUnits s).map fun (us, r) => (charUnits c ++ us, r)

/-- A low surrogate behind a high one, or behind none. -/
def lowChar : Option Nat → Nat → Char
  | some hi, lo => pairChar hi lo
  | none, _ => Char.ofNat 0xFFFD

/-- The characters of code units, with U+FFFD for a surrogate that has no partner. -/
def decodeUnits : Option Nat → List Nat → Str
  | p, [] => flush p []
  | p, u :: us =>
    if isHigh u then flush p (decodeUnits (some u) us)
    else if isLow u then lowChar p u :: decodeUnits none us
    else flush p (Char.ofNat u :: decodeUnits none us)

/-- Each high surrogate has a low one behind it, and each low one a high one before it. -/
def pairedFrom : Bool → List Nat → Bool
  | pending, [] => !pending
  | pending, u :: us =>
    if isHigh u then !pending && pairedFrom true us
    else if isLow u then pending && pairedFrom false us
    else !pending && pairedFrom false us

/-- A string literal between its quotes. -/
structure StringLit where
  text : Str
  units : List Nat
  valid : readUnits (text ++ ['"']) = some (units, [])

def StringLit.quoted (l : StringLit) : Str := '"' :: (l.text ++ ['"'])

/-- What the reader makes of it. -/
def StringLit.chars (l : StringLit) : Str := decodeUnits none l.units

def StringLit.Paired (l : StringLit) : Prop := pairedFrom false l.units = true

theorem isSurrogate_toNat (c : Char) : isHigh c.toNat = false ∧ isLow c.toNat = false := by
  have hvalid := c.valid
  have hnat : c.toNat = c.val.toNat := rfl
  unfold UInt32.isValidChar Nat.isValidChar at hvalid
  simp only [isHigh, isLow, Bool.and_eq_false_iff, decide_eq_false_iff_not, not_le, not_lt]
  omega

theorem decodeUnits_high {u : Nat} (h : isHigh u = true) (p : Option Nat) (us : List Nat) :
    decodeUnits p (u :: us) = flush p (decodeUnits (some u) us) := by
  rw [decodeUnits, if_pos h]

theorem decodeUnits_low {u : Nat} (hhigh : isHigh u = false) (hlow : isLow u = true) (p : Option Nat)
    (us : List Nat) :
    decodeUnits p (u :: us) = lowChar p u :: decodeUnits none us := by
  rw [decodeUnits, hhigh, hlow, if_neg Bool.false_ne_true, if_pos rfl]

theorem decodeUnits_other {u : Nat} (hhigh : isHigh u = false) (hlow : isLow u = false) (p : Option Nat)
    (us : List Nat) : decodeUnits p (u :: us) = flush p (Char.ofNat u :: decodeUnits none us) := by
  rw [decodeUnits, hhigh, hlow, if_neg Bool.false_ne_true, if_neg Bool.false_ne_true]

theorem not_isHigh_of_isLow {u : Nat} (h : isLow u = true) : isHigh u = false := by
  simp only [isLow, Bool.and_eq_true, decide_eq_true_eq] at h
  simp only [isHigh, Bool.and_eq_false_iff, decide_eq_false_iff_not]
  omega

theorem isHigh_highUnit {n : Nat} (h : n < 0x110000) : isHigh (highUnit n) = true := by
  unfold highUnit
  simp only [isHigh, Bool.and_eq_true, decide_eq_true_eq]
  omega

theorem isLow_lowUnit (n : Nat) : isLow (lowUnit n) = true := by
  unfold lowUnit
  simp only [isLow, Bool.and_eq_true, decide_eq_true_eq]
  omega

theorem pairChar_units {c : Char} (h : ¬ c.toNat < 0x10000) :
    pairChar (highUnit c.toNat) (lowUnit c.toNat) = c := by
  have hsum : 0x10000 + (highUnit c.toNat - 0xD800) * 1024 + (lowUnit c.toNat - 0xDC00) = c.toNat := by
    unfold highUnit lowUnit
    omega
  rw [pairChar, hsum, Char.ofNat_toNat]

theorem toNat_lt (c : Char) : c.toNat < 0x110000 := by
  have hvalid := c.valid
  have hnat : c.toNat = c.val.toNat := rfl
  unfold UInt32.isValidChar Nat.isValidChar at hvalid
  omega

theorem decodeUnits_char (p : Option Nat) (c : Char) (us : List Nat) :
    decodeUnits p (charUnits c ++ us) = flush p (c :: decodeUnits none us) := by
  unfold charUnits
  split
  · obtain ⟨hhigh, hlow⟩ := isSurrogate_toNat c
    rw [List.singleton_append, decodeUnits_other hhigh hlow, Char.ofNat_toNat]
  · rename_i hlarge
    have hlow := isLow_lowUnit c.toNat
    rw [List.cons_append, List.singleton_append, decodeUnits_high (isHigh_highUnit (toNat_lt c)),
      decodeUnits_low (not_isHigh_of_isLow hlow) hlow, lowChar, pairChar_units hlarge]

/-- The reader reads the code units and decodes them. -/
theorem readFrom_units (p : Option Nat) (s : Str) :
    readFrom p s = (readUnits s).map fun (us, r) => (decodeUnits p us, r) := by
  fun_induction readFrom p s with
  | case1 => rfl
  | case2 p s => simp only [readUnits, decodeUnits, Option.map_some]
  | case3 p a b c d s hn => simp [readUnits, hn]
  | case4 p a b c d s n hn hhigh ih =>
    simp only [ih, readUnits, hn, Option.map_map, Function.comp_def, decodeUnits_high hhigh]
  | case5 a b c d s n hn hhigh hlow hi ih =>
    simp only [ih, readUnits, hn, Option.map_map, Function.comp_def,
      decodeUnits_low (Bool.eq_false_iff.mpr hhigh) hlow, lowChar]
  | case6 a b c d s n hn hhigh hlow ih =>
    simp only [ih, readUnits, hn, Option.map_map, Function.comp_def,
      decodeUnits_low (Bool.eq_false_iff.mpr hhigh) hlow, lowChar]
  | case7 p a b c d s n hn hhigh hlow ih =>
    simp only [ih, readUnits, hn, Option.map_map, Function.comp_def,
      decodeUnits_other (Bool.eq_false_iff.mpr hhigh) (Bool.eq_false_iff.mpr hlow)]
  | case8 p e s hu he =>
    rw [readUnits]
    · simp [he]
    · exact hu
  | case9 p e s hu c he ih =>
    rw [ih, readUnits]
    · simp [he, Function.comp_def, decodeUnits_char]
    · exact hu
  | case10 p c s hq hu he hbad =>
    rw [readUnits]
    · simp [hbad]
    · exact hq
    · exact hu
    · exact he
  | case11 p c s hq hu he hok ih =>
    rw [ih, readUnits]
    · simp [hok, Function.comp_def, decodeUnits_char]
    · exact hq
    · exact hu
    · exact he

theorem readString_units (s : Str) :
    readString s = (readUnits s).map fun (us, r) => (decodeUnits none us, r) :=
  readFrom_units none s

theorem charUnits_ofNat {u : Nat} (hhigh : isHigh u = false) (hlow : isLow u = false) (h : u < 0x10000) :
    charUnits (Char.ofNat u) = [u] := by
  have hvalid : u.isValidChar := by
    simp only [isHigh, isLow, Bool.and_eq_false_iff, decide_eq_false_iff_not] at hhigh hlow
    unfold Nat.isValidChar
    omega
  have hnat : (Char.ofNat u).toNat = u := toNat_ofNat_of_valid hvalid
  rw [charUnits, hnat, if_pos h]

theorem charUnits_pairChar {hi lo : Nat} (hhi : isHigh hi = true) (hlo : isLow lo = true) :
    charUnits (pairChar hi lo) = [hi, lo] := by
  simp only [isHigh, isLow, Bool.and_eq_true, decide_eq_true_eq] at hhi hlo
  have hvalid : (0x10000 + (hi - 0xD800) * 1024 + (lo - 0xDC00)).isValidChar := by
    unfold Nat.isValidChar
    omega
  have hnat : (pairChar hi lo).toNat = 0x10000 + (hi - 0xD800) * 1024 + (lo - 0xDC00) :=
    toNat_ofNat_of_valid hvalid
  have hlarge : ¬ (pairChar hi lo).toNat < 0x10000 := by omega
  have hhigh : highUnit (pairChar hi lo).toNat = hi := by
    rw [hnat, highUnit]
    omega
  have hlow : lowUnit (pairChar hi lo).toNat = lo := by
    rw [hnat, lowUnit]
    omega
  rw [charUnits, if_neg hlarge, hhigh, hlow]

/-- U+FFFD is no surrogate. -/
theorem replacement_ne {u : Nat} (h : isHigh u = true ∨ isLow u = true) (us vs : List Nat) :
    textUnits [Char.ofNat 0xFFFD] ++ us ≠ u :: vs := by
  have hunits : textUnits [Char.ofNat 0xFFFD] = [0xFFFD] := by decide
  rw [hunits, List.singleton_append]
  intro heq
  have hu : 0xFFFD = u := (List.cons.inj heq).1
  subst hu
  exact absurd h (by decide)

theorem textUnits_cons (c : Char) (s : Str) : textUnits (c :: s) = charUnits c ++ textUnits s := rfl

/-- With a high surrogate pending, the units come back exactly when it finds its partner and all
others are paired. -/
theorem units_decodeUnits (p : Option Nat) (hp : ∀ hi, p = some hi → isHigh hi = true) (us : List Nat)
    (hus : ∀ u ∈ us, u < 0x10000) :
    textUnits (decodeUnits p us) = p.toList ++ us ↔ pairedFrom p.isSome us = true := by
  induction us generalizing p with
  | nil =>
    cases p with
    | none => simp [decodeUnits, flush, textUnits, pairedFrom]
    | some hi =>
      have hne := replacement_ne (.inl (hp hi rfl)) [] []
      rw [List.append_nil] at hne
      simp only [decodeUnits, flush, Option.isSome_some, if_true, Option.toList_some, List.append_nil,
        pairedFrom, Bool.not_true, Bool.false_eq_true, iff_false]
      exact hne
  | cons u us ih =>
    have hu : u < 0x10000 := hus u List.mem_cons_self
    have hrest : ∀ v ∈ us, v < 0x10000 := fun v hv => hus v (List.mem_cons_of_mem u hv)
    have hnone := ih none (by simp) hrest
    rw [Option.toList_none, List.nil_append, Option.isSome_none] at hnone
    by_cases hhigh : isHigh u = true
    · have hsome := ih (some u) (fun _ h => Option.some.inj h ▸ hhigh) hrest
      rw [Option.toList_some, List.singleton_append, Option.isSome_some] at hsome
      rw [decodeUnits_high hhigh, pairedFrom, if_pos hhigh]
      cases p with
      | none => simpa [flush] using hsome
      | some hi =>
        have hne := replacement_ne (.inl (hp hi rfl)) (textUnits (decodeUnits (some u) us)) (u :: us)
        simpa [flush, textUnits] using hne
    · have hnot : isHigh u = false := Bool.eq_false_iff.mpr hhigh
      by_cases hlow : isLow u = true
      · rw [decodeUnits_low hnot hlow, pairedFrom, if_neg hhigh, if_pos hlow, textUnits_cons]
        cases p with
        | none =>
          have hne := replacement_ne (.inr hlow) (textUnits (decodeUnits none us)) us
          simpa [lowChar, textUnits] using hne
        | some hi =>
          rw [lowChar, charUnits_pairChar (hp hi rfl) hlow]
          simpa using hnone
      · have hother : isLow u = false := Bool.eq_false_iff.mpr hlow
        rw [decodeUnits_other hnot hother, pairedFrom, if_neg hhigh, if_neg hlow]
        cases p with
        | none =>
          have hunits := charUnits_ofNat hnot hother hu
          simpa [flush, textUnits_cons, hunits] using hnone
        | some hi =>
          have hne := replacement_ne (.inl (hp hi rfl)) (textUnits (Char.ofNat u :: decodeUnits none us)) (u :: us)
          simpa [flush, textUnits] using hne

theorem charUnits_lt (c : Char) : ∀ u ∈ charUnits c, u < 0x10000 := by
  have hlt := toNat_lt c
  intro u hu
  unfold charUnits at hu
  split at hu
  · rw [List.mem_singleton.mp hu]
    assumption
  · unfold highUnit lowUnit at hu
    rcases List.mem_cons.mp hu with rfl | hu
    · omega
    · rw [List.mem_singleton.mp hu]
      omega

theorem hexVal_lt {c : Char} {n : Nat} (h : hexVal c = some n) : n < 16 := by
  unfold hexVal at h
  split at h
  · rename_i hc
    cases h
    simp only [Bool.and_eq_true, decide_eq_true_eq, Char.le_def, UInt32.le_iff_toNat_le] at hc
    have hnat : c.toNat = c.val.toNat := rfl
    have hzero : ('0').toNat = 48 := rfl
    have hnine : ('9').val.toNat = 57 := rfl
    omega
  · split at h
    · rename_i hc
      cases h
      simp only [Bool.and_eq_true, decide_eq_true_eq, Char.le_def, UInt32.le_iff_toNat_le] at hc
      have hnat : c.toNat = c.val.toNat := rfl
      have ha : ('a').toNat = 97 := rfl
      have hf : ('f').val.toNat = 102 := rfl
      omega
    · split at h
      · rename_i hc
        cases h
        simp only [Bool.and_eq_true, decide_eq_true_eq, Char.le_def, UInt32.le_iff_toNat_le] at hc
        have hnat : c.toNat = c.val.toNat := rfl
        have ha : ('A').toNat = 65 := rfl
        have hf : ('F').val.toNat = 70 := rfl
        omega
      · cases h

theorem hex4Val_lt {a b c d : Char} {n : Nat} (h : hex4Val a b c d = some n) : n < 0x10000 := by
  unfold hex4Val at h
  split at h
  · rename_i ha hb hc hd
    cases h
    have ha := hexVal_lt ha
    have hb := hexVal_lt hb
    have hc := hexVal_lt hc
    have hd := hexVal_lt hd
    omega
  · cases h

theorem units_lt {s : Str} {us : List Nat} {r : Str} (h : readUnits s = some (us, r)) :
    ∀ u ∈ us, u < 0x10000 := by
  have hplain {c : Char} {vs : List Nat} (hvs : ∀ u ∈ vs, u < 0x10000) :
      ∀ u ∈ charUnits c ++ vs, u < 0x10000 := by
    intro u hu
    rcases List.mem_append.mp hu with hu | hu
    · exact charUnits_lt c u hu
    · exact hvs u hu
  fun_induction readUnits s generalizing us with
  | case1 => cases h
  | case2 s =>
    cases h
    intro u hu
    cases hu
  | case3 a b c d s hn => cases h
  | case4 a b c d s n hn ih =>
    obtain ⟨⟨vs, _⟩, hread, he⟩ := Option.map_eq_some_iff.mp h
    cases he
    exact List.forall_mem_cons.mpr ⟨hex4Val_lt hn, ih hread⟩
  | case5 e s hu he => cases h
  | case6 e s hu c he ih =>
    obtain ⟨⟨vs, _⟩, hread, heq⟩ := Option.map_eq_some_iff.mp h
    cases heq
    exact hplain (ih hread)
  | case7 c s hq hu he hbad => cases h
  | case8 c s hq hu he hok ih =>
    obtain ⟨⟨vs, _⟩, hread, heq⟩ := Option.map_eq_some_iff.mp h
    cases heq
    exact hplain (ih hread)

theorem StringLit.units_lt (l : StringLit) : ∀ u ∈ l.units, u < 0x10000 := JsonText.units_lt l.valid

/-- The reader keeps the code units of a literal exactly when its surrogates are paired. -/
theorem StringLit.textUnits_chars (l : StringLit) : textUnits l.chars = l.units ↔ l.Paired :=
  units_decodeUnits none (by simp) l.units l.units_lt

end Janus.JsonText
