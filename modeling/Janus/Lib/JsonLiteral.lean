import Janus.Lib.JsonCompact

/-!
# Broken string literals

A text that was put into a string literal without care can end the literal early or
take a backslash to the text behind it. `Atom` is a piece of such a text with the
characters it was meant to be read as. A reader that returns just these characters has
met proper pieces only (`isOk_of_readFrom`).
-/

namespace Janus.JsonText

set_option autoImplicit false

/-- The characters of a four-digit escape, and the quote. -/
def IsEscapeChar (c : Char) : Prop := c = 'u' ∨ c = '"' ∨ (hexVal c).isSome = true

/-- A piece of the text of a literal with the characters it should be read as: a proper one,
a backslash in the place of an escaped quote, or a bare quote between other characters. -/
inductive Atom where
  | ok (c : LitChar)
  | dangling
  | closing (c : Char) (more : Str) (hplain : IsPlain c) (hesc : ¬ IsEscapeChar c)

namespace Atom

def text : Atom → Str
  | .ok c => c.text
  | .dangling => ['\\']
  | .closing c more _ _ => c :: '"' :: more

def chars : Atom → Str
  | .ok c => [c.char]
  | .dangling => ['"']
  | .closing c more _ _ => c :: '"' :: more

def isOk : Atom → Bool
  | .ok _ => true
  | _ => false

end Atom

def atomsText (as : List Atom) : Str := as.flatMap Atom.text

def atomsChars (as : List Atom) : Str := as.flatMap Atom.chars

/-- What may stand behind a string literal. -/
def Tail : Str → Prop
  | [] => True
  | c :: _ => isSpace c = true ∨ c = ',' ∨ c = ']' ∨ c = '}' ∨ c = ':'

theorem toNat_ofNat_of_valid {n : Nat} (h : n.isValidChar) : (Char.ofNat n).toNat = n := by
  rw [Char.ofNat, dif_pos h]
  rfl

theorem pairChar_large {hi lo : Nat} (hhi : isHigh hi = true) (hlo : isLow lo = true) :
    0xD7FF < (pairChar hi lo).toNat := by
  simp only [isHigh, isLow, Bool.and_eq_true, decide_eq_true_eq] at hhi hlo
  rw [pairChar, toNat_ofNat_of_valid]
  · omega
  · exact Or.inr ⟨by omega, by omega⟩

/-- A pending surrogate is read as a character beyond it. -/
theorem readFrom_pending {n : Nat} (hn : isHigh n = true) {s cs r : Str}
    (h : readFrom (some n) s = some (cs, r)) : ∃ o cs', cs = o :: cs' ∧ 0xD7FF < o.toNat := by
  have hfffd : 0xD7FF < (Char.ofNat 0xFFFD).toNat := by decide
  have hflush (x : Str) : flush (some n) x = Char.ofNat 0xFFFD :: x := rfl
  unfold readFrom at h
  split at h
  · cases h
  · cases h
    exact ⟨_, _, rfl, hfffd⟩
  · split at h
    · cases h
    · split at h
      · obtain ⟨p, _, hp⟩ := Option.map_eq_some_iff.mp h
        cases hp
        exact ⟨_, _, rfl, hfffd⟩
      · split at h
        · rename_i hlow
          dsimp only at h
          obtain ⟨p, _, hp⟩ := Option.map_eq_some_iff.mp h
          cases hp
          exact ⟨_, _, rfl, pairChar_large hn hlow⟩
        · obtain ⟨p, _, hp⟩ := Option.map_eq_some_iff.mp h
          cases hp
          exact ⟨_, _, rfl, hfffd⟩
  · split at h
    · cases h
    · obtain ⟨p, _, hp⟩ := Option.map_eq_some_iff.mp h
      cases hp
      exact ⟨_, _, rfl, hfffd⟩
  · split at h
    · cases h
    · obtain ⟨p, _, hp⟩ := Option.map_eq_some_iff.mp h
      cases hp
      exact ⟨_, _, rfl, hfffd⟩

/-- What a backslash can start: a short escape, a four-digit one, or a surrogate. -/
theorem readFrom_backslash {t cs r : Str} {o : Char}
    (h : readFrom none ('\\' :: t) = some (o :: cs, r)) :
    (∃ e t', t = e :: t' ∧ shortEscape e = some o ∧ readFrom none t' = some (cs, r)) ∨
      (∃ a b c d n t', t = 'u' :: a :: b :: c :: d :: t' ∧ hex4Val a b c d = some n ∧
        Char.ofNat n = o ∧ readFrom none t' = some (cs, r)) ∨ 0xD7FF < o.toNat := by
  have hfffd : 0xD7FF < (Char.ofNat 0xFFFD).toNat := by decide
  unfold readFrom at h
  split at h
  · rename_i heq
    cases heq
  · rename_i heq
    cases heq
  · rename_i a b c d t' heq
    cases heq
    split at h
    · cases h
    · rename_i n hn
      split at h
      · rename_i hhigh
        obtain ⟨⟨cs', r'⟩, hp, heq⟩ := Option.map_eq_some_iff.mp h
        obtain ⟨o', cs'', rfl, hlarge⟩ := readFrom_pending hhigh hp
        cases heq
        exact Or.inr (Or.inr hlarge)
      · split at h
        · dsimp only at h
          obtain ⟨p, _, heq⟩ := Option.map_eq_some_iff.mp h
          cases heq
          exact Or.inr (Or.inr hfffd)
        · obtain ⟨⟨cs', r'⟩, hp, heq⟩ := Option.map_eq_some_iff.mp h
          cases heq
          exact Or.inr (Or.inl ⟨a, b, c, d, n, t', rfl, hn, rfl, hp⟩)
  · rename_i e t' _ heq
    cases heq
    split at h
    · cases h
    · rename_i c hc
      obtain ⟨⟨cs', r'⟩, hp, heq⟩ := Option.map_eq_some_iff.mp h
      cases heq
      exact Or.inl ⟨e, t', rfl, hc, hp⟩
  · rename_i heq
    cases heq
    simp at h

theorem readFrom_plain {c : Char} (h : IsPlain c) (t : Str) :
    readFrom none (c :: t) = (readFrom none t).map fun (cs, r) => (c :: cs, r) :=
  readFrom_lit (.plain h.1 h.2.1 h.2.2) t

theorem escape_not_quote_backslash {c : Char} (h : c = 'u' ∨ (hexVal c).isSome = true) :
    c ≠ '"' ∧ c ≠ '\\' := by
  constructor
  · rintro rfl
    exact absurd h (by decide)
  · rintro rfl
    exact absurd h (by decide)

/-- A text that starts with a character of an escape starts with a proper piece. -/
theorem atoms_head {as : List Atom} {s t : Str} {c : Char} (h : atomsText as ++ '"' :: s = c :: t)
    (hc : c = 'u' ∨ (hexVal c).isSome = true) :
    ∃ lc as', as = .ok lc :: as' ∧ lc.char = c ∧ t = atomsText as' ++ '"' :: s := by
  obtain ⟨hq, hb⟩ := escape_not_quote_backslash hc
  cases as with
  | nil => exact absurd (List.cons.inj h).1.symm hq
  | cons a as' =>
    rw [atomsText, List.flatMap_cons, ← atomsText, List.append_assoc] at h
    cases a with
    | dangling => exact absurd (List.cons.inj h).1.symm hb
    | closing d more hplain hesc =>
      have hd : d = c := (List.cons.inj h).1
      rw [hd] at hesc
      exact absurd (hc.imp_right Or.inr) hesc
    | ok lc =>
      refine ⟨lc, as', rfl, ?_⟩
      obtain ⟨text, char, hvalid⟩ := lc
      dsimp only [Atom.text] at h ⊢
      cases hvalid with
      | plain _ _ _ =>
        obtain ⟨rfl, ht⟩ := List.cons.inj h
        exact ⟨rfl, ht.symm⟩
      | short _ => exact absurd (List.cons.inj h).1.symm hb
      | code _ _ _ => exact absurd (List.cons.inj h).1.symm hb
      | pair _ _ _ _ => exact absurd (List.cons.inj h).1.symm hb

/-- A text that starts with a quote is at its end. -/
theorem atoms_quote {as : List Atom} {s t : Str} (h : atomsText as ++ '"' :: s = '"' :: t) :
    as = [] ∧ t = s := by
  cases as with
  | nil => exact ⟨rfl, (List.cons.inj h).2.symm⟩
  | cons a as' =>
    exfalso
    rw [atomsText, List.flatMap_cons, ← atomsText, List.append_assoc] at h
    cases a with
    | dangling => exact absurd (List.cons.inj h).1 (by decide)
    | closing d more hplain hesc => exact hplain.1 (List.cons.inj h).1
    | ok lc =>
      obtain ⟨text, char, hvalid⟩ := lc
      dsimp only [Atom.text] at h
      cases hvalid with
      | plain hq _ _ => exact hq (List.cons.inj h).1
      | short _ => exact absurd (List.cons.inj h).1 (by decide)
      | code _ _ _ => exact absurd (List.cons.inj h).1 (by decide)
      | pair _ _ _ _ => exact absurd (List.cons.inj h).1 (by decide)

/-- A four-digit escape that a backslash makes of the text behind it takes five pieces. -/
theorem atoms_escape {as : List Atom} {s t : Str} {a b c d : Char} {n : Nat}
    (h : atomsText as ++ '"' :: s = 'u' :: a :: b :: c :: d :: t) (hn : hex4Val a b c d = some n) :
    ∃ as', as'.length < as.length ∧ atomsChars as = 'u' :: a :: b :: c :: d :: atomsChars as' ∧
      t = atomsText as' ++ '"' :: s ∧ ∀ x ∈ ['u', a, b, c, d], IsEscapeChar x := by
  have hhex : (hexVal a).isSome = true ∧ (hexVal b).isSome = true ∧ (hexVal c).isSome = true ∧
      (hexVal d).isSome = true := by
    unfold hex4Val at hn
    split at hn
    · rename_i h1 h2 h3 h4
      simp [h1, h2, h3, h4]
    · cases hn
  obtain ⟨ha, hb, hc, hd⟩ := hhex
  obtain ⟨lu, as1, rfl, hlu, h1⟩ := atoms_head h (Or.inl rfl)
  obtain ⟨la, as2, rfl, hla, h2⟩ := atoms_head h1.symm (Or.inr ha)
  obtain ⟨lb, as3, rfl, hlb, h3⟩ := atoms_head h2.symm (Or.inr hb)
  obtain ⟨lc, as4, rfl, hlc, h4⟩ := atoms_head h3.symm (Or.inr hc)
  obtain ⟨ld, as5, rfl, hld, h5⟩ := atoms_head h4.symm (Or.inr hd)
  refine ⟨as5, ?_, ?_, h5, ?_⟩
  · simp only [List.length_cons]
    omega
  · simp [atomsChars, Atom.chars, hlu, hla, hlb, hlc, hld]
  · simp only [List.mem_cons, List.not_mem_nil, or_false]
    rintro x (rfl | rfl | rfl | rfl | rfl)
    · exact Or.inl rfl
    · exact Or.inr (Or.inr ha)
    · exact Or.inr (Or.inr hb)
    · exact Or.inr (Or.inr hc)
    · exact Or.inr (Or.inr hd)

instance (c : Char) : Decidable (IsPlain c) := inferInstanceAs (Decidable (_ ∧ _ ∧ _))

instance (c : Char) : Decidable (IsEscapeChar c) := inferInstanceAs (Decidable (_ ∨ _ ∨ _))

theorem readFrom_control {c : Char} (hc : c.toNat < 32) (t : Str) : readFrom none (c :: t) = none := by
  have hq : c ≠ '"' := by
    rintro rfl
    exact absurd hc (by decide)
  have hb : c ≠ '\\' := by
    rintro rfl
    exact absurd hc (by decide)
  unfold readFrom
  split
  · rfl
  · rename_i heq
    exact absurd (List.cons.inj heq).1 hq
  · rename_i heq
    exact absurd (List.cons.inj heq).1 hb
  · rename_i heq
    exact absurd (List.cons.inj heq).1 hb
  · rename_i heq
    cases heq
    simp [hc]

/-- Behind a literal there is no character of an escape to be read. -/
theorem readFrom_tail {s cs r : Str} (hs : Tail s) (h : readFrom none s = some (cs, r)) :
    ∃ o cs', cs = o :: cs' ∧ ¬ IsEscapeChar o := by
  cases s with
  | nil => cases h
  | cons c t =>
    have hplain (hp : IsPlain c) (he : ¬ IsEscapeChar c) : ∃ o cs', cs = o :: cs' ∧ ¬ IsEscapeChar o := by
      rw [readFrom_plain hp] at h
      obtain ⟨⟨cs', r'⟩, _, hcs⟩ := Option.map_eq_some_iff.mp h
      cases hcs
      exact ⟨c, cs', rfl, he⟩
    have hcontrol (hc : c.toNat < 32) : ∃ o cs', cs = o :: cs' ∧ ¬ IsEscapeChar o := by
      rw [readFrom_control hc] at h
      cases h
    simp only [Tail, isSpace, Bool.or_eq_true, decide_eq_true_eq] at hs
    rcases hs with (((rfl | rfl) | rfl) | rfl) | rfl | rfl | rfl | rfl
    · exact hplain (by decide) (by decide)
    · exact hcontrol (by decide)
    · exact hcontrol (by decide)
    · exact hcontrol (by decide)
    · exact hplain (by decide) (by decide)
    · exact hplain (by decide) (by decide)
    · exact hplain (by decide) (by decide)
    · exact hplain (by decide) (by decide)

theorem shortEscape_escapeChar {e o : Char} (h : shortEscape e = some o) (ho : IsEscapeChar o) :
    e = '"' := by
  unfold shortEscape at h
  split_ifs at h with h1
  · exact h1
  all_goals
    cases h
    exact absurd ho (by decide)

theorem not_large_of_escapeChar {o : Char} (ho : IsEscapeChar o) : ¬ 0xD7FF < o.toNat := by
  rcases ho with rfl | rfl | ho
  · decide
  · decide
  · unfold hexVal at ho
    split_ifs at ho with h1 h2 h3
    · simp only [Bool.and_eq_true, decide_eq_true_eq] at h1
      have h9 : o.toNat ≤ '9'.toNat := h1.2
      have he : '9'.toNat = 57 := rfl
      omega
    · simp only [Bool.and_eq_true, decide_eq_true_eq] at h2
      have h9 : o.toNat ≤ 'f'.toNat := h2.2
      have he : 'f'.toNat = 102 := rfl
      omega
    · simp only [Bool.and_eq_true, decide_eq_true_eq] at h3
      have h9 : o.toNat ≤ 'F'.toNat := h3.2
      have he : 'F'.toNat = 70 := rfl
      omega
    · cases ho

theorem readFrom_closing {c : Char} (h : IsPlain c) (more t : Str) :
    readFrom none (c :: '"' :: more ++ t) = some ([c], more ++ t) := by
  rw [List.cons_append, readFrom_plain h]
  rfl

/-- What is read cannot have characters of escapes before the characters it should have. -/
theorem readFrom_excess {s r : Str} (hs : Tail s) (as : List Atom) (excess : Str) (hne : excess ≠ [])
    (hexc : ∀ c ∈ excess, IsEscapeChar c) :
    readFrom none (atomsText as ++ '"' :: s) ≠ some (excess ++ atomsChars as, r) := by
  obtain ⟨o, rest, rfl⟩ := List.exists_cons_of_ne_nil hne
  have ho := hexc o List.mem_cons_self
  have hrest : ∀ c ∈ rest, IsEscapeChar c := fun c hc => hexc c (List.mem_cons_of_mem o hc)
  intro h
  match as with
  | [] => cases h
  | .ok lc :: as =>
    have hrun := readFrom_lit lc.valid (atomsText as ++ '"' :: s)
    rw [atomsText, List.flatMap_cons, ← atomsText, List.append_assoc, Atom.text, hrun] at h
    obtain ⟨⟨cs, r'⟩, hread, heq⟩ := Option.map_eq_some_iff.mp h
    -- The character is the first of the excess, and stands behind it again.
    have hcs : cs = rest ++ [o] ++ atomsChars as ∧ r' = r := by
      simp only [List.cons_append, Prod.mk.injEq, List.cons.injEq, atomsChars, List.flatMap_cons,
        Atom.chars] at heq
      obtain ⟨⟨hlc, hcs⟩, hr⟩ := heq
      exact ⟨by rw [hcs, ← hlc]; simp [atomsChars], hr⟩
    obtain ⟨rfl, rfl⟩ := hcs
    refine readFrom_excess hs as (rest ++ [o]) (by simp) ?_ hread
    intro c hc
    rcases List.mem_append.mp hc with hc | hc
    · exact hrest c hc
    · rw [List.mem_singleton.mp hc]
      exact ho
  | .dangling :: as =>
    have hslash : readFrom none ('\\' :: (atomsText as ++ '"' :: s)) =
        some (o :: (rest ++ '"' :: atomsChars as), r) := h
    rcases readFrom_backslash hslash with ⟨e, t, ht, he, hread⟩ | ⟨a, b, c, d, n, t, ht, hn, _, hread⟩ | hlarge
    · rw [shortEscape_escapeChar he ho] at ht
      obtain ⟨rfl, rfl⟩ := atoms_quote ht
      obtain ⟨o', cs', hcs, ho'⟩ := readFrom_tail hs hread
      cases rest with
      | nil =>
        cases hcs
        exact ho' (Or.inr (Or.inl rfl))
      | cons c' rest =>
        cases hcs
        exact ho' (hrest _ List.mem_cons_self)
    · obtain ⟨as', hlt, hchars', rfl, hesc⟩ := atoms_escape ht hn
      rw [hchars'] at hread
      have heq : rest ++ '"' :: 'u' :: a :: b :: c :: d :: atomsChars as' =
          (rest ++ ['"', 'u', a, b, c, d]) ++ atomsChars as' := by simp
      rw [heq] at hread
      refine readFrom_excess hs as' (rest ++ ['"', 'u', a, b, c, d]) (by simp) ?_ hread
      intro x hx
      rcases List.mem_append.mp hx with hx | hx
      · exact hrest x hx
      · rcases List.mem_cons.mp hx with rfl | hx
        · exact Or.inr (Or.inl rfl)
        · exact hesc x hx
    · exact not_large_of_escapeChar ho hlarge
  | .closing c more hplain hesc :: as =>
    rw [atomsText, List.flatMap_cons, ← atomsText, Atom.text, List.append_assoc,
      readFrom_closing hplain] at h
    simp only [Option.some.injEq, Prod.mk.injEq, atomsChars, List.flatMap_cons, Atom.chars] at h
    have hlen := congrArg List.length h.1
    simp at hlen
termination_by as.length

/-- A literal that is read as what it should be consists of proper pieces. -/
theorem isOk_of_readFrom {s r : Str} (hs : Tail s) (as : List Atom)
    (h : readFrom none (atomsText as ++ '"' :: s) = some (atomsChars as, r)) :
    ∀ a ∈ as, a.isOk = true := by
  induction as with
  | nil => simp
  | cons a as ih =>
    rw [atomsText, List.flatMap_cons, ← atomsText] at h
    cases a with
    | ok lc =>
      have hrun := readFrom_lit lc.valid (atomsText as ++ '"' :: s)
      rw [List.append_assoc, Atom.text, hrun] at h
      obtain ⟨⟨cs, r'⟩, hread, heq⟩ := Option.map_eq_some_iff.mp h
      cases heq
      intro a ha
      rcases List.mem_cons.mp ha with rfl | ha
      · rfl
      · exact ih hread a ha
    | dangling =>
      exfalso
      have hquote : IsEscapeChar '"' := Or.inr (Or.inl rfl)
      have hslash : readFrom none ('\\' :: (atomsText as ++ '"' :: s)) =
          some ('"' :: atomsChars as, r) := h
      rcases readFrom_backslash hslash with
        ⟨e, t, ht, he, hread⟩ | ⟨a, b, c, d, n, t, ht, hn, _, hread⟩ | hlarge
      · rw [shortEscape_escapeChar he hquote] at ht
        obtain ⟨rfl, rfl⟩ := atoms_quote ht
        obtain ⟨o', cs', hcs, _⟩ := readFrom_tail hs hread
        cases hcs
      · obtain ⟨as', _, hchars', rfl, hesc⟩ := atoms_escape ht hn
        rw [hchars'] at hread
        exact readFrom_excess hs as' ['u', a, b, c, d] (by simp) hesc hread
      · exact not_large_of_escapeChar hquote hlarge
    | closing c more hplain hesc =>
      exfalso
      rw [Atom.text, List.append_assoc, readFrom_closing hplain] at h
      simp only [Option.some.injEq, Prod.mk.injEq, atomsChars, List.flatMap_cons, Atom.chars] at h
      have hlen := congrArg List.length h.1
      simp at hlen

/-- The characters that can stand before a string in the text of a value. -/
def IsOpener (c : Char) : Prop := c = '[' ∨ c = '{' ∨ c = ','

theorem isPlain_of_isOpener {c : Char} (h : IsOpener c) : IsPlain c := by
  rcases h with rfl | rfl | rfl <;> decide

theorem not_isEscapeChar_of_isOpener {c : Char} (h : IsOpener c) : ¬ IsEscapeChar c := by
  rcases h with rfl | rfl | rfl <;> decide

mutual
/-- The text of a value up to its first string. -/
theorem compact_first_quote (v : Json) (hstr : v.isStr = false) (h : '"' ∈ v.compact) :
    ∃ before c after, v.compact = before ++ c :: '"' :: after ∧ (∀ x ∈ before, IsPlain x) ∧
      IsOpener c := by
  match v with
  | .null => exact absurd h (by decide)
  | .bool true => exact absurd h (by decide)
  | .bool false => exact absurd h (by decide)
  | .num n => exact absurd h (numLit_notMem_quote n)
  | .str s => cases hstr
  | .arr xs =>
    have hxs : '"' ∈ Json.compactItems xs := by simpa [Json.compact] using h
    obtain ⟨before, c, after, htext, hplain, hc⟩ := compactItems_first_quote xs '[' (Or.inl rfl) hxs
    refine ⟨before, c, after ++ [']'], ?_, hplain, hc⟩
    rw [Json.compact, ← List.cons_append, htext]
    simp
  | .obj [] => exact absurd h (by decide)
  | .obj [(k, x)] => exact ⟨[], '{', _, rfl, by simp, Or.inr (Or.inl rfl)⟩
  | .obj ((k, x) :: m :: ms) => exact ⟨[], '{', _, rfl, by simp, Or.inr (Or.inl rfl)⟩
theorem compactItems_first_quote (xs : List Json) (p : Char) (hp : IsOpener p)
    (h : '"' ∈ Json.compactItems xs) :
    ∃ before c after, p :: Json.compactItems xs = before ++ c :: '"' :: after ∧
      (∀ x ∈ before, IsPlain x) ∧ IsOpener c := by
  match xs with
  | [] => cases h
  | [x] =>
    by_cases hx : x.isStr = true
    · cases x with
      | str s => exact ⟨[], p, _, rfl, by simp, hp⟩
      | _ => cases hx
    · obtain ⟨before, c, after, htext, hplain, hc⟩ := compact_first_quote x (by simpa using hx) h
      refine ⟨p :: before, c, after, by rw [Json.compactItems, htext]; rfl, ?_, hc⟩
      intro y hy
      rcases List.mem_cons.mp hy with rfl | hy
      · exact isPlain_of_isOpener hp
      · exact hplain y hy
  | x :: y :: ys =>
    by_cases hx : x.isStr = true
    · cases x with
      | str s => exact ⟨[], p, _, rfl, by simp, hp⟩
      | _ => cases hx
    · by_cases hquote : '"' ∈ x.compact
      · obtain ⟨before, c, after, htext, hplain, hc⟩ := compact_first_quote x (by simpa using hx) hquote
        refine ⟨p :: before, c, after ++ ',' :: Json.compactItems (y :: ys), ?_, ?_, hc⟩
        · rw [Json.compactItems, htext]
          simp
        · intro z hz
          rcases List.mem_cons.mp hz with rfl | hz
          · exact isPlain_of_isOpener hp
          · exact hplain z hz
      · have hrest : '"' ∈ Json.compactItems (y :: ys) := by
          rw [Json.compactItems] at h
          rcases List.mem_append.mp h with h | h
          · exact absurd h hquote
          · rcases List.mem_cons.mp h with h | h
            · cases h
            · exact h
        obtain ⟨before, c, after, htext, hplain, hc⟩ :=
          compactItems_first_quote (y :: ys) ',' (Or.inr (Or.inr rfl)) hrest
        refine ⟨p :: x.compact ++ before, c, after, ?_, ?_, hc⟩
        · rw [Json.compactItems, htext]
          simp
        · intro z hz
          rcases List.mem_append.mp hz with hz | hz
          · rcases List.mem_cons.mp hz with rfl | hz
            · exact isPlain_of_isOpener hp
            · exact compact_plain x hquote z hz
          · exact hplain z hz
end

theorem exists_plainAtoms {s : Str} (h : ∀ c ∈ s, IsPlain c) :
    ∃ as : List Atom, atomsText as = s ∧ atomsChars as = s := by
  induction s with
  | nil => exact ⟨[], rfl, rfl⟩
  | cons c cs ih =>
    obtain ⟨as, htext, hchars⟩ := ih fun d hd => h d (List.mem_cons_of_mem c hd)
    obtain ⟨hq, hb, hctl⟩ := h c List.mem_cons_self
    refine ⟨.ok ⟨[c], c, .plain hq hb hctl⟩ :: as, ?_, ?_⟩
    · rw [atomsText, List.flatMap_cons, ← atomsText, htext]
      rfl
    · rw [atomsChars, List.flatMap_cons, ← atomsChars, hchars]
      rfl

theorem exists_escapedAtoms (s : Str) :
    ∃ as : List Atom, atomsText as = escapeChars s ∧ atomsChars as = s := by
  induction s with
  | nil => exact ⟨[], rfl, rfl⟩
  | cons c cs ih =>
    obtain ⟨as, htext, hchars⟩ := ih
    refine ⟨.ok ⟨escapeChar c, c, litText_escapeChar c⟩ :: as, ?_, ?_⟩
    · rw [atomsText, List.flatMap_cons, ← atomsText, htext]
      rfl
    · rw [atomsChars, List.flatMap_cons, ← atomsChars, hchars]
      rfl

theorem atomsText_append (as bs : List Atom) : atomsText (as ++ bs) = atomsText as ++ atomsText bs :=
  List.flatMap_append

theorem atomsChars_append (as bs : List Atom) :
    atomsChars (as ++ bs) = atomsChars as ++ atomsChars bs := List.flatMap_append

end Janus.JsonText
