import Janus.Lib.JsonLiteral

/-!
# What a successful reading says

A text that is read as a string starts with a quote, and one that is read as a list
or an object starts with a first item or member and goes on behind it. The members of an
object can be read with the text of each value.
-/

namespace Janus.JsonText

set_option autoImplicit false

theorem parseValue_str {n : Nat} {t x r : Str} (h : parseValue n t = some (.str x, r)) :
    ∃ t', skipSpace t = '"' :: t' ∧ readString t' = some (x, r) := by
  cases n with
  | zero => cases h
  | succ n =>
    rw [parseValue] at h
    split at h
    · cases h
    · cases h
    · cases h
    · rename_i t' ht
      obtain ⟨⟨cs, r'⟩, hread, heq⟩ := Option.map_eq_some_iff.mp h
      cases heq
      exact ⟨t', ht, hread⟩
    · split at h
      · cases h
      · obtain ⟨⟨xs, r'⟩, _, heq⟩ := Option.map_eq_some_iff.mp h
        cases heq
    · split at h
      · cases h
      · obtain ⟨⟨ms, r'⟩, _, heq⟩ := Option.map_eq_some_iff.mp h
        cases heq
    · unfold readNumber at h
      obtain ⟨x', _, heq⟩ := Option.map_eq_some_iff.mp h
      cases heq

theorem parseValue_arr {n : Nat} {w : Space} {t r : Str} {xs : List Json} (hne : xs ≠ [])
    (h : parseValue (n + 1) (w.text ++ '[' :: t) = some (.arr xs, r)) :
    parseItems n t = some (xs, r) := by
  rcases parseValue_arr_cases (skipSpace_append w rfl t) h with ⟨_, he⟩ | ⟨xs', _, hitems, he⟩
  · cases he
    exact absurd rfl hne
  · cases he
    rw [← parseItems_skipSpace, hitems]

theorem parseValue_obj {n : Nat} {w : Space} {t r : Str} {ms : List (Str × Json)} (hne : ms ≠ [])
    (h : parseValue (n + 1) (w.text ++ '{' :: t) = some (.obj ms, r)) :
    parseMembers n t = some (ms, r) := by
  rcases parseValue_obj_cases (skipSpace_append w rfl t) h with ⟨_, he⟩ | ⟨ms', _, hmembers, he⟩
  · cases he
    exact absurd rfl hne
  · cases he
    rw [← parseMembers_skipSpace, hmembers]

theorem parseItems_cons {n : Nat} {t r : Str} {v : Json} {vs : List Json}
    (h : parseItems (n + 1) t = some (v :: vs, r)) :
    ∃ r', parseValue n t = some (v, r') ∧
      (∀ r'', skipSpace r' = ',' :: r'' → parseItems n r'' = some (vs, r)) := by
  obtain ⟨v', r', hv, hrest⟩ := parseItems_cases h
  rcases hrest with ⟨hend, he⟩ | ⟨r₁, vs', hcomma, hitems, he⟩
  · cases he
    refine ⟨r', hv, ?_⟩
    intro r'' hr''
    rw [hend] at hr''
    cases hr''
  · cases he
    refine ⟨r', hv, ?_⟩
    intro r'' hr''
    rw [hcomma] at hr''
    cases hr''
    exact hitems

theorem parseMembers_cons {n : Nat} {t r k : Str} {v : Json} {ms : List (Str × Json)}
    (h : parseMembers (n + 1) t = some ((k, v) :: ms, r)) :
    ∃ t' r₁, skipSpace t = '"' :: t' ∧ readString t' = some (k, r₁) ∧
      ∀ r₂, skipSpace r₁ = ':' :: r₂ → ∃ r₃, parseValue n r₂ = some (v, r₃) ∧
        ∀ r₄, skipSpace r₃ = ',' :: r₄ → parseMembers n r₄ = some (ms, r) := by
  obtain ⟨t', k', r₁, r₂, v', r₃, ht, hk, hcolon, hv, hrest⟩ := parseMembers_cases h
  have hone {r₂'} (hr₂ : skipSpace r₁ = ':' :: r₂') : r₂' = r₂ := by
    rw [hcolon] at hr₂
    cases hr₂
    rfl
  rcases hrest with ⟨hend, he⟩ | ⟨r₄, ms', hcomma, hmembers, he⟩
  · cases he
    refine ⟨t', r₁, ht, hk, ?_⟩
    intro r₂' hr₂
    refine ⟨r₃, hone hr₂ ▸ hv, ?_⟩
    intro r₄' hr₄
    rw [hend] at hr₄
    cases hr₄
  · cases he
    refine ⟨t', r₁, ht, hk, ?_⟩
    intro r₂' hr₂
    refine ⟨r₃, hone hr₂ ▸ hv, ?_⟩
    intro r₄' hr₄
    rw [hcomma] at hr₄
    cases hr₄
    exact hmembers

theorem delimited_of_tail {s : Str} (h : Tail s) : Delimited s := by
  cases s with
  | nil => trivial
  | cons c t =>
    rcases h with h | rfl | rfl | rfl | rfl
    · exact isNumChar_of_isSpace h
    · rfl
    · rfl
    · rfl
    · rfl

theorem tail_append_space (w : Space) {s : Str} (h : Tail s) : Tail (w.text ++ s) := by
  cases hw : w.text with
  | nil => exact h
  | cons d ds => exact Or.inl (List.all_eq_true.mp w.valid d (by simp [hw]))

/-- The first character of an encoded text is a space only when that of the text is. -/
theorem head_escapeChar_space {c d : Char} {ds : Str} (h : escapeChar c = d :: ds)
    (hd : isSpace d = true) : c = ' ' := by
  unfold escapeChar at h
  split_ifs at h with h1 h2 h3 h4 h5 h6 h7 h8
  · cases h
    exact absurd hd (by decide)
  · cases h
    exact absurd hd (by decide)
  · cases h
    exact absurd hd (by decide)
  · cases h
    exact absurd hd (by decide)
  · cases h
    exact absurd hd (by decide)
  · cases h
    exact absurd hd (by decide)
  · cases h
    exact absurd hd (by decide)
  · cases h
    exact absurd hd (by decide)
  · cases h
    simp only [isSpace, Bool.or_eq_true, decide_eq_true_eq] at hd
    rcases hd with ((rfl | rfl) | rfl) | rfl
    · rfl
    · exact absurd rfl h5
    · exact absurd rfl h3
    · exact absurd rfl h4

/-- An encoded text does not start with a quote, and nor does what follows its spaces. -/
theorem skipSpace_escapeChars {s t : Str} (h : (skipSpace t).head? ≠ some '"') :
    (skipSpace (escapeChars s ++ t)).head? ≠ some '"' := by
  induction s with
  | nil => exact h
  | cons c cs ih =>
    obtain ⟨d, ds, hd⟩ := List.exists_cons_of_ne_nil (escapeChar_ne_nil c)
    have hquote := head_escapeChar c
    have htext : escapeChars (c :: cs) ++ t = d :: (ds ++ (escapeChars cs ++ t)) := by
      simp [escapeChars, hd]
    by_cases hsp : isSpace d = true
    · have hc := head_escapeChar_space hd hsp
      subst hc
      cases hd
      rw [htext]
      exact ih
    · rw [htext, skipSpace, List.dropWhile_cons_of_neg hsp]
      rw [hd] at hquote
      simpa using hquote

/-- A member of an object, its value also as it is written. -/
structure Member where
  name : Str
  value : Json
  text : Str

def Member.entry (m : Member) : Str × Json := (m.name, m.value)

/-- What stands before the rest, without the white space in front. -/
def written (s rest : Str) : Str := (skipSpace s).take ((skipSpace s).length - rest.length)

def readMembers : Nat → Str → Option (List Member × Str)
  | 0, _ => none
  | n + 1, s =>
    match skipSpace s with
    | '"' :: r =>
      (readString r).bind fun (k, r) =>
        match skipSpace r with
        | ':' :: r =>
          (parseValue n r).bind fun (v, r') =>
            match skipSpace r' with
            | '}' :: t => some ([⟨k, v, written r r'⟩], t)
            | ',' :: t => (readMembers n t).map fun (ms, t) => (⟨k, v, written r r'⟩ :: ms, t)
            | _ => none
        | _ => none
    | _ => none

/-- The members of the object that the text starts with. -/
def topMembers (s : Str) : Option (List Member) :=
  match skipSpace s with
  | '{' :: r => (readMembers s.length r).map Prod.fst
  | _ => none

theorem parseMembers_of_readMembers {n : Nat} {s r : Str} {ms : List Member}
    (h : readMembers n s = some (ms, r)) : parseMembers n s = some (ms.map Member.entry, r) := by
  induction n generalizing s ms with
  | zero => cases h
  | succ n ih =>
    rw [readMembers] at h
    split at h
    · rename_i s₁ hs
      obtain ⟨⟨k, r₁⟩, hk, hrest⟩ := Option.bind_eq_some_iff.mp h
      dsimp only at hrest
      split at hrest
      · rename_i r₂ hcolon
        obtain ⟨⟨v, r₃⟩, hv, hrest⟩ := Option.bind_eq_some_iff.mp hrest
        dsimp only at hrest
        split at hrest
        · rename_i r₄ hend
          cases hrest
          simp [parseMembers, hs, hk, hcolon, hv, hend, Member.entry]
        · rename_i r₄ hcomma
          obtain ⟨⟨ms', r₅⟩, hmembers, he⟩ := Option.map_eq_some_iff.mp hrest
          cases he
          simp [parseMembers, hs, hk, hcolon, hv, hcomma, ih hmembers, Member.entry]
        · cases hrest
      · cases hrest
    · cases h

theorem parseValue_of_topMembers {s : Str} {ms : List Member} (h : topMembers s = some ms) :
    (parseValue (s.length + 1) s).map Prod.fst = some (.obj (ms.map Member.entry)) := by
  unfold topMembers at h
  split at h
  · rename_i r hs
    obtain ⟨⟨ms', t⟩, hread, rfl⟩ := Option.map_eq_some_iff.mp h
    have hparse := parseMembers_of_readMembers hread
    rw [parseValue_open_obj _ hs]
    split
    · rename_i r' hend
      cases hn : s.length with
      | zero =>
        rw [hn] at hread
        cases hread
      | succ n =>
        rw [hn, readMembers, hend] at hread
        cases hread
    · rw [parseMembers_skipSpace, hparse]
      rfl
  · cases h

end Janus.JsonText
