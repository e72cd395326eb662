import Janus.Lib.JsonText

/-!
# The quotes of a JSON text

A JSON text is cut by its quotes into parts that are alternately outside and inside a
string, an escaped quote apart. Outside stand only white space, punctuation, numbers and
the three literals, and behind a string stands white space or punctuation
(`lexes_of_parse`).
-/

namespace Janus.JsonText

set_option autoImplicit false

def isDelimiter (c : Char) : Bool := isSpace c || c = ',' || c = ':' || c = ']' || c = '}'

/-- The characters that stand outside the strings. -/
def isStructural (c : Char) : Bool :=
  isSpace c || isNumChar c || c ∈ "[]{},:truefalsn".toList

/-- What may follow the closing quote of a string. -/
def closes (z : Str) : Bool := z.head?.all isDelimiter

/-- The reading of a text by its quotes, from outside or from inside a string. -/
def lexes : Bool → Str → Bool
  | false, [] => true
  | true, [] => false
  | false, c :: s => if c = '"' then lexes true s else isStructural c && lexes false s
  | true, '\\' :: _ :: s => lexes true s
  | true, c :: s => if c = '"' then closes s && lexes false s else c != '\\' && lexes true s

theorem isStructural_ne_quote {c : Char} (h : isStructural c = true) : c ≠ '"' := by
  rintro rfl
  exact absurd h (by decide)

theorem lexes_cons {c : Char} {s : Str} (hc : isStructural c = true) (h : lexes false s = true) :
    lexes false (c :: s) = true := by
  simp [lexes, isStructural_ne_quote hc, hc, h]

theorem lexes_append {u s : Str} (hu : ∀ c ∈ u, isStructural c = true) (h : lexes false s = true) :
    lexes false (u ++ s) = true := by
  induction u with
  | nil => exact h
  | cons c u ih =>
    obtain ⟨hc, hu⟩ := List.forall_mem_cons.mp hu
    exact lexes_cons hc (ih hu)

theorem isStructural_of_isSpace {c : Char} (h : isSpace c = true) : isStructural c = true := by
  simp [isStructural, h]

theorem isStructural_of_isNumChar {c : Char} (h : isNumChar c = true) : isStructural c = true := by
  simp [isStructural, h]

theorem lexes_of_skipSpace {s : Str} (h : lexes false (skipSpace s) = true) :
    lexes false s = true := by
  rw [← List.takeWhile_append_dropWhile (p := isSpace) (l := s)]
  exact lexes_append (fun c hc => isStructural_of_isSpace (List.mem_takeWhile_imp hc)) h

/-- White space may follow a string, and behind it what may follow one. -/
theorem closes_of_skipSpace {s : Str} (h : closes (skipSpace s) = true) : closes s = true := by
  cases s with
  | nil => rfl
  | cons c s =>
    by_cases hc : isSpace c = true
    · simp [closes, isDelimiter, hc]
    · have hskip : skipSpace (c :: s) = c :: s := List.dropWhile_cons_of_neg hc
      rwa [hskip] at h

/-- What may stand between the quotes of a string: every quote in it is escaped. -/
def isLiteral : Str → Bool
  | [] => true
  | '\\' :: _ :: s => isLiteral s
  | c :: s => c != '"' && c != '\\' && isLiteral s

theorem literal_cons {c : Char} (hq : c ≠ '"') (hb : c ≠ '\\') (s : Str) :
    isLiteral (c :: s) = isLiteral s := by
  rw [isLiteral]
  · simp [hq, hb]
  · intro d s' he _
    exact hb he

theorem lexes_inside {c : Char} (hq : c ≠ '"') (hb : c ≠ '\\') (s : Str) :
    lexes true (c :: s) = lexes true s := by
  rw [lexes]
  · simp [hq, hb]
  · intro d s' he _
    exact hb he

theorem lexes_literal (x : Str) (h : isLiteral x = true) (z : Str) :
    lexes true (x ++ '"' :: z) = (closes z && lexes false z) := by
  induction x using isLiteral.induct with
  | case1 => rw [List.nil_append, lexes, if_pos rfl]; intro d s he; cases he
  | case2 e s ih =>
    rw [isLiteral] at h
    exact ih h
  | case3 c s hnot ih =>
    rw [isLiteral] at h
    · obtain ⟨hc, hs⟩ := Bool.and_eq_true_iff.mp h
      obtain ⟨hq, hb⟩ := Bool.and_eq_true_iff.mp hc
      rw [List.cons_append, lexes_inside (by simpa using hq) (by simpa using hb), ih hs]
    · exact hnot

theorem hexVal_ne_none {c : Char} (h : hexVal c ≠ none) : c ≠ '"' ∧ c ≠ '\\' := by
  refine ⟨?_, ?_⟩
  · rintro rfl
    exact h (by decide)
  · rintro rfl
    exact h (by decide)

theorem literal_hex {a b c d : Char} {n : Nat} (h : hex4Val a b c d = some n) (s : Str) :
    isLiteral (a :: b :: c :: d :: s) = isLiteral s := by
  unfold hex4Val at h
  split at h
  · rename_i ha hb hc hd
    have hex : ∀ {x : Char} {k : Nat}, hexVal x = some k → x ≠ '"' ∧ x ≠ '\\' := by
      intro x k hx
      exact hexVal_ne_none (by rw [hx]; simp)
    rw [literal_cons (hex ha).1 (hex ha).2, literal_cons (hex hb).1 (hex hb).2,
      literal_cons (hex hc).1 (hex hc).2, literal_cons (hex hd).1 (hex hd).2]
  · cases h

theorem readFrom_of_map {p : Option Nat} {s cs r : Str} {f : Str × Str → Str × Str}
    (h : (readFrom p s).map f = some (cs, r)) (hf : ∀ x, (f x).2 = x.2) :
    ∃ ds, readFrom p s = some (ds, r) := by
  obtain ⟨⟨ds, r'⟩, hread, he⟩ := Option.map_eq_some_iff.mp h
  have hr := hf (ds, r')
  rw [he] at hr
  cases hr
  exact ⟨ds, hread⟩

/-- What is read of a string is a literal and its closing quote. -/
theorem readFrom_split (p : Option Nat) (s : Str) {cs r : Str} (h : readFrom p s = some (cs, r)) :
    ∃ x, s = x ++ '"' :: r ∧ isLiteral x = true := by
  have hcode : ∀ {a b c d : Char} {n : Nat} {s : Str}, hex4Val a b c d = some n →
      (∃ x, s = x ++ '"' :: r ∧ isLiteral x = true) →
        ∃ x, '\\' :: 'u' :: a :: b :: c :: d :: s = x ++ '"' :: r ∧ isLiteral x = true := by
    rintro a b c d n s hn ⟨x, rfl, hx⟩
    refine ⟨'\\' :: 'u' :: a :: b :: c :: d :: x, rfl, ?_⟩
    rw [isLiteral, literal_hex hn, hx]
  induction p, s using readFrom.induct generalizing cs with
  | case1 => cases h
  | case2 p s =>
    cases h
    exact ⟨[], rfl, rfl⟩
  | case3 p a b c d s hn => simp [readFrom, hn] at h
  | case4 p a b c d s n hn hhigh ih =>
    simp only [readFrom, hn, hhigh, if_true] at h
    obtain ⟨ds, hread⟩ := readFrom_of_map h fun _ => rfl
    exact hcode hn (ih hread)
  | case5 a b c d s n hn hhigh hlow hi ih =>
    simp only [readFrom, hn, hhigh, hlow, if_true, Bool.false_eq_true, if_false] at h
    obtain ⟨ds, hread⟩ := readFrom_of_map h fun _ => rfl
    exact hcode hn (ih hread)
  | case6 a b c d s n hn hhigh hlow ih =>
    simp only [readFrom, hn, hhigh, hlow, if_true, Bool.false_eq_true, if_false] at h
    obtain ⟨ds, hread⟩ := readFrom_of_map h fun _ => rfl
    exact hcode hn (ih hread)
  | case7 p a b c d s n hn hhigh hlow ih =>
    simp only [readFrom, hn, hhigh, hlow, Bool.false_eq_true, if_false] at h
    obtain ⟨ds, hread⟩ := readFrom_of_map h fun _ => rfl
    exact hcode hn (ih hread)
  | case8 p e s hu he =>
    rw [readFrom] at h
    · simp [he] at h
    · exact hu
  | case9 p e s hu c he ih =>
    rw [readFrom] at h
    · simp only [he] at h
      obtain ⟨ds, hread⟩ := readFrom_of_map h fun _ => rfl
      obtain ⟨x, rfl, hx⟩ := ih hread
      exact ⟨'\\' :: e :: x, rfl, hx⟩
    · exact hu
  | case10 p c s hq hu he hbad =>
    rw [readFrom] at h
    · simp [hbad] at h
    · exact hq
    · exact hu
    · exact he
  | case11 p c s hq hu he hok ih =>
    rw [readFrom] at h
    · simp only [hok, Bool.false_eq_true, if_false] at h
      obtain ⟨ds, hread⟩ := readFrom_of_map h fun _ => rfl
      obtain ⟨x, rfl, hx⟩ := ih hread
      have hb : c ≠ '\\' := by
        rintro rfl
        simp at hok
      refine ⟨c :: x, rfl, ?_⟩
      rw [literal_cons hq hb, hx]
    · exact hq
    · exact hu
    · exact he

theorem length_of_readString {s cs r : Str} (h : readString s = some (cs, r)) :
    r.length < s.length := by
  obtain ⟨x, rfl, _⟩ := readFrom_split none s h
  rw [List.length_append, List.length_cons]
  omega

theorem map_readFrom_append {p : Option Nat} {s z cs r : Str} (g : Str → Str)
    (ih : ∀ {ds}, readFrom p s = some (ds, r) → readFrom p (s ++ z) = some (ds, r ++ z))
    (h : (readFrom p s).map (fun (ds, r) => (g ds, r)) = some (cs, r)) :
    (readFrom p (s ++ z)).map (fun (ds, r) => (g ds, r)) = some (cs, r ++ z) := by
  obtain ⟨⟨ds, r'⟩, hds, he⟩ := Option.map_eq_some_iff.mp h
  cases he
  rw [ih hds]
  rfl

/-- What stands behind the closing quote is not read. -/
theorem readFrom_append (p : Option Nat) (s z : Str) {cs r : Str} (h : readFrom p s = some (cs, r)) :
    readFrom p (s ++ z) = some (cs, r ++ z) := by
  induction p, s using readFrom.induct generalizing cs with
  | case1 => cases h
  | case2 p s =>
    cases h
    rfl
  | case3 p a b c d s hn => simp [readFrom, hn] at h
  | case4 p a b c d s n hn hhigh ih =>
    simp only [List.cons_append, readFrom, hn, hhigh, if_true] at h ⊢
    exact map_readFrom_append _ ih h
  | case5 a b c d s n hn hhigh hlow hi ih =>
    simp only [List.cons_append, readFrom, hn, hhigh, hlow, if_true, Bool.false_eq_true, if_false] at h ⊢
    exact map_readFrom_append _ ih h
  | case6 a b c d s n hn hhigh hlow ih =>
    simp only [List.cons_append, readFrom, hn, hhigh, hlow, if_true, Bool.false_eq_true, if_false] at h ⊢
    exact map_readFrom_append _ ih h
  | case7 p a b c d s n hn hhigh hlow ih =>
    simp only [List.cons_append, readFrom, hn, hhigh, hlow, Bool.false_eq_true, if_false] at h ⊢
    exact map_readFrom_append (fun ds => flush p (Char.ofNat n :: ds)) ih h
  | case8 p e s hu he =>
    rw [readFrom] at h
    · simp [he] at h
    · exact hu
  | case9 p e s hu c he ih =>
    -- a short escape is not the `u` of a longer one, whatever follows
    have hne : ∀ a b c d s', e = 'u' → s ++ z = a :: b :: c :: d :: s' → False := by
      rintro a b c' d s' rfl _
      simp [shortEscape] at he
    rw [readFrom] at h
    · rw [List.cons_append, List.cons_append, readFrom]
      · simp only [he] at h ⊢
        exact map_readFrom_append (fun ds => flush p (c :: ds)) ih h
      · exact hne
    · exact hu
  | case10 p c s hq hu he hbad =>
    rw [readFrom] at h
    · simp [hbad] at h
    · exact hq
    · exact hu
    · exact he
  | case11 p c s hq hu he hok ih =>
    have hb : c ≠ '\\' := by
      rintro rfl
      simp at hok
    rw [readFrom] at h
    · rw [List.cons_append, readFrom]
      · simp only [hok, Bool.false_eq_true, if_false] at h ⊢
        exact map_readFrom_append (fun ds => flush p (c :: ds)) ih h
      · exact hq
      · intro a b c' d s' hc _
        exact hb hc
      · intro e s' hc _
        exact hb hc
    · exact hq
    · exact hu
    · exact he

/-- A literal without an escaped quote, or the part of one up to its first. -/
theorem literal_part (x : Str) (h : isLiteral x = true) : '"' ∉ x ∨
    ∃ f x', x = f ++ '"' :: x' ∧ '"' ∉ f ∧ f.getLast? = some '\\' ∧ isLiteral x' = true := by
  induction x using isLiteral.induct with
  | case1 => exact Or.inl (by simp)
  | case2 e s ih =>
    rw [isLiteral] at h
    by_cases he : e = '"'
    · subst he
      exact Or.inr ⟨['\\'], s, rfl, by decide, rfl, h⟩
    · have hne : '"' ∉ ['\\', e] := by simpa using fun h => he h.symm
      rcases ih h with hs | ⟨f, x', rfl, hf, hlast, hx⟩
      · exact Or.inl (List.not_mem_append hne hs)
      · refine Or.inr ⟨['\\', e] ++ f, x', rfl, List.not_mem_append hne hf, ?_, hx⟩
        rw [List.getLast?_append, hlast]
        rfl
  | case3 c s hnot ih =>
    rw [isLiteral] at h
    · obtain ⟨hc, hs⟩ := Bool.and_eq_true_iff.mp h
      have hne : '"' ∉ [c] := by
        have hq : c ≠ '"' := by simpa using (Bool.and_eq_true_iff.mp hc).1
        simpa using fun h => hq h.symm
      rcases ih hs with hs | ⟨f, x', rfl, hf, hlast, hx⟩
      · exact Or.inl (List.not_mem_append hne hs)
      · refine Or.inr ⟨[c] ++ f, x', rfl, List.not_mem_append hne hf, ?_, hx⟩
        rw [List.getLast?_append, hlast]
        rfl
    · exact hnot

theorem lexes_of_readString {s cs r : Str} (h : readString s = some (cs, r)) (hc : closes r = true)
    (hr : lexes false r = true) : lexes false ('"' :: s) = true := by
  obtain ⟨x, rfl, hx⟩ := readFrom_split none s h
  rw [lexes, if_pos rfl, lexes_literal x hx, hc, hr]
  rfl

theorem lexes_of_readNumber {s r : Str} {v : Json} (h : readNumber s = some (v, r))
    (hr : lexes false r = true) : lexes false s = true := by
  obtain ⟨n, _, he⟩ := Option.map_eq_some_iff.mp h
  cases he
  rw [← List.takeWhile_append_dropWhile (p := isNumChar) (l := s)]
  exact lexes_append (fun c hc => isStructural_of_isNumChar (List.mem_takeWhile_imp hc)) hr

theorem lexes_word {u : String} {s r : Str} (hu : u.toList.all isStructural = true)
    (hs : s = u.toList ++ r) (hr : lexes false r = true) : lexes false s = true := by
  rw [hs]
  exact lexes_append (List.all_eq_true.mp hu) hr

/-- What the reader of each kind of text, with so many rounds, says about the quotes. -/
structure ReadsLexed (n : Nat) : Prop where
  value : ∀ s v r, parseValue n s = some (v, r) → closes r = true → lexes false r = true →
    lexes false s = true
  items : ∀ s vs r, parseItems n s = some (vs, r) → lexes false r = true → lexes false s = true
  members : ∀ s ms r, parseMembers n s = some (ms, r) → lexes false r = true →
    lexes false s = true

theorem lexes_of_parseValue {n : Nat} (ih : ReadsLexed n) {s r : Str} {v : Json}
    (h : parseValue (n + 1) s = some (v, r)) (hc : closes r = true) (hr : lexes false r = true) :
    lexes false s = true := by
  apply lexes_of_skipSpace
  have hvalue := h
  simp only [parseValue] at h
  split at h
  · rename_i r' hs
    cases h
    exact lexes_word (u := "null") (by decide) hs hr
  · rename_i r' hs
    cases h
    exact lexes_word (u := "true") (by decide) hs hr
  · rename_i r' hs
    cases h
    exact lexes_word (u := "false") (by decide) hs hr
  · rename_i r' hs
    obtain ⟨⟨cs, r''⟩, hread, he⟩ := Option.map_eq_some_iff.mp h
    cases he
    rw [hs]
    exact lexes_of_readString hread hc hr
  · rename_i r' hs
    rw [hs]
    apply lexes_cons (by decide)
    apply lexes_of_skipSpace
    rcases parseValue_arr_cases hs hvalue with ⟨hend, _⟩ | ⟨xs, _, hread, _⟩
    · rw [hend]
      exact lexes_cons (by decide) hr
    · exact ih.items _ _ _ hread hr
  · rename_i r' hs
    rw [hs]
    apply lexes_cons (by decide)
    apply lexes_of_skipSpace
    rcases parseValue_obj_cases hs hvalue with ⟨hend, _⟩ | ⟨ms, _, hread, _⟩
    · rw [hend]
      exact lexes_cons (by decide) hr
    · exact ih.members _ _ _ hread hr
  · exact lexes_of_readNumber h hr

/-- What stands behind a value, a comma or the closing bracket. -/
theorem lexes_behind {c : Char} {s r : Str} (hs : skipSpace s = c :: r) (hdelim : isDelimiter c = true)
    (hstruct : isStructural c = true) (hr : lexes false r = true) :
    closes s = true ∧ lexes false s = true := by
  refine ⟨closes_of_skipSpace ?_, lexes_of_skipSpace ?_⟩
  · rw [hs]
    exact hdelim
  · rw [hs]
    exact lexes_cons hstruct hr

theorem lexes_of_parseItems {n : Nat} (ih : ReadsLexed n) {s r : Str} {vs : List Json}
    (h : parseItems (n + 1) s = some (vs, r)) (hr : lexes false r = true) : lexes false s = true := by
  obtain ⟨v, r₁, hv, hrest⟩ := parseItems_cases h
  rcases hrest with ⟨hend, _⟩ | ⟨r₂, vs', hcomma, hitems, _⟩
  · obtain ⟨hc, hl⟩ := lexes_behind hend (by decide) (by decide) hr
    exact ih.value s v r₁ hv hc hl
  · obtain ⟨hc, hl⟩ := lexes_behind hcomma (by decide) (by decide) (ih.items _ _ _ hitems hr)
    exact ih.value s v r₁ hv hc hl

theorem lexes_of_parseMembers {n : Nat} (ih : ReadsLexed n) {s r : Str} {ms : List (Str × Json)}
    (h : parseMembers (n + 1) s = some (ms, r)) (hr : lexes false r = true) : lexes false s = true := by
  obtain ⟨s₁, k, r₁, r₂, v, r₃, hs, hk, hcolon, hv, hrest⟩ := parseMembers_cases h
  have hvalue : lexes false r₂ = true := by
    rcases hrest with ⟨hend, _⟩ | ⟨r₄, ms', hcomma, hmembers, _⟩
    · obtain ⟨hc, hl⟩ := lexes_behind hend (by decide) (by decide) hr
      exact ih.value r₂ v r₃ hv hc hl
    · obtain ⟨hc, hl⟩ := lexes_behind hcomma (by decide) (by decide) (ih.members _ _ _ hmembers hr)
      exact ih.value r₂ v r₃ hv hc hl
  obtain ⟨hc, hl⟩ := lexes_behind hcolon (by decide) (by decide) hvalue
  apply lexes_of_skipSpace
  rw [hs]
  exact lexes_of_readString hk hc hl

theorem readsLexed (n : Nat) : ReadsLexed n := by
  induction n with
  | zero =>
    refine ⟨?_, ?_, ?_⟩
    · intro s v r h
      cases h
    · intro s vs r h
      cases h
    · intro s ms r h
      cases h
  | succ n ih =>
    exact ⟨fun _ _ _ => lexes_of_parseValue ih, fun _ _ _ => lexes_of_parseItems ih,
      fun _ _ _ => lexes_of_parseMembers ih⟩

theorem closes_of_isEmpty {s : Str} (h : (skipSpace s).isEmpty = true) :
    closes s = true ∧ lexes false s = true := by
  have hnil : skipSpace s = [] := List.isEmpty_iff.mp h
  refine ⟨closes_of_skipSpace ?_, lexes_of_skipSpace ?_⟩
  · rw [hnil]
    rfl
  · rw [hnil]
    rfl

/-- Every text that is read is read by its quotes. -/
theorem lexes_of_parse {s : Str} {v : Json} (h : parse s = some v) : lexes false s = true := by
  unfold parse at h
  split at h
  · rename_i w r hvalue
    split at h
    · rename_i hempty
      obtain ⟨hc, hr⟩ := closes_of_isEmpty hempty
      exact (readsLexed _).value s w r hvalue hc hr
    · cases h
  · cases h

/-- Outside the strings everything up to a quote is structural. -/
theorem outside_part (s : Str) (h : lexes false s = true) :
    (∀ c ∈ s, isStructural c = true) ∨
      ∃ f z, s = f ++ '"' :: z ∧ (∀ c ∈ f, isStructural c = true) ∧ lexes true z = true := by
  induction s with
  | nil => exact Or.inl (by simp)
  | cons c s ih =>
    rw [lexes] at h
    split at h
    · rename_i hc
      exact Or.inr ⟨[], s, by rw [hc]; rfl, by simp, h⟩
    · obtain ⟨hc, hs⟩ := Bool.and_eq_true_iff.mp h
      rcases ih hs with hall | ⟨f, z, rfl, hf, hz⟩
      · exact Or.inl (List.forall_mem_cons.mpr ⟨hc, hall⟩)
      · exact Or.inr ⟨c :: f, z, rfl, List.forall_mem_cons.mpr ⟨hc, hf⟩, hz⟩

/-- Inside a string there is a quote, which is escaped or ends the string. -/
theorem inside_part (s : Str) (h : lexes true s = true) :
    ∃ f z, s = f ++ '"' :: z ∧ '"' ∉ f ∧
      (f.getLast? = some '\\' ∧ lexes true z = true ∨ closes z = true ∧ lexes false z = true) := by
  induction hk : s.length using Nat.strong_induction_on generalizing s with
  | _ k ih =>
    have hgrow : ∀ (u t : Str), u ≠ [] → '"' ∉ u → s = u ++ t → lexes true t = true →
        ∃ f z, s = f ++ '"' :: z ∧ '"' ∉ f ∧
          (f.getLast? = some '\\' ∧ lexes true z = true ∨
            closes z = true ∧ lexes false z = true) := by
      intro u t hu hq hs ht
      have hlt : t.length < k := by
        have hpos := List.length_pos_of_ne_nil hu
        rw [← hk, hs, List.length_append]
        omega
      obtain ⟨f, z, rfl, hf, hz⟩ := ih t.length hlt t ht rfl
      refine ⟨u ++ f, z, by rw [hs, List.append_assoc], ?_, hz.imp_left ?_⟩
      · simp [hq, hf]
      · rintro ⟨hlast, hin⟩
        rw [List.getLast?_append, hlast]
        exact ⟨rfl, hin⟩
    cases s with
    | nil => cases h
    | cons c s =>
      by_cases hb : c = '\\'
      · subst hb
        cases s with
        | nil => simp [lexes] at h
        | cons e s =>
          rw [lexes] at h
          by_cases he : e = '"'
          · subst he
            exact ⟨['\\'], s, rfl, by decide, Or.inl ⟨rfl, h⟩⟩
          · exact hgrow ['\\', e] s (by simp) (by simpa using fun h => he h.symm) rfl h
      · by_cases hq : c = '"'
        · subst hq
          have hz : closes s = true ∧ lexes false s = true := by simpa [lexes] using h
          exact ⟨[], s, rfl, by simp, Or.inr hz⟩
        · rw [lexes_inside hq hb] at h
          exact hgrow [c] s (by simp) (by simpa using fun h => hq h.symm) rfl h

end Janus.JsonText
