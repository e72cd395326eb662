import Janus.Lib.JsonText

/-!
# The text of a value

The compact text of a value is the print of a syntax tree, so the reader returns the
value. It starts and ends with a quote for strings only, and without a string in it
it has no character that a literal would have to escape.
-/

namespace Janus.JsonText

set_option autoImplicit false

def noSpace : Space := ⟨[], rfl⟩

mutual
/-- The syntax tree of a value's compact text. -/
def Cst.ofJson : Json → Cst Empty
  | .null => .null
  | .bool b => .bool b
  | .num n => .num n
  | .str s => .str (litParts s)
  | .arr [] => .arrEmpty noSpace
  | .arr (x :: xs) => .arr (Items.ofJson (x :: xs))
  | .obj [] => .objEmpty noSpace
  | .obj (m :: ms) => .obj (Members.ofJson (m :: ms))
def Items.ofJson : List Json → Items Empty
  | [] => .one noSpace .null noSpace
  | [x] => .one noSpace (Cst.ofJson x) noSpace
  | x :: y :: xs => .more noSpace (Cst.ofJson x) noSpace (Items.ofJson (y :: xs))
def Members.ofJson : List (Str × Json) → Members Empty
  | [] => .one noSpace [] noSpace noSpace .null noSpace
  | [(k, x)] => .one noSpace (litParts k) noSpace noSpace (Cst.ofJson x) noSpace
  | (k, x) :: m :: ms =>
    .more noSpace (litParts k) noSpace noSpace (Cst.ofJson x) noSpace (Members.ofJson (m :: ms))
end

mutual
theorem print_ofJson (v : Json) : (Cst.ofJson v).print Empty.elim = v.compact := by
  match v with
  | .null => rfl
  | .bool true => rfl
  | .bool false => rfl
  | .num n => rfl
  | .str s => simp only [Cst.ofJson, Cst.print, printParts_litParts, Json.compact, quoteChars]
  | .arr [] => rfl
  | .arr (x :: xs) =>
    have h := items_print_ofJson (x :: xs) (List.cons_ne_nil x xs)
    simp only [Cst.ofJson, Cst.print, Json.compact, h]
  | .obj [] => rfl
  | .obj (m :: ms) =>
    have h := members_print_ofJson (m :: ms) (List.cons_ne_nil m ms)
    simp only [Cst.ofJson, Cst.print, Json.compact, h]
theorem items_print_ofJson (xs : List Json) (hne : xs ≠ []) :
    (Items.ofJson xs).print Empty.elim = Json.compactItems xs ++ [']'] := by
  match xs with
  | [] => exact absurd rfl hne
  | [x] =>
    have h := print_ofJson x
    simp only [Items.ofJson, Items.print, noSpace, Json.compactItems, h, List.nil_append]
  | x :: y :: ys =>
    have hx := print_ofJson x
    have hy := items_print_ofJson (y :: ys) (List.cons_ne_nil y ys)
    simp only [Items.ofJson, Items.print, noSpace, Json.compactItems, hx, hy, List.nil_append,
      List.append_assoc, List.cons_append]
theorem members_print_ofJson (ms : List (Str × Json)) (hne : ms ≠ []) :
    (Members.ofJson ms).print Empty.elim = Json.compactMembers ms ++ ['}'] := by
  match ms with
  | [] => exact absurd rfl hne
  | [(k, x)] =>
    have h := print_ofJson x
    simp only [Members.ofJson, Members.print, noSpace, Json.compactMembers, quoteChars, h,
      printParts_litParts, List.nil_append, List.append_assoc, List.cons_append]
  | (k, x) :: m :: ms =>
    have hx := print_ofJson x
    have hm := members_print_ofJson (m :: ms) (List.cons_ne_nil m ms)
    simp only [Members.ofJson, Members.print, noSpace, Json.compactMembers, quoteChars, hx, hm,
      printParts_litParts, List.nil_append, List.append_assoc, List.cons_append]
end

mutual
theorem value_ofJson (v : Json) : (Cst.ofJson v).value = v := by
  match v with
  | .null => rfl
  | .bool b => rfl
  | .num n => rfl
  | .str s => simp only [Cst.ofJson, Cst.value, plainChars_litParts]
  | .arr [] => rfl
  | .arr (x :: xs) =>
    have h := items_value_ofJson (x :: xs) (List.cons_ne_nil x xs)
    simp only [Cst.ofJson, Cst.value, h]
  | .obj [] => rfl
  | .obj (m :: ms) =>
    have h := members_value_ofJson (m :: ms) (List.cons_ne_nil m ms)
    simp only [Cst.ofJson, Cst.value, h]
theorem items_value_ofJson (xs : List Json) (hne : xs ≠ []) : (Items.ofJson xs).values = xs := by
  match xs with
  | [] => exact absurd rfl hne
  | [x] =>
    have h := value_ofJson x
    simp only [Items.ofJson, Items.values, h]
  | x :: y :: ys =>
    have hx := value_ofJson x
    have hy := items_value_ofJson (y :: ys) (List.cons_ne_nil y ys)
    simp only [Items.ofJson, Items.values, hx, hy]
theorem members_value_ofJson (ms : List (Str × Json)) (hne : ms ≠ []) :
    (Members.ofJson ms).values = ms := by
  match ms with
  | [] => exact absurd rfl hne
  | [(k, x)] =>
    have h := value_ofJson x
    simp only [Members.ofJson, Members.values, h, plainChars_litParts]
  | (k, x) :: m :: ms =>
    have hx := value_ofJson x
    have hm := members_value_ofJson (m :: ms) (List.cons_ne_nil m ms)
    simp only [Members.ofJson, Members.values, hx, hm, plainChars_litParts]
end

/-- The reader returns the value of a compact text. -/
theorem parse_compact (v : Json) : parse v.compact = some v := by
  have h := parse_print noSpace noSpace (Cst.ofJson v)
  rw [print_ofJson, value_ofJson] at h
  simpa [noSpace] using h

theorem numLit_notMem_quote (n : NumLit) : '"' ∉ n.text := by
  intro h
  exact absurd (numLit_numChar n _ h) (by decide)

/-- The text of a value that is no string neither starts nor ends with a quote. -/
theorem compact_ends {v : Json} (h : v.isStr = false) :
    v.compact.head? ≠ some '"' ∧ v.compact.getLast? ≠ some '"' := by
  cases v with
  | null => decide
  | bool b => cases b <;> decide
  | num n =>
    have hn := numLit_notMem_quote n
    constructor
    · exact fun he => hn (List.mem_of_mem_head? he)
    · exact fun he => hn (List.mem_of_mem_getLast? he)
  | str s => cases h
  | arr xs =>
    refine ⟨by simp [Json.compact], ?_⟩
    rw [Json.compact, ← List.cons_append, List.getLast?_concat]
    decide
  | obj ms =>
    refine ⟨by simp [Json.compact], ?_⟩
    rw [Json.compact, ← List.cons_append, List.getLast?_concat]
    decide

/-- A character that a string literal holds as it is. -/
def IsPlain (c : Char) : Prop := c ≠ '"' ∧ c ≠ '\\' ∧ 32 ≤ c.toNat

theorem isPlain_of_isNumChar {c : Char} (h : isNumChar c = true) : IsPlain c := by
  refine ⟨?_, ?_, ?_⟩
  · rintro rfl
    exact absurd h (by decide)
  · rintro rfl
    exact absurd h (by decide)
  · simp only [isNumChar, isDigit, Bool.or_eq_true, Bool.and_eq_true, decide_eq_true_eq] at h
    rcases h with ((((⟨hlow, _⟩ | rfl) | rfl) | rfl) | rfl) | rfl
    · have h48 : '0'.toNat ≤ c.toNat := hlow
      have h0 : '0'.toNat = 48 := rfl
      omega
    all_goals decide

mutual
/-- Without a string in it, the text of a value needs no escapes. -/
theorem compact_plain (v : Json) (h : '"' ∉ v.compact) : ∀ c ∈ v.compact, IsPlain c := by
  match v with
  | .null => simp [Json.compact, IsPlain]
  | .bool true => simp [Json.compact, IsPlain]
  | .bool false => simp [Json.compact, IsPlain]
  | .num n => exact fun c hc => isPlain_of_isNumChar (numLit_numChar n c hc)
  | .str s => exact absurd List.mem_cons_self h
  | .arr xs =>
    have hxs := compactItems_plain xs (fun hm => h (by simp [Json.compact, hm]))
    intro c hc
    simp only [Json.compact, List.mem_cons, List.mem_append, List.not_mem_nil, or_false] at hc
    rcases hc with rfl | hc | rfl
    · simp [IsPlain]
    · exact hxs c hc
    · simp [IsPlain]
  | .obj [] => simp [Json.compact, Json.compactMembers, IsPlain]
  | .obj ((k, x) :: []) => exact absurd (by simp [Json.compact, Json.compactMembers, quoteChars]) h
  | .obj ((k, x) :: m :: ms) => exact absurd (by simp [Json.compact, Json.compactMembers, quoteChars]) h
theorem compactItems_plain (xs : List Json) (h : '"' ∉ Json.compactItems xs) :
    ∀ c ∈ Json.compactItems xs, IsPlain c := by
  match xs with
  | [] => simp [Json.compactItems]
  | [x] => exact compact_plain x h
  | x :: y :: ys =>
    have hx := compact_plain x (fun hm => h (by simp [Json.compactItems, hm]))
    have hy := compactItems_plain (y :: ys) (fun hm => h (by simp [Json.compactItems, hm]))
    intro c hc
    rw [Json.compactItems] at hc
    rcases List.mem_append.mp hc with hc | hc
    · exact hx c hc
    · rcases List.mem_cons.mp hc with rfl | hc
      · simp [IsPlain]
      · exact hy c hc
end

/-- The text of a value that is no string starts with neither a quote nor a space. -/
theorem compact_start {v : Json} (h : v.isStr = false) :
    ∃ c cs, v.compact = c :: cs ∧ isSpace c = false ∧ c ≠ '"' := by
  cases v with
  | null => exact ⟨'n', _, rfl, rfl, by decide⟩
  | bool b =>
    cases b with
    | true => exact ⟨'t', _, rfl, rfl, by decide⟩
    | false => exact ⟨'f', _, rfl, rfl, by decide⟩
  | num n =>
    obtain ⟨c, cs, hn⟩ := List.exists_cons_of_ne_nil (numLit_ne_nil n)
    have hc : isNumChar c = true := numLit_numChar n c (by simp [hn])
    exact ⟨c, cs, hn, isSpace_of_isNumChar hc, (isPlain_of_isNumChar hc).1⟩
  | str s => cases h
  | arr xs => exact ⟨'[', _, rfl, rfl, by decide⟩
  | obj ms => exact ⟨'{', _, rfl, rfl, by decide⟩

/-- A text that needs no escapes, as parts of a string literal. -/
theorem exists_plainParts {s : Str} (h : ∀ c ∈ s, IsPlain c) :
    ∃ qs : List (StrPart Empty), printParts Empty.elim qs = s ∧ plainChars qs = s := by
  induction s with
  | nil => exact ⟨[], rfl, rfl⟩
  | cons c cs ih =>
    obtain ⟨qs, hprint, hchars⟩ := ih fun d hd => h d (List.mem_cons_of_mem c hd)
    obtain ⟨hq, hb, hctl⟩ := h c List.mem_cons_self
    refine ⟨.lit ⟨[c], c, .plain hq hb hctl⟩ :: qs, ?_, ?_⟩
    · rw [printParts, List.flatMap_cons, ← printParts, hprint]
      rfl
    · rw [plainChars, List.map_cons, ← plainChars, hchars]

end Janus.JsonText
