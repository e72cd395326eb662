import Janus.Lib.Json
import Mathlib.Data.List.TakeWhile

/-!
# JSON text

A recursive-descent reader on character lists and the concrete syntax it reads.
`Cst H` is the syntax tree of a JSON document with all its white space, escapes
and number literals, in which a value or a part of a string literal may be a hole
of type `H`; `Cst Empty` is plain JSON. The reader returns the value of every
plain tree (`parse_print`).
-/

namespace Janus.JsonText

set_option autoImplicit false

def isSpace (c : Char) : Bool := c = ' ' || c = '\t' || c = '\n' || c = '\r'

def skipSpace (s : Str) : Str := s.dropWhile isSpace

def hexVal (c : Char) : Option Nat :=
  if '0' ≤ c && c ≤ '9' then some (c.toNat - '0'.toNat)
  else if 'a' ≤ c && c ≤ 'f' then some (c.toNat - 'a'.toNat + 10)
  else if 'A' ≤ c && c ≤ 'F' then some (c.toNat - 'A'.toNat + 10)
  else none

def hex4Val (a b c d : Char) : Option Nat :=
  match hexVal a, hexVal b, hexVal c, hexVal d with
  | some a, some b, some c, some d => some (a * 4096 + b * 256 + c * 16 + d)
  | _, _, _, _ => none

def isHigh (n : Nat) : Bool := 0xD800 ≤ n && n < 0xDC00

def isLow (n : Nat) : Bool := 0xDC00 ≤ n && n < 0xE000

def pairChar (hi lo : Nat) : Char := Char.ofNat (0x10000 + (hi - 0xD800) * 1024 + (lo - 0xDC00))

def shortEscape (e : Char) : Option Char :=
  if e = '"' then some '"'
  else if e = '\\' then some '\\'
  else if e = '/' then some '/'
  else if e = 'b' then some (Char.ofNat 8)
  else if e = 'f' then some (Char.ofNat 12)
  else if e = 'n' then some '\n'
  else if e = 'r' then some '\r'
  else if e = 't' then some '\t'
  else none

/-- A pending high surrogate that found no partner is read as U+FFFD. -/
def flush (pending : Option Nat) (cs : Str) : Str :=
  if pending.isSome then Char.ofNat 0xFFFD :: cs else cs

/-- The rest of a string literal after its opening quote. -/
def readFrom : Option Nat → Str → Option (Str × Str)
  | _, [] => none
  | p, '"' :: s => some (flush p [], s)
  | p, '\\' :: 'u' :: a :: b :: c :: d :: s =>
    match hex4Val a b c d with
    | none => none
    | some n =>
      if isHigh n then (readFrom (some n) s).map fun (cs, r) => (flush p cs, r)
      else if isLow n then
        match p with
        | some hi => (readFrom none s).map fun (cs, r) => (pairChar hi n :: cs, r)
        | none => (readFrom none s).map fun (cs, r) => (Char.ofNat 0xFFFD :: cs, r)
      else (readFrom none s).map fun (cs, r) => (flush p (Char.ofNat n :: cs), r)
  | p, '\\' :: e :: s =>
    match shortEscape e with
    | none => none
    | some c => (readFrom none s).map fun (cs, r) => (flush p (c :: cs), r)
  | p, c :: s =>
    if c = '\\' || c.toNat < 32 then none
    else (readFrom none s).map fun (cs, r) => (flush p (c :: cs), r)

def readString (s : Str) : Option (Str × Str) := readFrom none s

def isNumChar (c : Char) : Bool :=
  isDigit c || c = '-' || c = '+' || c = '.' || c = 'e' || c = 'E'

def readNumber (s : Str) : Option (Json × Str) :=
  (numLit? (s.takeWhile isNumChar)).map fun n => (.num n, s.dropWhile isNumChar)

mutual
def parseValue : Nat → Str → Option (Json × Str)
  | 0, _ => none
  | n + 1, s =>
    match skipSpace s with
    | 'n' :: 'u' :: 'l' :: 'l' :: r => some (.null, r)
    | 't' :: 'r' :: 'u' :: 'e' :: r => some (.bool true, r)
    | 'f' :: 'a' :: 'l' :: 's' :: 'e' :: r => some (.bool false, r)
    | '"' :: r => (readString r).map fun (cs, r) => (.str cs, r)
    | '[' :: r =>
      match skipSpace r with
      | ']' :: r => some (.arr [], r)
      | r => (parseItems n r).map fun (xs, r) => (.arr xs, r)
    | '{' :: r =>
      match skipSpace r with
      | '}' :: r => some (.obj [], r)
      | r => (parseMembers n r).map fun (ms, r) => (.obj ms, r)
    | r => readNumber r
def parseItems : Nat → Str → Option (List Json × Str)
  | 0, _ => none
  | n + 1, s =>
    (parseValue n s).bind fun (v, r) =>
      match skipSpace r with
      | ']' :: r => some ([v], r)
      | ',' :: r => (parseItems n r).map fun (vs, r) => (v :: vs, r)
      | _ => none
def parseMembers : Nat → Str → Option (List (Str × Json) × Str)
  | 0, _ => none
  | n + 1, s =>
    match skipSpace s with
    | '"' :: r =>
      (readString r).bind fun (k, r) =>
        match skipSpace r with
        | ':' :: r =>
          (parseValue n r).bind fun (v, r) =>
            match skipSpace r with
            | '}' :: r => some ([(k, v)], r)
            | ',' :: r => (parseMembers n r).map fun (ms, r) => ((k, v) :: ms, r)
            | _ => none
        | _ => none
    | _ => none
end

theorem parseValue_open_arr (n : Nat) {s t : Str} (h : skipSpace s = '[' :: t) :
    parseValue (n + 1) s = match skipSpace t with
      | ']' :: r => some (.arr [], r)
      | r => (parseItems n r).map fun (xs, r) => (.arr xs, r) := by
  rw [parseValue, h]
  rfl

theorem parseValue_open_obj (n : Nat) {s t : Str} (h : skipSpace s = '{' :: t) :
    parseValue (n + 1) s = match skipSpace t with
      | '}' :: r => some (.obj [], r)
      | r => (parseMembers n r).map fun (ms, r) => (.obj ms, r) := by
  rw [parseValue, h]
  rfl

/-- A list is empty, or its items are read behind the bracket. -/
theorem parseValue_arr_cases {n : Nat} {s t r : Str} {v : Json} (hs : skipSpace s = '[' :: t)
    (h : parseValue (n + 1) s = some (v, r)) :
    (skipSpace t = ']' :: r ∧ v = .arr []) ∨
      ∃ xs, (∀ r', skipSpace t = ']' :: r' → False) ∧ parseItems n (skipSpace t) = some (xs, r) ∧
        v = .arr xs := by
  rw [parseValue_open_arr n hs] at h
  split at h
  · rename_i r₁ hend
    cases h
    exact .inl ⟨hend, rfl⟩
  · rename_i hnot
    obtain ⟨⟨xs, r₁⟩, hread, he⟩ := Option.map_eq_some_iff.mp h
    cases he
    exact .inr ⟨xs, hnot, hread, rfl⟩

/-- An object is empty, or its members are read behind the brace. -/
theorem parseValue_obj_cases {n : Nat} {s t r : Str} {v : Json} (hs : skipSpace s = '{' :: t)
    (h : parseValue (n + 1) s = some (v, r)) :
    (skipSpace t = '}' :: r ∧ v = .obj []) ∨
      ∃ ms, (∀ r', skipSpace t = '}' :: r' → False) ∧ parseMembers n (skipSpace t) = some (ms, r) ∧
        v = .obj ms := by
  rw [parseValue_open_obj n hs] at h
  split at h
  · rename_i r₁ hend
    cases h
    exact .inl ⟨hend, rfl⟩
  · rename_i hnot
    obtain ⟨⟨ms, r₁⟩, hread, he⟩ := Option.map_eq_some_iff.mp h
    cases he
    exact .inr ⟨ms, hnot, hread, rfl⟩

/-- Behind an item stands the end of the list, or a comma with further items behind it. -/
theorem parseItems_cases {n : Nat} {s r : Str} {vs : List Json}
    (h : parseItems (n + 1) s = some (vs, r)) :
    ∃ v r₁, parseValue n s = some (v, r₁) ∧
      ((skipSpace r₁ = ']' :: r ∧ vs = [v]) ∨
        ∃ r₂ vs', skipSpace r₁ = ',' :: r₂ ∧ parseItems n r₂ = some (vs', r) ∧ vs = v :: vs') := by
  rw [parseItems] at h
  obtain ⟨⟨v, r₁⟩, hv, hrest⟩ := Option.bind_eq_some_iff.mp h
  refine ⟨v, r₁, hv, ?_⟩
  dsimp only at hrest
  split at hrest
  · rename_i r₂ hend
    cases hrest
    exact .inl ⟨hend, rfl⟩
  · rename_i r₂ hcomma
    obtain ⟨⟨vs', r₃⟩, hitems, he⟩ := Option.map_eq_some_iff.mp hrest
    cases he
    exact .inr ⟨r₂, vs', hcomma, hitems, rfl⟩
  · cases hrest

/-- A member is a name, a colon and a value, with the end of the object or a comma behind it. -/
theorem parseMembers_cases {n : Nat} {s r : Str} {ms : List (Str × Json)}
    (h : parseMembers (n + 1) s = some (ms, r)) :
    ∃ s₁ k r₁ r₂ v r₃, skipSpace s = '"' :: s₁ ∧ readString s₁ = some (k, r₁) ∧
      skipSpace r₁ = ':' :: r₂ ∧ parseValue n r₂ = some (v, r₃) ∧
      ((skipSpace r₃ = '}' :: r ∧ ms = [(k, v)]) ∨
        ∃ r₄ ms', skipSpace r₃ = ',' :: r₄ ∧ parseMembers n r₄ = some (ms', r) ∧
          ms = (k, v) :: ms') := by
  rw [parseMembers] at h
  split at h
  · rename_i s₁ hs
    obtain ⟨⟨k, r₁⟩, hk, hrest⟩ := Option.bind_eq_some_iff.mp h
    dsimp only at hrest
    split at hrest
    · rename_i r₂ hcolon
      obtain ⟨⟨v, r₃⟩, hv, hrest⟩ := Option.bind_eq_some_iff.mp hrest
      refine ⟨s₁, k, r₁, r₂, v, r₃, hs, hk, hcolon, hv, ?_⟩
      dsimp only at hrest
      split at hrest
      · rename_i r₄ hend
        cases hrest
        exact .inl ⟨hend, rfl⟩
      · rename_i r₄ hcomma
        obtain ⟨⟨ms', r₅⟩, hmembers, he⟩ := Option.map_eq_some_iff.mp hrest
        cases he
        exact .inr ⟨r₄, ms', hcomma, hmembers, rfl⟩
      · cases hrest
    · cases hrest
  · cases h

/-- The value of a whole text. -/
def parse (s : Str) : Option Json :=
  match parseValue (s.length + 1) s with
  | some (v, r) => if (skipSpace r).isEmpty then some v else none
  | none => none

/-- One character of a string literal as it is written: plain, a short escape,
a four-digit escape, or a surrogate pair. -/
inductive LitText : Str → Char → Prop where
  | plain {c : Char} : c ≠ '"' → c ≠ '\\' → 32 ≤ c.toNat → LitText [c] c
  | short {e c : Char} : shortEscape e = some c → LitText ['\\', e] c
  | code {a b c d : Char} {n : Nat} : hex4Val a b c d = some n → isHigh n = false →
      isLow n = false → LitText ['\\', 'u', a, b, c, d] (Char.ofNat n)
  | pair {a b c d e f g h : Char} {n m : Nat} : hex4Val a b c d = some n → isHigh n = true →
      hex4Val e f g h = some m → isLow m = true →
      LitText ['\\', 'u', a, b, c, d, '\\', 'u', e, f, g, h] (pairChar n m)

structure LitChar where
  text : Str
  char : Char
  valid : LitText text char

structure Space where
  text : Str
  valid : text.all isSpace = true

inductive StrPart (H : Type) where
  | lit (c : LitChar)
  | hole (h : H)

mutual
inductive Cst (H : Type) where
  | null
  | bool (b : Bool)
  | num (n : NumLit)
  | str (parts : List (StrPart H))
  | hole (h : H)
  | arrEmpty (ws : Space)
  | arr (items : Items H)
  | objEmpty (ws : Space)
  | obj (members : Members H)
inductive Items (H : Type) where
  | one (before : Space) (v : Cst H) (after : Space)
  | more (before : Space) (v : Cst H) (after : Space) (rest : Items H)
inductive Members (H : Type) where
  | one (before : Space) (name : List (StrPart H)) (mid before' : Space) (v : Cst H) (after : Space)
  | more (before : Space) (name : List (StrPart H)) (mid before' : Space) (v : Cst H) (after : Space)
      (rest : Members H)
end

section Print
variable {H : Type} (hole : H → Str)

def StrPart.print : StrPart H → Str
  | .lit c => c.text
  | .hole h => hole h

def printParts (ps : List (StrPart H)) : Str := ps.flatMap (StrPart.print hole)

mutual
def Cst.print : Cst H → Str
  | .null => "null".toList
  | .bool true => "true".toList
  | .bool false => "false".toList
  | .num n => n.text
  | .str ps => '"' :: (printParts hole ps ++ ['"'])
  | .hole h => hole h
  | .arrEmpty ws => '[' :: (ws.text ++ [']'])
  | .arr xs => '[' :: xs.print
  | .objEmpty ws => '{' :: (ws.text ++ ['}'])
  | .obj ms => '{' :: ms.print
def Items.print : Items H → Str
  | .one w v w' => w.text ++ (v.print ++ (w'.text ++ [']']))
  | .more w v w' rest => w.text ++ (v.print ++ (w'.text ++ ',' :: rest.print))
def Members.print : Members H → Str
  | .one w k m w' v w'' =>
    w.text ++ '"' :: (printParts hole k ++ '"' :: (m.text ++ ':' :: (w'.text ++ (v.print ++ (w''.text ++ ['}'])))))
  | .more w k m w' v w'' rest =>
    w.text ++ '"' :: (printParts hole k ++ '"' :: (m.text ++ ':' :: (w'.text ++ (v.print ++ (w''.text ++ ',' :: rest.print)))))
end

end Print

def plainChars (ps : List (StrPart Empty)) : Str :=
  ps.map fun
    | .lit c => c.char
    | .hole h => h.elim

mutual
def Cst.value : Cst Empty → Json
  | .null => .null
  | .bool b => .bool b
  | .num n => .num n
  | .str ps => .str (plainChars ps)
  | .hole h => h.elim
  | .arrEmpty _ => .arr []
  | .arr xs => .arr xs.values
  | .objEmpty _ => .obj []
  | .obj ms => .obj ms.values
def Items.values : Items Empty → List Json
  | .one _ v _ => [v.value]
  | .more _ v _ rest => v.value :: rest.values
def Members.values : Members Empty → List (Str × Json)
  | .one _ k _ _ v _ => [(plainChars k, v.value)]
  | .more _ k _ _ v _ rest => (plainChars k, v.value) :: rest.values
end

theorem skipSpace_append (w : Space) {c : Char} (hc : isSpace c = false) (s : Str) :
    skipSpace (w.text ++ c :: s) = c :: s := by
  have hw := List.all_eq_true.mp w.valid
  rw [skipSpace, List.dropWhile_append_of_pos hw, List.dropWhile_cons_of_neg (by simp [hc])]

theorem hexVal_hexDigit : ∀ k < 16, hexVal (hexDigit k) = some k := by decide

theorem hex4Val_hex4 {n : Nat} (hn : n < 65536) :
    hex4Val (hexDigit (n / 4096 % 16)) (hexDigit (n / 256 % 16)) (hexDigit (n / 16 % 16))
      (hexDigit (n % 16)) = some n := by
  have h (k : Nat) : hexVal (hexDigit (k % 16)) = some (k % 16) :=
    hexVal_hexDigit _ (Nat.mod_lt _ (by decide))
  simp only [hex4Val, h, Option.some.injEq]
  omega

theorem litText_unicode {c : Char} (hn : c.toNat < 65536) :
    LitText ('\\' :: 'u' :: hex4 c.toNat) c := by
  have hv := c.valid
  have hns : c.toNat < 0xD800 ∨ 0xDFFF < c.toNat := by
    rcases hv with hv | hv
    · exact Or.inl hv
    · exact Or.inr hv.1
  have hh : isHigh c.toNat = false := by
    simp only [isHigh, Bool.and_eq_false_iff, decide_eq_false_iff_not]
    omega
  have hl : isLow c.toNat = false := by
    simp only [isLow, Bool.and_eq_false_iff, decide_eq_false_iff_not]
    omega
  have h := LitText.code (hex4Val_hex4 hn) hh hl
  rw [Char.ofNat_toNat] at h
  exact h

/-- Every character of an encoded string is read back. -/
theorem litText_escapeChar (c : Char) : LitText (escapeChar c) c := by
  have hc (n : Nat) (h : c.toNat = n) : c = Char.ofNat n := by rw [← h, Char.ofNat_toNat]
  unfold escapeChar
  split
  · rename_i h1
    exact .short (by rw [h1]; rfl)
  rename_i h1
  split
  · rename_i h2
    exact .short (by rw [h2]; rfl)
  rename_i h2
  split
  · rename_i h3
    exact .short (by rw [h3]; rfl)
  split
  · rename_i h4
    exact .short (by rw [h4]; rfl)
  split
  · rename_i h5
    exact .short (by rw [h5]; rfl)
  split
  · rename_i h6
    exact .short (by rw [hc 8 h6]; rfl)
  split
  · rename_i h7
    exact .short (by rw [hc 12 h7]; rfl)
  split
  · rename_i h8
    apply litText_unicode
    simp only [Bool.or_eq_true, decide_eq_true_eq] at h8
    rcases h8 with ((((h | rfl) | rfl) | rfl) | h) | h
    · omega
    · decide
    · decide
    · decide
    · omega
    · omega
  · rename_i h8
    simp only [Bool.or_eq_true, decide_eq_true_eq, not_or] at h8
    exact .plain h1 h2 (by omega)

def litParts {H : Type} (cs : Str) : List (StrPart H) :=
  cs.map fun c => .lit ⟨escapeChar c, c, litText_escapeChar c⟩

theorem printParts_litParts {H : Type} (hole : H → Str) (cs : Str) :
    printParts hole (litParts cs) = escapeChars cs := by
  induction cs with
  | nil => rfl
  | cons c cs ih =>
    simp only [printParts, litParts, escapeChars, List.map_cons, List.flatMap_cons] at ih ⊢
    rw [ih]
    rfl

theorem plainChars_litParts (cs : Str) : plainChars (litParts cs) = cs := by
  simp [plainChars, litParts, Function.comp_def]

theorem readFrom_lit {text : Str} {ch : Char} (h : LitText text ch) (s : Str) :
    readFrom none (text ++ s) = (readFrom none s).map fun (cs, r) => (ch :: cs, r) := by
  cases h with
  | plain hq hb hctl =>
    have hlt : ¬ ch.toNat < 32 := by omega
    simp [readFrom, hb, hlt, flush]
  | @short e _ he =>
    have hu : e ≠ 'u' := by
      intro hu
      subst e
      simp [shortEscape] at he
    simp [readFrom, he, flush, hu]
  | code hn hh hl => simp [readFrom, hn, hh, hl, flush]
  | @pair _ _ _ _ _ _ _ _ n m hn hh hm hl =>
    have hh' : isHigh m = false := by
      simp only [isLow, Bool.and_eq_true, decide_eq_true_eq] at hl
      simp only [isHigh, Bool.and_eq_false_iff, decide_eq_false_iff_not]
      exact Or.inr (by omega)
    simp [readFrom, hn, hh, hm, hl, hh', flush, Function.comp_def]

theorem readString_parts (ps : List (StrPart Empty)) (s : Str) :
    readString (printParts Empty.elim ps ++ '"' :: s) = some (plainChars ps, s) := by
  induction ps with
  | nil => simp [readString, printParts, readFrom, plainChars, flush]
  | cons p ps ih =>
    cases p with
    | hole h => exact h.elim
    | lit c =>
      simp only [readString, printParts, List.flatMap_cons, StrPart.print, List.append_assoc] at ih ⊢
      rw [readFrom_lit c.valid, ih]
      simp [plainChars]

/-- What may follow a number: the end of the text, or no character of a number. -/
def Delimited : Str → Prop
  | [] => True
  | c :: _ => isNumChar c = false

theorem isDigit_isNumChar {c : Char} (h : isDigit c = true) : isNumChar c = true := by
  simp [isNumChar, h]

theorem takeWhile_digits_numChar (s : Str) : ∀ c ∈ s.takeWhile isDigit, isNumChar c = true := by
  intro c hc
  have h := List.all_eq_true.mp (List.all_takeWhile (p := isDigit) (l := s)) c hc
  exact isDigit_isNumChar h

theorem exponent_numChar {s : Str} (h : isExponent s = true) : ∀ c ∈ s, isNumChar c = true := by
  cases s with
  | nil => simp
  | cons e s =>
    simp only [isExponent, Bool.and_eq_true, Bool.or_eq_true, decide_eq_true_eq] at h
    obtain ⟨he, hs⟩ := h
    have hse : ∀ c ∈ s, isNumChar c = true := by
      intro c hc
      split at hs
      · simp only [Bool.and_eq_true, List.all_eq_true] at hs
        rcases List.mem_cons.mp hc with rfl | hc
        · rfl
        · exact isDigit_isNumChar (hs.2 c hc)
      · simp only [Bool.and_eq_true, List.all_eq_true] at hs
        rcases List.mem_cons.mp hc with rfl | hc
        · rfl
        · exact isDigit_isNumChar (hs.2 c hc)
      · simp only [Bool.and_eq_true, List.all_eq_true] at hs
        exact isDigit_isNumChar (hs.2 c hc)
    intro c hc
    rcases List.mem_cons.mp hc with rfl | hc
    · rcases he with rfl | rfl <;> rfl
    · exact hse c hc

theorem fraction_numChar {s : Str} (h : isFraction s = true) : ∀ c ∈ s, isNumChar c = true := by
  unfold isFraction at h
  split at h
  · rename_i s
    simp only [Bool.and_eq_true] at h
    intro c hc
    rcases List.mem_cons.mp hc with rfl | hc
    · rfl
    · rw [← List.takeWhile_append_dropWhile (p := isDigit) (l := s)] at hc
      rcases List.mem_append.mp hc with hc | hc
      · exact takeWhile_digits_numChar s c hc
      · exact exponent_numChar h.2 c hc
  · exact exponent_numChar h

theorem unsigned_numChar {s : Str} (h : isUnsigned s = true) : ∀ c ∈ s, isNumChar c = true := by
  have hf : isFraction (s.dropWhile isDigit) = true := by
    unfold isUnsigned at h
    split at h
    · simp at h
    · simp at h
    · exact h
  intro c hc
  rw [← List.takeWhile_append_dropWhile (p := isDigit) (l := s)] at hc
  rcases List.mem_append.mp hc with hc | hc
  · exact takeWhile_digits_numChar s c hc
  · exact fraction_numChar hf c hc

theorem numLit_numChar (n : NumLit) : ∀ c ∈ n.text, isNumChar c = true := by
  have h := n.valid
  unfold isNumLit at h
  split at h
  · rename_i s he
    intro c hc
    rw [he] at hc
    rcases List.mem_cons.mp hc with rfl | hc
    · rfl
    · exact unsigned_numChar h c hc
  · exact unsigned_numChar h

theorem numLit_ne_nil (n : NumLit) : n.text ≠ [] := by
  intro he
  have h := n.valid
  rw [he] at h
  simp [isNumLit, isUnsigned] at h

theorem readNumber_numLit (n : NumLit) {s : Str} (hs : Delimited s) :
    readNumber (n.text ++ s) = some (.num n, s) := by
  have hall := numLit_numChar n
  have htake : (n.text ++ s).takeWhile isNumChar = n.text := by
    rw [List.takeWhile_append_of_pos hall]
    cases s with
    | nil => simp
    | cons c s => rw [List.takeWhile_cons_of_neg (by simpa [Delimited] using hs)]; simp
  have hdrop : (n.text ++ s).dropWhile isNumChar = s := by
    rw [List.dropWhile_append_of_pos hall]
    cases s with
    | nil => rfl
    | cons c s => rw [List.dropWhile_cons_of_neg (by simpa [Delimited] using hs)]
  simp [readNumber, htake, hdrop, numLit?, n.valid]

theorem isNumChar_of_isSpace {c : Char} (h : isSpace c = true) : isNumChar c = false := by
  simp only [isSpace, Bool.or_eq_true, decide_eq_true_eq] at h
  rcases h with ((rfl | rfl) | rfl) | rfl <;> rfl

theorem isSpace_of_isNumChar {c : Char} (h : isNumChar c = true) : isSpace c = false := by
  by_contra hs
  rw [isNumChar_of_isSpace (by simpa using hs)] at h
  cases h

theorem delimited_append_space (w : Space) {c : Char} (hc : isNumChar c = false) (s : Str) :
    Delimited (w.text ++ c :: s) := by
  cases hw : w.text with
  | nil => exact hc
  | cons d ds =>
    exact isNumChar_of_isSpace (List.all_eq_true.mp w.valid d (by simp [hw]))

theorem parseValue_num (w : Space) (x : NumLit) (n : Nat) {s : Str} (hs : Delimited s) :
    parseValue (n + 1) (w.text ++ (x.text ++ s)) = some (.num x, s) := by
  obtain ⟨c, cs, hx⟩ := List.exists_cons_of_ne_nil (numLit_ne_nil x)
  have hc : isNumChar c = true := numLit_numChar x c (by simp [hx])
  have hsp := isSpace_of_isNumChar hc
  have hr := readNumber_numLit x hs
  rw [hx, List.cons_append] at hr ⊢
  rw [parseValue, skipSpace_append w hsp]
  split <;> first
    | exact hr
    | (rename_i he
       obtain ⟨rfl, _⟩ := List.cons.inj he
       exact absurd hc (by decide))

theorem skipSpace_space (w : Space) (s : Str) : skipSpace (w.text ++ s) = skipSpace s :=
  List.dropWhile_append_of_pos (List.all_eq_true.mp w.valid)

/-- The first character of a value's text: no white space, and no closing bracket. -/
theorem print_head (v : Cst Empty) :
    ∃ c cs, v.print Empty.elim = c :: cs ∧ isSpace c = false ∧ c ≠ ']' := by
  cases v with
  | null => exact ⟨'n', _, rfl, rfl, by decide⟩
  | bool b => cases b <;> exact ⟨_, _, rfl, rfl, by decide⟩
  | num x =>
    obtain ⟨c, cs, hx⟩ := List.exists_cons_of_ne_nil (numLit_ne_nil x)
    have hc : isNumChar c = true := numLit_numChar x c (by simp [hx])
    refine ⟨c, cs, hx, isSpace_of_isNumChar hc, ?_⟩
    intro he
    subst c
    exact absurd hc (by decide)
  | str ps => exact ⟨'"', _, rfl, rfl, by decide⟩
  | hole h => exact h.elim
  | arrEmpty ws => exact ⟨'[', _, rfl, rfl, by decide⟩
  | arr xs => exact ⟨'[', _, rfl, rfl, by decide⟩
  | objEmpty ws => exact ⟨'{', _, rfl, rfl, by decide⟩
  | obj ms => exact ⟨'{', _, rfl, rfl, by decide⟩

theorem items_print_head (xs : Items Empty) (s : Str) :
    ∃ c cs, skipSpace (xs.print Empty.elim ++ s) = c :: cs ∧ c ≠ ']' := by
  cases xs with
  | one w v w' =>
    obtain ⟨c, cs, hv, hc, hb⟩ := print_head v
    refine ⟨c, cs ++ (w'.text ++ [']']) ++ s, ?_, hb⟩
    simp only [Items.print, hv, List.append_assoc, List.cons_append]
    rw [skipSpace_append w hc]
  | more w v w' rest =>
    obtain ⟨c, cs, hv, hc, hb⟩ := print_head v
    refine ⟨c, cs ++ (w'.text ++ ',' :: rest.print Empty.elim) ++ s, ?_, hb⟩
    simp only [Items.print, hv, List.append_assoc, List.cons_append]
    rw [skipSpace_append w hc]

theorem members_print_head (ms : Members Empty) (s : Str) :
    ∃ cs, skipSpace (ms.print Empty.elim ++ s) = '"' :: cs := by
  cases ms with
  | one w k m w' v w'' =>
    simp only [Members.print, List.append_assoc, List.cons_append]
    exact ⟨_, skipSpace_append w rfl _⟩
  | more w k m w' v w'' rest =>
    simp only [Members.print, List.append_assoc, List.cons_append]
    exact ⟨_, skipSpace_append w rfl _⟩

theorem skipSpace_idem (s : Str) : skipSpace (skipSpace s) = skipSpace s := by
  induction s with
  | nil => rfl
  | cons c s ih =>
    by_cases hc : isSpace c = true
    · simp only [skipSpace, List.dropWhile_cons_of_pos hc] at ih ⊢
      exact ih
    · simp only [skipSpace, List.dropWhile_cons_of_neg hc]

theorem parseValue_skipSpace (n : Nat) (s : Str) : parseValue n (skipSpace s) = parseValue n s := by
  cases n with
  | zero => rfl
  | succ n => rw [parseValue, parseValue, skipSpace_idem]

theorem parseItems_skipSpace (n : Nat) (s : Str) : parseItems n (skipSpace s) = parseItems n s := by
  cases n with
  | zero => rfl
  | succ n => rw [parseItems, parseItems, parseValue_skipSpace]

theorem parseMembers_skipSpace (n : Nat) (s : Str) :
    parseMembers n (skipSpace s) = parseMembers n s := by
  cases n with
  | zero => rfl
  | succ n => rw [parseMembers, parseMembers, skipSpace_idem]

mutual
theorem parseValue_print (w : Space) (v : Cst Empty) (n : Nat) (s : Str)
    (hn : (v.print Empty.elim).length ≤ n) (hs : Delimited s) :
    parseValue (n + 1) (w.text ++ (v.print Empty.elim ++ s)) = some (v.value, s) := by
  match v with
  | .null =>
    have h := skipSpace_append w (c := 'n') rfl ('u' :: 'l' :: 'l' :: s)
    rw [parseValue]
    simp only [Cst.print, String.reduceToList, List.cons_append, List.nil_append, h, Cst.value]
  | .bool true =>
    have h := skipSpace_append w (c := 't') rfl ('r' :: 'u' :: 'e' :: s)
    rw [parseValue]
    simp only [Cst.print, String.reduceToList, List.cons_append, List.nil_append, h, Cst.value]
  | .bool false =>
    have h := skipSpace_append w (c := 'f') rfl ('a' :: 'l' :: 's' :: 'e' :: s)
    rw [parseValue]
    simp only [Cst.print, String.reduceToList, List.cons_append, List.nil_append, h, Cst.value]
  | .num x => exact parseValue_num w x n hs
  | .str ps =>
    have hp := readString_parts ps s
    rw [parseValue, Cst.print, List.cons_append, List.append_assoc, skipSpace_append w rfl]
    simp only [List.cons_append, List.nil_append, hp, Option.map_some, Cst.value]
  | .hole h => exact h.elim
  | .arrEmpty ws =>
    rw [parseValue, Cst.print, List.cons_append, List.append_assoc, skipSpace_append w rfl]
    simp only [List.cons_append, List.nil_append, skipSpace_append ws (c := ']') rfl, Cst.value]
  | .arr xs =>
    obtain ⟨c, cs, hc, hb⟩ := items_print_head xs s
    have hlen : (xs.print Empty.elim).length < n := by
      simp only [Cst.print, List.length_cons] at hn
      omega
    have hi := parseItems_print xs n s hlen
    rw [← parseItems_skipSpace, hc] at hi
    rw [parseValue, Cst.print, List.cons_append, skipSpace_append w rfl]
    simp only [hc]
    split
    · rename_i he
      exact absurd (List.cons.inj he).1 hb
    · rw [hi]
      rfl
  | .objEmpty ws =>
    rw [parseValue, Cst.print, List.cons_append, List.append_assoc, skipSpace_append w rfl]
    simp only [List.cons_append, List.nil_append, skipSpace_append ws (c := '}') rfl, Cst.value]
  | .obj ms =>
    obtain ⟨cs, hc⟩ := members_print_head ms s
    have hlen : (ms.print Empty.elim).length < n := by
      simp only [Cst.print, List.length_cons] at hn
      omega
    have hm := parseMembers_print ms n s hlen
    rw [← parseMembers_skipSpace, hc] at hm
    rw [parseValue, Cst.print, List.cons_append, skipSpace_append w rfl]
    simp only [hc]
    split
    · rename_i he
      exact absurd (List.cons.inj he).1 (by decide)
    · rw [hm]
      rfl
theorem parseItems_print (xs : Items Empty) (n : Nat) (s : Str)
    (hn : (xs.print Empty.elim).length < n) :
    parseItems n (xs.print Empty.elim ++ s) = some (xs.values, s) := by
  obtain ⟨n, rfl⟩ : ∃ k, n = k + 2 := ⟨n - 2, by
    have : 1 ≤ (xs.print Empty.elim).length := by
      cases xs <;> simp only [Items.print, List.length_append, List.length_cons] <;> omega
    omega⟩
  match xs with
  | .one w v w' =>
    have hlen : (v.print Empty.elim).length ≤ n := by
      simp only [Items.print, List.length_append, List.length_cons, List.length_nil] at hn
      omega
    have hv := parseValue_print w v n (w'.text ++ ']' :: s) hlen (delimited_append_space w' rfl s)
    simp only [Items.print, parseItems, List.append_assoc, List.cons_append, List.nil_append, hv,
      Option.bind_some, skipSpace_append w' (c := ']') rfl, Items.values]
  | .more w v w' rest =>
    have hlen : (v.print Empty.elim).length ≤ n ∧ (rest.print Empty.elim).length < n + 1 := by
      simp only [Items.print, List.length_append, List.length_cons] at hn
      omega
    have hv := parseValue_print w v n (w'.text ++ ',' :: (rest.print Empty.elim ++ s)) hlen.1
      (delimited_append_space w' rfl _)
    have hr := parseItems_print rest (n + 1) s hlen.2
    rw [parseItems]
    simp only [Items.print, List.append_assoc, List.cons_append, hv,
      Option.bind_some, skipSpace_append w' (c := ',') rfl, Items.values, hr, Option.map_some]
theorem parseMembers_print (ms : Members Empty) (n : Nat) (s : Str)
    (hn : (ms.print Empty.elim).length < n) :
    parseMembers n (ms.print Empty.elim ++ s) = some (ms.values, s) := by
  obtain ⟨n, rfl⟩ : ∃ k, n = k + 2 := ⟨n - 2, by
    have : 1 ≤ (ms.print Empty.elim).length := by
      cases ms <;> simp only [Members.print, List.length_append, List.length_cons] <;> omega
    omega⟩
  match ms with
  | .one w k m w' v w'' =>
    have hlen : (v.print Empty.elim).length ≤ n := by
      simp only [Members.print, List.length_append, List.length_cons, List.length_nil] at hn
      omega
    have hv := parseValue_print w' v n (w''.text ++ '}' :: s) hlen (delimited_append_space w'' rfl s)
    have hk := readString_parts k (m.text ++ ':' :: (w'.text ++ (v.print Empty.elim ++ (w''.text ++ '}' :: s))))
    rw [parseMembers]
    simp only [Members.print, List.append_assoc, List.cons_append, List.nil_append,
      skipSpace_append w (c := '"') rfl, hk, Option.bind_some, skipSpace_append m (c := ':') rfl, hv,
      skipSpace_append w'' (c := '}') rfl, Members.values]
  | .more w k m w' v w'' rest =>
    have hlen : (v.print Empty.elim).length ≤ n ∧ (rest.print Empty.elim).length < n + 1 := by
      simp only [Members.print, List.length_append, List.length_cons] at hn
      omega
    have hv := parseValue_print w' v n (w''.text ++ ',' :: (rest.print Empty.elim ++ s)) hlen.1
      (delimited_append_space w'' rfl _)
    have hk := readString_parts k (m.text ++ ':' :: (w'.text ++ (v.print Empty.elim ++
      (w''.text ++ ',' :: (rest.print Empty.elim ++ s)))))
    have hr := parseMembers_print rest (n + 1) s hlen.2
    rw [parseMembers]
    simp only [Members.print, List.append_assoc, List.cons_append,
      skipSpace_append w (c := '"') rfl, hk, Option.bind_some, skipSpace_append m (c := ':') rfl, hv,
      skipSpace_append w'' (c := ',') rfl, Members.values, hr, Option.map_some]
end

/-- The reader returns the value of every document, with white space around it. -/
theorem parse_print (w w' : Space) (v : Cst Empty) :
    parse (w.text ++ (v.print Empty.elim ++ w'.text)) = some v.value := by
  have hs : Delimited w'.text := by
    cases hw : w'.text with
    | nil => trivial
    | cons d ds =>
      exact isNumChar_of_isSpace (List.all_eq_true.mp w'.valid d (by simp [hw]))
  have hsp : skipSpace w'.text = [] := by
    rw [skipSpace, List.dropWhile_eq_nil_iff]
    exact List.all_eq_true.mp w'.valid
  have hv := parseValue_print w v (w.text ++ (v.print Empty.elim ++ w'.text)).length w'.text
    (by simp only [List.length_append]; omega) hs
  simp only [parse, hv, hsp, List.isEmpty_nil, if_true]

end Janus.JsonText
