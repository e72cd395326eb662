import Mathlib.Algebra.GroupWithZero.Nat
import Mathlib.Data.List.Basic
import Mathlib.Data.List.Infix
import Mathlib.Data.List.Sort
import Mathlib.Data.List.TakeWhile
import Mathlib.Tactic.Common

/-!
# Text operations on character lists

Prefix tests, cutting, trimming and non-overlapping replacement, each one a
structural left-to-right pass, so that closed inputs evaluate. The replacement
of marked occurrences (`replaceAll_flatten`) is the rule that later proofs use
instead of unfolding the pass.
-/

namespace Janus

set_option autoImplicit false

abbrev Str := List Char

instance : LawfulBEq Str := inferInstance

-- the members of a list are tried, and not all characters
instance (priority := 1100) decidableForallMem {α : Type} (p : α → Prop) [DecidablePred p]
    (l : List α) : Decidable (∀ a ∈ l, p a) :=
  List.decidableBAll p l

instance (priority := 1100) decidableExistsMem {α : Type} (p : α → Prop) [DecidablePred p]
    (l : List α) : Decidable (∃ a ∈ l, p a) :=
  List.decidableBEx p l

namespace Text

def hasPrefix (s p : Str) : Bool := p.isPrefixOf s

def hasSuffix (s p : Str) : Bool := p.isSuffixOf s

/-- Lexicographic order by code point, which is also the order of the encoded bytes. -/
def leStr : Str → Str → Bool
  | [], _ => true
  | _ :: _, [] => false
  | a :: as, b :: bs => a.toNat < b.toNat || (a = b && leStr as bs)

/-- The pass of `replaceAll`; the counter skips what is left of a replaced occurrence. -/
def replaceFrom (old new : Str) : Nat → Str → Str
  | _, [] => []
  | skip + 1, _ :: s => replaceFrom old new skip s
  | 0, c :: s =>
    if old.isPrefixOf (c :: s) then new ++ replaceFrom old new (old.length - 1) s
    else c :: replaceFrom old new 0 s

/-- Replaces every non-overlapping occurrence. An empty `old` matches before
every character and at the end. -/
def replaceAll (s old new : Str) : Str :=
  if old = [] then new ++ s.flatMap (fun c => c :: new) else replaceFrom old new 0 s

def containsSub (s sub : Str) : Bool :=
  match s with
  | [] => sub.isPrefixOf []
  | c :: cs => sub.isPrefixOf (c :: cs) || containsSub cs sub

/-- The text before and after the first occurrence of `sep`, if there is one. -/
def cut (sep : Char) : Str → Option (Str × Str)
  | [] => none
  | c :: cs => if c = sep then some ([], cs) else (cut sep cs).map fun (a, b) => (c :: a, b)

def splitOn (sep : Char) : Str → List Str
  | [] => [[]]
  | c :: cs =>
    match splitOn sep cs with
    | [] => [[]]
    | part :: parts => if c = sep then [] :: part :: parts else (c :: part) :: parts

def trimLeft (cutset : Char → Bool) (s : Str) : Str := s.dropWhile cutset

def trimRight (cutset : Char → Bool) (s : Str) : Str :=
  (s.reverse.dropWhile cutset).reverse

def trim (cutset : Char → Bool) (s : Str) : Str := trimRight cutset (trimLeft cutset s)

def trimPrefix (s p : Str) : Str :=
  if p.isPrefixOf s then s.drop p.length else s

def trimSuffix (s p : Str) : Str :=
  if p.isSuffixOf s then s.take (s.length - p.length) else s

/-- One character of a quoted text. -/
def quoteChar (c : Char) : Str :=
  let n := c.toNat
  let hex (k : Nat) : Char := "0123456789abcdef".toList.getD k '0'
  if c = '"' then ['\\', '"']
  else if c = '\\' then ['\\', '\\']
  else if n = 7 then ['\\', 'a']
  else if n = 8 then ['\\', 'b']
  else if n = 9 then ['\\', 't']
  else if n = 10 then ['\\', 'n']
  else if n = 11 then ['\\', 'v']
  else if n = 12 then ['\\', 'f']
  else if n = 13 then ['\\', 'r']
  else if n < 32 || n = 127 then ['\\', 'x', hex (n / 16), hex (n % 16)]
  else [c]

/-- The `%q` text, for texts whose characters beyond ASCII are printable. -/
def quote (s : Str) : Str := '"' :: (s.flatMap quoteChar ++ ['"'])

def utf8 (c : Char) : List Nat :=
  let n := c.toNat
  if n < 0x80 then [n]
  else if n < 0x800 then [0xC0 + n / 64, 0x80 + n % 64]
  else if n < 0x10000 then [0xE0 + n / 4096, 0x80 + n / 64 % 64, 0x80 + n % 64]
  else [0xF0 + n / 262144, 0x80 + n / 4096 % 64, 0x80 + n / 64 % 64, 0x80 + n % 64]

/-- The bytes of the encoded text. -/
def bytes (s : Str) : List Nat := s.flatMap utf8

def isContinuation (b : Nat) : Bool := 0x80 ≤ b && b < 0xC0

/-- The text of a byte sequence; a byte that starts no valid encoding is read as U+FFFD. -/
def ofBytes : List Nat → Str
  | [] => []
  | a :: bs =>
    if a < 0x80 then Char.ofNat a :: ofBytes bs
    else
      match bs with
      | b :: c :: d :: rest =>
        if 0xC2 ≤ a && a < 0xE0 && isContinuation b then
          Char.ofNat ((a - 0xC0) * 64 + (b - 0x80)) :: ofBytes (c :: d :: rest)
        else if wide a b c then
          Char.ofNat ((a - 0xE0) * 4096 + (b - 0x80) * 64 + (c - 0x80)) :: ofBytes (d :: rest)
        else if astral a b c d then
          Char.ofNat ((a - 0xF0) * 262144 + (b - 0x80) * 4096 + (c - 0x80) * 64 + (d - 0x80)) ::
            ofBytes rest
        else Char.ofNat 0xFFFD :: ofBytes (b :: c :: d :: rest)
      | [b, c] =>
        if 0xC2 ≤ a && a < 0xE0 && isContinuation b then
          Char.ofNat ((a - 0xC0) * 64 + (b - 0x80)) :: ofBytes [c]
        else if wide a b c then [Char.ofNat ((a - 0xE0) * 4096 + (b - 0x80) * 64 + (c - 0x80))]
        else Char.ofNat 0xFFFD :: ofBytes [b, c]
      | [b] =>
        if 0xC2 ≤ a && a < 0xE0 && isContinuation b then
          [Char.ofNat ((a - 0xC0) * 64 + (b - 0x80))]
        else Char.ofNat 0xFFFD :: ofBytes [b]
      | [] => [Char.ofNat 0xFFFD]
where
  wide (a b c : Nat) : Bool :=
    0xE0 ≤ a && a < 0xF0 && isContinuation b && isContinuation c &&
      (a ≠ 0xE0 || 0xA0 ≤ b) && (a ≠ 0xED || b < 0xA0)
  astral (a b c d : Nat) : Bool :=
    0xF0 ≤ a && a < 0xF5 && isContinuation b && isContinuation c && isContinuation d &&
      (a ≠ 0xF0 || 0x90 ≤ b) && (a ≠ 0xF4 || b < 0x90)

/-- The first `n` bytes of the encoded text; the bytes of a character cut in two are
read as U+FFFD each. -/
def takeBytes : Nat → Str → Str
  | _, [] => []
  | n, c :: cs =>
    if c.utf8Size ≤ n then c :: takeBytes (n - c.utf8Size) cs
    else List.replicate n (Char.ofNat 0xFFFD)

/-- White space as Unicode has it. -/
def isSpace (c : Char) : Bool :=
  let n := c.toNat
  (9 ≤ n && n ≤ 13) || n = 0x20 || n = 0x85 || n = 0xA0 || n = 0x1680 ||
    (0x2000 ≤ n && n ≤ 0x200A) || n = 0x2028 || n = 0x2029 || n = 0x202F || n = 0x205F || n = 0x3000

def trimSpace (s : Str) : Str := trim isSpace s

/-- The maximal runs of characters that are not white space. -/
def fields (s : Str) : List Str := (s.splitBy fun a b => isSpace a = isSpace b).filter fun f =>
  !f.any isSpace

def join (sep : Str) : List Str → Str
  | [] => []
  | [s] => s
  | s :: t :: ts => s ++ sep ++ join sep (t :: ts)

def sortStrings (l : List Str) : List Str := l.insertionSort fun a b => leStr a b = true

/-- The common spelling of the letters that differ in case only. Beyond ASCII only
the Kelvin sign and the long s have an ASCII partner. -/
def foldChar (c : Char) : Char :=
  if 'A' ≤ c && c ≤ 'Z' then Char.ofNat (c.toNat + 32)
  else if c.toNat = 0x212A then 'k'
  else if c.toNat = 0x17F then 's'
  else c

/-- Equality under case folding against a name in ASCII. -/
def equalFold (s name : Str) : Bool := s.map foldChar = name.map foldChar

theorem leStr_total (a b : Str) : leStr a b = true ∨ leStr b a = true := by
  induction a generalizing b with
  | nil => exact Or.inl rfl
  | cons x xs ih =>
    cases b with
    | nil => exact Or.inr rfl
    | cons y ys =>
      simp only [leStr, Bool.or_eq_true, decide_eq_true_eq, Bool.and_eq_true]
      rcases Nat.lt_trichotomy x.toNat y.toNat with hlt | heq | hgt
      · exact Or.inl (Or.inl hlt)
      · have hxy : x = y := Char.toNat_inj.mp heq
        rcases ih ys with h | h
        · exact Or.inl (Or.inr ⟨hxy, h⟩)
        · exact Or.inr (Or.inr ⟨hxy.symm, h⟩)
      · exact Or.inr (Or.inl hgt)

theorem leStr_antisymm {a b : Str} (hab : leStr a b = true) (hba : leStr b a = true) : a = b := by
  induction a generalizing b with
  | nil =>
    cases b with
    | nil => rfl
    | cons y ys => cases hba
  | cons x xs ih =>
    cases b with
    | nil => cases hab
    | cons y ys =>
      simp only [leStr, Bool.or_eq_true, decide_eq_true_eq, Bool.and_eq_true] at hab hba
      rcases hab with hlt | ⟨rfl, hxs⟩
      · rcases hba with hgt | ⟨rfl, _⟩ <;> omega
      · rcases hba with hgt | ⟨_, hys⟩
        · omega
        · rw [ih hxs hys]

theorem leStr_trans {a b c : Str} (hab : leStr a b = true) (hbc : leStr b c = true) :
    leStr a c = true := by
  induction a generalizing b c with
  | nil => rfl
  | cons x xs ih =>
    cases b with
    | nil => cases hab
    | cons y ys =>
      cases c with
      | nil => cases hbc
      | cons z zs =>
        simp only [leStr, Bool.or_eq_true, decide_eq_true_eq, Bool.and_eq_true] at hab hbc ⊢
        rcases hab with hlt | ⟨rfl, hxs⟩
        · rcases hbc with hlt' | ⟨rfl, _⟩ <;> exact Or.inl (by omega)
        · exact hbc.imp_right fun h => ⟨h.1, ih hxs h.2⟩

theorem perm_sortStrings (l : List Str) : (sortStrings l).Perm l :=
  List.perm_insertionSort _ l

theorem pairwise_sortStrings (l : List Str) : (sortStrings l).Pairwise fun a b => leStr a b = true :=
  have : Std.Total fun a b : Str => leStr a b = true := ⟨leStr_total⟩
  have : IsTrans Str fun a b => leStr a b = true := ⟨fun _ _ _ => leStr_trans⟩
  List.pairwise_insertionSort _ l

/-- Sorting forgets the order. -/
theorem sortStrings_perm {l l' : List Str} (h : l.Perm l') : sortStrings l = sortStrings l' :=
  ((perm_sortStrings l).trans (h.trans (perm_sortStrings l').symm)).eq_of_pairwise
    (fun _ _ _ _ => leStr_antisymm) (pairwise_sortStrings l) (pairwise_sortStrings l')

theorem replaceFrom_skip (old new : Str) (n : Nat) (s : Str) :
    replaceFrom old new n s = replaceFrom old new 0 (s.drop n) := by
  induction n generalizing s with
  | zero => rfl
  | succ n ih =>
    cases s with
    | nil => simp [replaceFrom]
    | cons c s => simpa [replaceFrom] using ih s

theorem replaceFrom_occurrence {old : Str} (hold : old ≠ []) (new s : Str) :
    replaceFrom old new 0 (old ++ s) = new ++ replaceFrom old new 0 s := by
  obtain ⟨c, cs, rfl⟩ := List.exists_cons_of_ne_nil hold
  have hp : (c :: cs).isPrefixOf (c :: (cs ++ s)) = true :=
    List.isPrefixOf_iff_prefix.mpr ⟨s, rfl⟩
  simp only [List.cons_append, replaceFrom, hp, if_true]
  rw [replaceFrom_skip]
  simp

/-- A text cut at its marked occurrences. -/
inductive Piece where
  | text (cs : Str)
  | mark
  deriving Repr, DecidableEq

def flatten (w : Str) : List Piece → Str
  | [] => []
  | .text cs :: ps => cs ++ flatten w ps
  | .mark :: ps => w ++ flatten w ps

/-- No occurrence of `old` starts inside `cs` when `rest` follows. -/
def NoneStarts (old : Str) : Str → Str → Prop
  | [], _ => True
  | c :: cs, rest => old.isPrefixOf (c :: cs ++ rest) = false ∧ NoneStarts old cs rest

/-- Occurrences of `old` start at the marks only. -/
def OnlyAtMarks (old : Str) : List Piece → Prop
  | [] => True
  | .text cs :: ps => NoneStarts old cs (flatten old ps) ∧ OnlyAtMarks old ps
  | .mark :: ps => OnlyAtMarks old ps

instance instDecidableNoneStarts (old : Str) :
    (cs rest : Str) → Decidable (NoneStarts old cs rest)
  | [], _ => .isTrue trivial
  | _ :: cs, rest =>
    have := instDecidableNoneStarts old cs rest
    inferInstanceAs (Decidable (_ ∧ _))

instance instDecidableOnlyAtMarks (old : Str) :
    (ps : List Piece) → Decidable (OnlyAtMarks old ps)
  | [] => .isTrue trivial
  | .text _ :: ps =>
    have := instDecidableOnlyAtMarks old ps
    inferInstanceAs (Decidable (_ ∧ _))
  | .mark :: ps => instDecidableOnlyAtMarks old ps

theorem replaceFrom_text {old new cs rest : Str} (h : NoneStarts old cs rest) :
    replaceFrom old new 0 (cs ++ rest) = cs ++ replaceFrom old new 0 rest := by
  induction cs with
  | nil => rfl
  | cons c cs ih =>
    obtain ⟨hc, hcs⟩ := h
    simp only [List.cons_append] at hc ⊢
    simp [replaceFrom, hc, ih hcs]

/-- Replacement of a text whose occurrences are known: every mark is replaced
and the text between the marks is kept. -/
theorem replaceAll_flatten {old : Str} (hold : old ≠ []) (new : Str)
    {ps : List Piece} (h : OnlyAtMarks old ps) :
    replaceAll (flatten old ps) old new = flatten new ps := by
  simp only [replaceAll, if_neg hold]
  induction ps with
  | nil => rfl
  | cons p ps ih =>
    cases p with
    | text cs => rw [flatten, replaceFrom_text h.1, ih h.2, flatten]
    | mark => rw [flatten, replaceFrom_occurrence hold, ih h, flatten]

theorem noneStarts_of_absent {old rest : Str} :
    ∀ {s : Str}, ¬ old <:+: s ++ rest → NoneStarts old s rest
  | [], _ => trivial
  | c :: cs, h => by
    refine ⟨?_, noneStarts_of_absent fun hi => h (hi.trans (List.suffix_cons c (cs ++ rest)).isInfix)⟩
    rw [← Bool.not_eq_true, List.isPrefixOf_iff_prefix]
    exact fun hp => h hp.isInfix

theorem onlyAtMarks_of_absent {old : Str} {ps : List Piece} (h : ¬ old <:+: flatten old ps) :
    OnlyAtMarks old ps := by
  induction ps with
  | nil => trivial
  | cons p ps ih =>
    have hrest : ¬ old <:+: flatten old ps := by
      intro hi
      cases p with
      | text cs => exact h (hi.trans (List.suffix_append cs _).isInfix)
      | mark => exact h (hi.trans (List.suffix_append old _).isInfix)
    cases p with
    | text cs => exact ⟨noneStarts_of_absent h, ih hrest⟩
    | mark => exact ih hrest

theorem absent_of_noneStarts {old rest : Str} (hrest : ¬ old <:+: rest) :
    ∀ {s : Str}, NoneStarts old s rest → ¬ old <:+: s ++ rest
  | [], _ => hrest
  | c :: cs, ⟨hc, hcs⟩ => by
    intro hi
    rw [← Bool.not_eq_true, List.isPrefixOf_iff_prefix] at hc
    obtain hp | hi := List.infix_cons_iff.mp hi
    · exact hc hp
    · exact absent_of_noneStarts hrest hcs hi

/-- Where occurrences start at marks only and there is no mark, there is no occurrence. -/
theorem absent_of_onlyAtMarks {old : Str} (hold : old ≠ []) {ps : List Piece} (h : OnlyAtMarks old ps)
    (hmark : ∀ p ∈ ps, p ≠ .mark) : ¬ old <:+: flatten old ps := by
  induction ps with
  | nil => exact fun hi => hold (List.infix_nil.mp hi)
  | cons p ps ih =>
    obtain ⟨hp, hps⟩ := List.forall_mem_cons.mp hmark
    cases p with
    | mark => exact absurd rfl hp
    | text cs => exact absent_of_noneStarts (ih h.2 hps) h.1

theorem replaceAll_of_absent {s old : Str} (h : ¬ old <:+: s) (new : Str) :
    replaceAll s old new = s := by
  have hold : old ≠ [] := by
    intro he
    subst old
    exact h ⟨[], s, rfl⟩
  have hs : flatten old [.text s] = s := by simp [flatten]
  have hreplace := replaceAll_flatten hold new (onlyAtMarks_of_absent (hs.symm ▸ h))
  rw [hs] at hreplace
  exact hreplace.trans (by simp [flatten])

theorem containsSub_iff (s sub : Str) : containsSub s sub = true ↔ sub <:+: s := by
  induction s with
  | nil => simp [containsSub]
  | cons c cs ih =>
    simp only [containsSub, Bool.or_eq_true, ih, List.isPrefixOf_iff_prefix,
      List.infix_cons_iff]

/-- A text is cut at its last separator in one way only. -/
theorem append_sep_inj {sep : Char} {x x' y y' : Str} (hy : sep ∉ y) (hy' : sep ∉ y')
    (h : x ++ sep :: y = x' ++ sep :: y') : x = x' ∧ y = y' := by
  rcases List.append_eq_append_iff.mp h with ⟨a, rfl, ha⟩ | ⟨a, rfl, ha⟩
  · cases a with
    | nil => simpa using ha
    | cons c a =>
      obtain ⟨_, rfl⟩ := List.cons.inj ha
      exact absurd (List.mem_append_right a List.mem_cons_self) hy
  · cases a with
    | nil => simpa using ha.symm
    | cons c a =>
      obtain ⟨_, rfl⟩ := List.cons.inj ha
      exact absurd (List.mem_append_right a List.mem_cons_self) hy'

theorem splitOn_of_notMem {sep : Char} {s : Str} (h : sep ∉ s) : splitOn sep s = [s] := by
  induction s with
  | nil => rfl
  | cons c cs ih =>
    obtain ⟨hc, hcs⟩ := not_or.mp (List.mem_cons.not.mp h)
    have hne : ¬ c = sep := fun he => hc he.symm
    simp [splitOn, ih hcs, hne]

theorem splitOn_append_sep {sep : Char} {s rest : Str} (h : sep ∉ s) :
    splitOn sep (s ++ sep :: rest) = s :: splitOn sep rest := by
  have hrest : splitOn sep rest ≠ [] := by
    cases rest with
    | nil => simp [splitOn]
    | cons c cs =>
      simp only [splitOn]
      split
      · simp
      · split <;> simp
  induction s with
  | nil =>
    obtain ⟨part, parts, hp⟩ := List.exists_cons_of_ne_nil hrest
    simp [splitOn, hp]
  | cons c cs ih =>
    obtain ⟨hc, hcs⟩ := not_or.mp (List.mem_cons.not.mp h)
    have hne : ¬ c = sep := fun he => hc he.symm
    simp [splitOn, ih hcs, hne]

theorem mem_join {sep : Str} {parts : List Str} {c : Char} (h : c ∈ join sep parts) :
    c ∈ sep ∨ ∃ p ∈ parts, c ∈ p := by
  induction parts with
  | nil => cases h
  | cons s parts ih =>
    cases parts with
    | nil => exact .inr ⟨s, List.mem_singleton.mpr rfl, h⟩
    | cons t ts =>
      rw [join, List.mem_append, List.mem_append] at h
      obtain (h | h) | h := h
      · exact .inr ⟨s, List.mem_cons_self, h⟩
      · exact .inl h
      · obtain h | ⟨p, hp, h⟩ := ih h
        · exact .inl h
        · exact .inr ⟨p, List.mem_cons_of_mem _ hp, h⟩

/-- Parts without the separator are got back from their join. -/
theorem splitOn_join {sep : Char} {parts : List Str} (hne : parts ≠ [])
    (h : ∀ p ∈ parts, sep ∉ p) : splitOn sep (join [sep] parts) = parts := by
  induction parts with
  | nil => exact absurd rfl hne
  | cons p ps ih =>
    cases ps with
    | nil => exact splitOn_of_notMem (h p List.mem_cons_self)
    | cons q qs =>
      have hp := h p List.mem_cons_self
      have hrest := ih (List.cons_ne_nil q qs) fun r hr => h r (List.mem_cons_of_mem p hr)
      simp only [join, List.append_assoc, List.singleton_append]
      rw [splitOn_append_sep hp, hrest]

theorem trim_eq_self {p : Char → Bool} {s : Str} (hhead : ∀ c, s.head? = some c → p c = false)
    (hlast : ∀ c, s.getLast? = some c → p c = false) : trim p s = s := by
  have hleft : trimLeft p s = s := by
    cases s with
    | nil => rfl
    | cons c cs => exact List.dropWhile_cons_of_neg (by simp [hhead c rfl])
  rw [trim, hleft, trimRight]
  cases hr : s.reverse with
  | nil => simpa using hr
  | cons c cs =>
    have hc : s.getLast? = some c := by
      rw [← List.head?_reverse, hr]
      rfl
    rw [List.dropWhile_cons_of_neg (by simp [hlast c hc]), ← hr, List.reverse_reverse]

/-- Trimming takes off just the quotes around a text that has none at its ends. -/
theorem trim_quotes {q : Char} {s ts : Str} (hts : ∀ c ∈ ts, c = q) (hhead : s.head? ≠ some q)
    (hlast : s.getLast? ≠ some q) : trim (· = q) (q :: (s ++ ts)) = s := by
  have htail : ∀ c ∈ ts.reverse, decide (c = q) = true := by
    intro c hc
    simpa using hts c (List.mem_reverse.mp hc)
  cases s with
  | nil =>
    have hleft : trimLeft (· = q) (q :: ([] ++ ts)) = [] := by
      rw [trimLeft, List.dropWhile_eq_nil_iff]
      intro c hc
      rcases List.mem_cons.mp hc with rfl | hc
      · exact decide_eq_true rfl
      · exact decide_eq_true (hts c hc)
    rw [trim, hleft]
    rfl
  | cons c cs =>
    have hc : ¬ c = q := fun he => hhead (by rw [he]; rfl)
    have hleft : trimLeft (· = q) (q :: (c :: cs ++ ts)) = c :: cs ++ ts := by
      simp [trimLeft, hc]
    have hright : ((c :: cs ++ ts).reverse.dropWhile (· = q)) = (c :: cs).reverse := by
      rw [List.reverse_append, List.dropWhile_append_of_pos htail]
      cases hr : (c :: cs).reverse with
      | nil => simp at hr
      | cons d ds =>
        have hd : (c :: cs).getLast? = some d := by
          rw [← List.head?_reverse, hr]
          rfl
        have hne : ¬ d = q := fun he => hlast (by rw [hd, he])
        rw [List.dropWhile_cons_of_neg (by simpa using hne)]
    rw [trim, hleft, trimRight, hright, List.reverse_reverse]

theorem trimSuffix_append (s : Str) (c : Char) : trimSuffix (s ++ [c]) [c] = s := by
  have hsuffix : [c].isSuffixOf (s ++ [c]) = true := List.isSuffixOf_iff_suffix.mpr ⟨s, rfl⟩
  rw [trimSuffix, if_pos hsuffix]
  simp

theorem trimSuffix_of_not {s : Str} {c : Char} (h : s.getLast? ≠ some c) :
    trimSuffix s [c] = s := by
  rw [trimSuffix, if_neg]
  intro hsuffix
  obtain ⟨t, rfl⟩ := List.isSuffixOf_iff_suffix.mp hsuffix
  simp at h

theorem trimSuffix_nil (c : Char) : trimSuffix [] [c] = [] := by
  unfold trimSuffix
  split <;> rfl

theorem trimSuffix_append_left {x t : Str} {c : Char} (ht : t ≠ []) :
    trimSuffix (x ++ t) [c] = x ++ trimSuffix t [c] := by
  obtain rfl | ⟨s, d, rfl⟩ := List.eq_nil_or_concat t
  · exact absurd rfl ht
  · rw [List.concat_eq_append, ← List.append_assoc]
    by_cases hd : d = c
    · rw [hd, trimSuffix_append, trimSuffix_append]
    · have hlast (y : Str) : (y ++ [d]).getLast? ≠ some c := by simpa using hd
      rw [trimSuffix_of_not (hlast _), trimSuffix_of_not (hlast _), List.append_assoc]

theorem trimSuffix_cases (t : Str) (c : Char) :
    trimSuffix t [c] = t ∨ t = trimSuffix t [c] ++ [c] := by
  obtain rfl | ⟨s, d, rfl⟩ := List.eq_nil_or_concat t
  · exact .inl (trimSuffix_nil c)
  · rw [List.concat_eq_append]
    by_cases hd : d = c
    · rw [hd, trimSuffix_append]
      exact .inr rfl
    · exact .inl (trimSuffix_of_not (by simpa using hd))

theorem trimPrefix_cons (c : Char) (s : Str) : trimPrefix (c :: s) [c] = s := by
  rw [trimPrefix, if_pos (by simp [List.isPrefixOf])]
  rfl

theorem trimPrefix_of_not {c : Char} {s : Str} (h : s.head? ≠ some c) : trimPrefix s [c] = s := by
  rw [trimPrefix, if_neg]
  intro hp
  obtain ⟨t, rfl⟩ := List.isPrefixOf_iff_prefix.mp hp
  exact h rfl

theorem trimPrefix_append {s t : Str} {c : Char} (ht : t.head? ≠ some c) :
    trimPrefix (s ++ t) [c] = trimPrefix s [c] ++ t := by
  cases s with
  | nil =>
    rw [trimPrefix_of_not (s := []) (by simp)]
    exact trimPrefix_of_not ht
  | cons d s =>
    by_cases hd : d = c
    · rw [hd, List.cons_append, trimPrefix_cons, trimPrefix_cons]
    · have hhead (r : Str) : (d :: r).head? ≠ some c := by simpa using hd
      rw [List.cons_append, trimPrefix_of_not (hhead _), trimPrefix_of_not (hhead _), List.cons_append]

end Text
end Janus
