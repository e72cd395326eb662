import Janus.Lib.NumberText

/-!
# Placeholders of SQL statements

A statement is read as literal characters and parameters. One dialect counts its question marks,
the other numbers its parameters behind dollar signs. Numbering the question marks keeps what a
statement says exactly when no digit follows a question mark or a dollar sign
(`readNumbered_number_iff`).
-/

namespace Janus.Placeholders

set_option autoImplicit false

inductive Piece where
  | text (c : Char)
  | param (i : Nat)
  deriving Repr, DecidableEq

/-- Question marks, counted from `n`. -/
def readMarks : Nat → List Char → List Piece
  | _, [] => []
  | n, c :: s => if c = '?' then .param n :: readMarks (n + 1) s else .text c :: readMarks n s

/-- A dollar sign with the digits behind it. -/
def closeNumber (ds : List Char) : List Piece := if ds = [] then [.text '$'] else [.param (digitsVal ds)]

/-- Numbered parameters. Behind a dollar sign its digits so far are kept. -/
def numberedFrom : Option (List Char) → List Char → List Piece
  | none, [] => []
  | some ds, [] => closeNumber ds
  | none, c :: s => if c = '$' then numberedFrom (some []) s else .text c :: numberedFrom none s
  | some ds, c :: s =>
    if isDigit c then numberedFrom (some (ds ++ [c])) s
    else closeNumber ds ++
      (if c = '$' then numberedFrom (some []) s else .text c :: numberedFrom none s)

def readNumbered (s : List Char) : List Piece := numberedFrom none s

/-- Question marks replaced by numbered parameters, from `n`. -/
def number : Nat → List Char → List Char
  | _, [] => []
  | n, c :: s => if c = '?' then '$' :: natDigits n ++ number (n + 1) s else c :: number n s

/-- No digit follows a question mark or a dollar sign. -/
def Portable : List Char → Prop
  | [] => True
  | c :: s => (c = '?' ∨ c = '$' → ∀ d, s.head? = some d → isDigit d = false) ∧ Portable s

def decidePortable : (s : List Char) → Decidable (Portable s)
  | [] => isTrue trivial
  | _ :: s =>
    have : Decidable (Portable s) := decidePortable s
    have : Decidable (∀ d, s.head? = some d → isDigit d = false) :=
      match s with
      | [] => isTrue fun _ h => nomatch h
      | d :: _ => decidable_of_iff (isDigit d = false)
          ⟨fun h _ hd => Option.some.inj hd ▸ h, fun h => h d rfl⟩
    inferInstanceAs (Decidable (_ ∧ _))

instance instDecidablePortable (s : List Char) : Decidable (Portable s) := decidePortable s

theorem numberedFrom_digits {ds es s : List Char} (h : AllDigits es) :
    numberedFrom (some ds) (es ++ s) = numberedFrom (some (ds ++ es)) s := by
  induction es generalizing ds with
  | nil => rw [List.nil_append, List.append_nil]
  | cons e es ih =>
    have he : isDigit e = true := h e List.mem_cons_self
    have hes : AllDigits es := fun c hc => h c (List.mem_cons_of_mem e hc)
    rw [List.cons_append, numberedFrom, if_pos he, ih hes, List.append_assoc, List.singleton_append]

/-- A number ends where no digit follows. -/
theorem numberedFrom_close (ds : List Char) {s : List Char}
    (h : ∀ d, s.head? = some d → isDigit d = false) :
    numberedFrom (some ds) s = closeNumber ds ++ numberedFrom none s := by
  cases s with
  | nil => exact (List.append_nil _).symm
  | cons c s =>
    have hc : ¬ isDigit c = true := by simp [h c rfl]
    exact if_neg hc

theorem numberedFrom_head {ds : List Char} (hds : ds ≠ []) (s : List Char) :
    ∃ es rest, numberedFrom (some ds) s = .param (digitsVal (ds ++ es)) :: rest := by
  induction s generalizing ds with
  | nil => exact ⟨[], [], by rw [numberedFrom, closeNumber, if_neg hds, List.append_nil]⟩
  | cons c s ih =>
    rw [numberedFrom]
    split
    · have hne : ds ++ [c] ≠ [] := by simp
      obtain ⟨es, rest, h⟩ := ih hne
      exact ⟨c :: es, rest, by rw [h, List.append_assoc, List.singleton_append]⟩
    · exact ⟨[], _, by rw [closeNumber, if_neg hds, List.append_nil]; rfl⟩

theorem le_digitsVal_append (ds es : List Char) : digitsVal ds ≤ digitsVal (ds ++ es) := by
  unfold digitsVal
  rw [List.foldl_append]
  induction es generalizing ds with
  | nil => exact Nat.le_refl _
  | cons e es ih =>
    have h := ih (ds ++ [e])
    rw [List.foldl_append] at h
    refine Nat.le_trans ?_ h
    rw [List.foldl_cons, List.foldl_nil]
    omega

/-- One more digit makes a number larger. -/
theorem lt_digitsVal_digit {n : Nat} (hn : 0 < n) (d : Char) (es : List Char) :
    n < digitsVal ((natDigits n ++ [d]) ++ es) := by
  refine Nat.lt_of_lt_of_le ?_ (le_digitsVal_append _ es)
  have hval : digitsVal (natDigits n ++ [d]) = 10 * digitsVal (natDigits n) + digitVal d := by
    unfold digitsVal
    rw [List.foldl_append]
    rfl
  rw [hval, digitsVal_natDigits]
  omega

theorem closeNumber_natDigits (n : Nat) : closeNumber (natDigits n) = [.param n] := by
  rw [closeNumber, if_neg (natDigits_ne_nil n), digitsVal_natDigits]

/-- A digit that follows stands in the statement itself. -/
theorem head_number {n : Nat} {s : List Char} {d : Char} (h : (number n s).head? = some d)
    (hd : isDigit d = true) : ∃ s', s = d :: s' ∧ number n s = d :: number n s' := by
  cases s with
  | nil => cases h
  | cons c s =>
    rw [number] at h ⊢
    split at h
    · cases h
      exact absurd hd (by decide)
    · rename_i hc
      cases h
      rw [if_neg hc]
      exact ⟨s, rfl, rfl⟩

theorem closed_number {n : Nat} {s : List Char} (h : ∀ d, s.head? = some d → isDigit d = false) (d : Char)
    (hd : (number n s).head? = some d) : isDigit d = false := by
  by_contra hdigit
  obtain ⟨s', rfl, _⟩ := head_number hd (by simpa using hdigit)
  exact hdigit (h d rfl)

theorem number_of_digit {s : List Char} {d : Char} (n : Nat) (h : s.head? = some d)
    (hd : isDigit d = true) : ∃ s', number n s = d :: number n s' := by
  cases s with
  | nil => cases h
  | cons c s =>
    cases h
    have hmark : d ≠ '?' := by
      rintro rfl
      exact absurd hd (by decide)
    exact ⟨s, by rw [number, if_neg hmark]⟩

theorem numberedFrom_mark (n : Nat) (s : List Char) : numberedFrom none (number n ('?' :: s)) =
    numberedFrom (some (natDigits n)) (number (n + 1) s) := by
  rw [number, if_pos rfl, List.cons_append, numberedFrom, if_pos rfl,
    numberedFrom_digits (allDigits_natDigits n), List.nil_append]

theorem readNumbered_number {s : List Char} (h : Portable s) (n : Nat) :
    numberedFrom none (number n s) = readMarks n s := by
  induction s generalizing n with
  | nil => rfl
  | cons c s ih =>
    obtain ⟨hc, hs⟩ := h
    by_cases hmark : c = '?'
    · subst hmark
      rw [numberedFrom_mark, numberedFrom_close _ (closed_number (hc (.inl rfl))), closeNumber_natDigits,
        ih hs, readMarks, if_pos rfl]
      rfl
    · rw [number, if_neg hmark, readMarks, if_neg hmark, numberedFrom]
      split
      · rename_i hdollar
        rw [numberedFrom_close _ (closed_number (hc (.inr hdollar))), ih hs, hdollar]
        rfl
      · rw [ih hs]

theorem portable_of_read {s : List Char} {n : Nat} (hn : 0 < n)
    (h : numberedFrom none (number n s) = readMarks n s) : Portable s := by
  induction s generalizing n with
  | nil => trivial
  | cons c s ih =>
    by_cases hmark : c = '?'
    · subst hmark
      rw [numberedFrom_mark, readMarks, if_pos rfl] at h
      have hclosed : ∀ d, s.head? = some d → isDigit d = false := by
        intro d hd
        by_contra hdigit
        have hdigit : isDigit d = true := by simpa using hdigit
        -- The digit would be read as part of the number.
        obtain ⟨s', hs'⟩ := number_of_digit (n + 1) hd hdigit
        have hne : natDigits n ++ [d] ≠ [] := by simp
        obtain ⟨es, rest, hhead⟩ := numberedFrom_head hne (number (n + 1) s')
        rw [hs', numberedFrom, if_pos hdigit, hhead] at h
        have hlt := lt_digitsVal_digit hn d es
        rw [Piece.param.inj (List.cons.inj h).1] at hlt
        exact Nat.lt_irrefl n hlt
      rw [numberedFrom_close _ (closed_number hclosed), closeNumber_natDigits] at h
      exact ⟨fun _ => hclosed, ih (Nat.succ_pos n) (List.cons.inj h).2⟩
    · rw [number, if_neg hmark, readMarks, if_neg hmark, numberedFrom] at h
      split at h
      · rename_i hdollar
        have hclosed : ∀ d, s.head? = some d → isDigit d = false := by
          intro d hd
          by_contra hdigit
          have hdigit : isDigit d = true := by simpa using hdigit
          obtain ⟨s', hs'⟩ := number_of_digit n hd hdigit
          obtain ⟨es, rest, hhead⟩ := numberedFrom_head (List.cons_ne_nil d []) (number n s')
          rw [hs', numberedFrom, if_pos hdigit, List.nil_append, hhead] at h
          cases (List.cons.inj h).1
        rw [numberedFrom_close _ (closed_number hclosed)] at h
        exact ⟨fun _ => hclosed, ih hn (List.cons.inj h).2⟩
      · rename_i hdollar
        refine ⟨fun hor => absurd hor (not_or.mpr ⟨hmark, hdollar⟩), ih hn (List.cons.inj h).2⟩

/-- Numbering the question marks keeps what a statement says exactly when it is portable. -/
theorem readNumbered_number_iff {s : List Char} : readNumbered (number 1 s) = readMarks 1 s ↔ Portable s :=
  ⟨portable_of_read Nat.one_pos, fun h => readNumbered_number h 1⟩

section Arguments

universe u

variable {α : Type u}

/-- The number of parameters: the highest one. -/
def arity : List Piece → Nat
  | [] => 0
  | .text _ :: ps => arity ps
  | .param i :: ps => max i (arity ps)

/-- A piece with the argument in place of a parameter. Parameters are numbered from one. -/
def fill (args : List α) : Piece → Option (Char ⊕ α)
  | .text c => some (.inl c)
  | .param 0 => none
  | .param (i + 1) => args[i]?.map .inr

/-- A statement with its arguments, none where their number is wrong. -/
def bound (args : List α) (ps : List Piece) : Option (List (Char ⊕ α)) :=
  if args.length = arity ps then ps.mapM (fill args) else none

theorem arity_readMarks (n : Nat) (s : List Char) :
    arity (readMarks (n + 1) s) = if s.count '?' = 0 then 0 else n + s.count '?' := by
  induction s generalizing n with
  | nil => rfl
  | cons c s ih =>
    by_cases hmark : c = '?'
    · subst hmark
      rw [readMarks, if_pos rfl, arity, ih, List.count_cons_self, if_neg (Nat.add_one_ne_zero _)]
      split <;> omega
    · rw [readMarks, if_neg hmark, arity, ih, List.count_cons_of_ne hmark]

theorem mapM_fill_readMarks (args : List α) (n : Nat) (s : List Char) (h : n + s.count '?' ≤ args.length) :
    ∃ filled, (readMarks (n + 1) s).mapM (fill args) = some filled := by
  induction s generalizing n with
  | nil => exact ⟨[], rfl⟩
  | cons c s ih =>
    by_cases hmark : c = '?'
    · subst hmark
      rw [List.count_cons_self] at h
      obtain ⟨filled, hfilled⟩ := ih (n + 1) (by omega)
      have hn : n < args.length := by omega
      refine ⟨.inr args[n] :: filled, ?_⟩
      rw [readMarks, if_pos rfl, List.mapM_cons, hfilled, fill, List.getElem?_eq_getElem hn]
      rfl
    · rw [List.count_cons_of_ne hmark] at h
      obtain ⟨filled, hfilled⟩ := ih n h
      refine ⟨.inl c :: filled, ?_⟩
      rw [readMarks, if_neg hmark, List.mapM_cons, hfilled]
      rfl

/-- A statement takes as many arguments as it has question marks. -/
theorem bound_readMarks {args : List α} {s : List Char} (h : args.length = s.count '?') :
    ∃ filled, bound args (readMarks 1 s) = some filled := by
  have harity : args.length = arity (readMarks 1 s) := by
    rw [arity_readMarks 0 s, h]
    split <;> omega
  obtain ⟨filled, hfilled⟩ := mapM_fill_readMarks args 0 s (by omega)
  exact ⟨filled, by rw [bound, if_pos harity]; exact hfilled⟩

end Arguments

end Janus.Placeholders
