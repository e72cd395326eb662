import Janus.Lib.Number
import Mathlib.Tactic.Ring
import Mathlib.Tactic.Linarith

/-!
# The literal of a decoded number

A decoded number has no superfluous zeros (`Decimal.Normal`). The literal it is encoded
as is a number literal again, and reading that literal gives back the same decimal
(`decimal_jsonText`).
-/

namespace Janus

set_option autoImplicit false

def AllDigits (ds : List Char) : Prop := ∀ c ∈ ds, isDigit c = true

theorem isDigit_zero : isDigit '0' = true := by decide

theorem allDigits_zeros (n : Nat) : AllDigits (List.replicate n '0') := by
  intro c hc
  rw [List.eq_of_mem_replicate hc]
  exact isDigit_zero

theorem allDigits_append {xs ys : List Char} : AllDigits (xs ++ ys) ↔ AllDigits xs ∧ AllDigits ys := by
  simp [AllDigits, or_imp, forall_and]

theorem allDigits_natDigits (n : Nat) : AllDigits (natDigits n) := by
  intro c hc
  have h := Nat.isDigit_of_mem_toDigits (by decide) (by decide) hc
  simpa [Char.isDigit, isDigit, Char.le_def] using h

theorem natDigits_ne_nil (n : Nat) : natDigits n ≠ [] := Nat.toDigits_ne_nil

theorem digitsVal_natDigits (n : Nat) : digitsVal (natDigits n) = n :=
  Nat.ofDigitChars_ten_toDigits

theorem digitsVal_zeros_append (a : Nat) (ds : List Char) :
    digitsVal (List.replicate a '0' ++ ds) = digitsVal ds := by
  have h : Nat.ofDigitChars 10 (List.replicate a '0') 0 = 0 := by
    rw [Nat.ofDigitChars_replicate_zero, Nat.mul_zero]
  change Nat.ofDigitChars 10 (List.replicate a '0' ++ ds) 0 = Nat.ofDigitChars 10 ds 0
  rw [Nat.ofDigitChars_append, h]

theorem digitsVal_append_zeros (ds : List Char) (b : Nat) :
    digitsVal (ds ++ List.replicate b '0') = digitsVal ds * 10 ^ b := by
  change Nat.ofDigitChars 10 (ds ++ List.replicate b '0') 0 = Nat.ofDigitChars 10 ds 0 * 10 ^ b
  rw [Nat.ofDigitChars_append, Nat.ofDigitChars_replicate_zero, Nat.mul_comm]

theorem takeWhile_digits {ds rest : List Char} (hd : AllDigits ds)
    (hr : ∀ c, rest.head? = some c → isDigit c = false) :
    (ds ++ rest).takeWhile isDigit = ds ∧ (ds ++ rest).dropWhile isDigit = rest := by
  have hrest : rest.takeWhile isDigit = [] ∧ rest.dropWhile isDigit = rest := by
    cases rest with
    | nil => exact ⟨rfl, rfl⟩
    | cons c cs => simp [hr c rfl]
  rw [List.takeWhile_append_of_pos hd, List.dropWhile_append_of_pos hd, hrest.1, hrest.2,
    List.append_nil]
  exact ⟨rfl, rfl⟩

/-- No zeros at the ends of the digits. -/
structure Trimmed (ds : List Char) : Prop where
  digits : AllDigits ds
  head : ds.head? ≠ some '0'
  last : ds.getLast? ≠ some '0'

structure Decimal.Normal (d : Decimal) : Prop where
  trimmed : Trimmed d.digits
  zero : d.digits = [] → d.point = 0

theorem dropWhile_zeros (a : Nat) {ds : List Char} (h : ds.head? ≠ some '0') :
    (List.replicate a '0' ++ ds).dropWhile (· = '0') = ds ∧
      (List.replicate a '0' ++ ds).takeWhile (· = '0') = List.replicate a '0' := by
  have hz : ∀ c ∈ List.replicate a '0', decide (c = '0') = true := by
    intro c hc
    exact decide_eq_true (List.eq_of_mem_replicate hc)
  rw [List.dropWhile_append_of_pos hz, List.takeWhile_append_of_pos hz]
  cases ds with
  | nil => simp
  | cons c cs =>
    have hc : c ≠ '0' := fun he => h (by rw [he]; rfl)
    simp [hc]

/-- Stripping takes off exactly the zeros at the ends. -/
theorem stripped_zeros (neg : Bool) (a b : Nat) {ds : List Char} (h : Trimmed ds) (p : Int) :
    Decimal.stripped ⟨neg, List.replicate a '0' ++ (ds ++ List.replicate b '0'), p⟩ =
      if ds = [] then ⟨neg, [], 0⟩ else ⟨neg, ds, p - a⟩ := by
  by_cases hds : ds = []
  · simp [Decimal.stripped, hds]
  · have hhead : (ds ++ List.replicate b '0').head? ≠ some '0' := by
      rw [List.head?_append_of_ne_nil _ hds]
      exact h.head
    have hlast : ds.reverse.head? ≠ some '0' := by
      rw [List.head?_reverse]
      exact h.last
    obtain ⟨hdrop, htake⟩ := dropWhile_zeros a hhead
    have hback := (dropWhile_zeros b hlast).1
    simp only [Decimal.stripped, hdrop, htake, List.reverse_append, List.reverse_replicate, hback,
      List.reverse_reverse, List.isEmpty_iff, hds, if_false, List.length_replicate]

/-- Every digit sequence is a trimmed one between zeros. -/
theorem exists_trimmed {ds : List Char} (h : AllDigits ds) :
    ∃ a b es, Trimmed es ∧ ds = List.replicate a '0' ++ (es ++ List.replicate b '0') := by
  have hzeros (l : List Char) : l.takeWhile (· = '0') = List.replicate (l.takeWhile (· = '0')).length '0' := by
    apply List.eq_replicate_of_mem
    intro c hc
    simpa using List.all_eq_true.mp List.all_takeWhile c hc
  have hhead (l : List Char) : (l.dropWhile (· = '0')).head? ≠ some '0' := by
    intro he
    have := List.head?_dropWhile_not (p := fun c => decide (c = '0')) l
    simp [he] at this
  set es := ds.dropWhile (· = '0') with hes
  refine ⟨(ds.takeWhile (· = '0')).length, (es.reverse.takeWhile (· = '0')).length,
    (es.reverse.dropWhile (· = '0')).reverse, ⟨?_, ?_, ?_⟩, ?_⟩
  · intro c hc
    have hc' : c ∈ es := List.mem_reverse.mp ((List.dropWhile_suffix _).subset (List.mem_reverse.mp hc))
    exact h c ((List.dropWhile_suffix _).subset hc')
  · intro he
    have hpre : (es.reverse.dropWhile (· = '0')).reverse <+: es := by
      have := (List.dropWhile_suffix (l := es.reverse) (fun c => decide (c = '0')))
      rw [← List.reverse_prefix, List.reverse_reverse] at this
      exact this
    obtain ⟨t, ht⟩ := hpre
    refine hhead ds ?_
    rw [← hes, ← ht]
    cases hd : (es.reverse.dropWhile (· = '0')).reverse with
    | nil => simp [hd] at he
    | cons c cs => simpa [hd] using he
  · rw [List.getLast?_reverse]
    exact hhead _
  · conv_lhs => rw [← List.takeWhile_append_dropWhile (p := fun c => decide (c = '0')) (l := ds)]
    rw [← hzeros, ← hes]
    congr 1
    rw [← List.reverse_inj, List.reverse_append, List.reverse_reverse, List.reverse_replicate,
      ← hzeros, List.takeWhile_append_dropWhile]

/-- The literal with the given integer part, fraction and exponent part. -/
def literal (neg : Bool) (int frac expo : List Char) : List Char :=
  sign neg ++ (int ++ ((if frac = [] then [] else '.' :: frac) ++ expo))

/-- The parts of a literal as an encoder writes them. -/
structure Parts (int frac expo : List Char) : Prop where
  int_digits : AllDigits int
  int_ne : int ≠ []
  int_head : int.head? = some '0' → int = ['0']
  frac_digits : AllDigits frac
  expo : expo = [] ∨ ∃ s xs, expo = 'e' :: s :: xs ∧ (s = '+' ∨ s = '-') ∧ xs ≠ [] ∧ AllDigits xs

theorem Parts.isExponent {int frac expo : List Char} (h : Parts int frac expo) :
    isExponent expo = true := by
  rcases h.expo with rfl | ⟨s, xs, rfl, rfl | rfl, hne, hxs⟩
  · rfl
  · simp [Janus.isExponent, hne]
    exact hxs
  · simp [Janus.isExponent, hne]
    exact hxs

theorem Parts.head_expo {int frac expo : List Char} (h : Parts int frac expo) :
    ∀ c, expo.head? = some c → isDigit c = false ∧ c ≠ '.' := by
  intro c hc
  rcases h.expo with rfl | ⟨s, xs, rfl, _⟩
  · cases hc
  · obtain rfl : 'e' = c := Option.some.inj hc
    decide

/-- What follows the integer part does not start with a digit. -/
theorem Parts.head_rest {int frac expo : List Char} (h : Parts int frac expo) :
    ∀ c, ((if frac = [] then [] else '.' :: frac) ++ expo).head? = some c → isDigit c = false := by
  intro c hc
  split at hc
  · exact (h.head_expo c hc).1
  · obtain rfl : '.' = c := Option.some.inj hc
    decide

theorem Parts.head_ne_minus {int frac expo : List Char} (h : Parts int frac expo)
    (rest : List Char) : ∃ c cs, int ++ rest = c :: cs ∧ c ≠ '-' := by
  cases hint : int with
  | nil => exact absurd hint h.int_ne
  | cons c cs =>
    refine ⟨c, cs ++ rest, rfl, ?_⟩
    rintro rfl
    exact absurd (h.int_digits '-' (by rw [hint]; exact List.mem_cons_self)) (by decide)

theorem Parts.isFraction {int frac expo : List Char} (h : Parts int frac expo) :
    isFraction ((if frac = [] then [] else '.' :: frac) ++ expo) = true := by
  by_cases hf : frac = []
  · rw [if_pos hf, List.nil_append]
    unfold Janus.isFraction
    split
    · exact absurd rfl (h.head_expo '.' rfl).2
    · exact h.isExponent
  · obtain ⟨htake, hdrop⟩ := takeWhile_digits h.frac_digits fun c hc => (h.head_expo c hc).1
    rw [if_neg hf]
    simp only [Janus.isFraction, List.cons_append, htake, hdrop, h.isExponent, Bool.and_true,
      Bool.not_eq_true', List.isEmpty_eq_false_iff]
    exact hf

/-- What an encoder writes is a number literal. -/
theorem isNumLit_literal (neg : Bool) {int frac expo : List Char} (h : Parts int frac expo) :
    isNumLit (literal neg int frac expo) = true := by
  obtain ⟨htake, hdrop⟩ := takeWhile_digits h.int_digits h.head_rest
  have hunsigned : isUnsigned (int ++ ((if frac = [] then [] else '.' :: frac) ++ expo)) = true := by
    unfold isUnsigned
    rw [htake, hdrop]
    split
    · exact absurd rfl h.int_ne
    · exact absurd (h.int_head rfl) (by simp)
    · exact h.isFraction
  cases neg with
  | true => exact hunsigned
  | false =>
    obtain ⟨c, cs, hc, hne⟩ := h.head_ne_minus ((if frac = [] then [] else '.' :: frac) ++ expo)
    unfold literal sign isNumLit
    rw [if_neg Bool.false_ne_true, List.nil_append]
    rw [hc] at hunsigned ⊢
    split
    · rename_i heq
      exact absurd (List.cons.inj heq).1 hne
    · exact hunsigned

/-- Reading a literal puts its parts together. -/
theorem decimal_literal (neg : Bool) {int frac expo : List Char} (h : Parts int frac expo) :
    NumLit.decimal ⟨literal neg int frac expo, isNumLit_literal neg h⟩ =
      Decimal.stripped ⟨neg, int ++ frac, int.length + exponentVal expo⟩ := by
  obtain ⟨htake, hdrop⟩ := takeWhile_digits h.int_digits h.head_rest
  obtain ⟨c, cs, hc, hne⟩ := h.head_ne_minus ((if frac = [] then [] else '.' :: frac) ++ expo)
  have hneg : decide ((literal neg int frac expo).head? = some '-') = neg := by
    cases neg with
    | true => rfl
    | false => simp [literal, sign, hc, hne]
  have hbody : (if (literal neg int frac expo).head? = some '-' then (literal neg int frac expo).drop 1
      else literal neg int frac expo) = int ++ ((if frac = [] then [] else '.' :: frac) ++ expo) := by
    cases neg with
    | true => rfl
    | false => rw [if_neg (of_decide_eq_false hneg)]; rfl
  unfold NumLit.decimal
  dsimp only
  simp only [hneg, hbody, htake, hdrop]
  by_cases hf : frac = []
  · rw [if_pos hf, List.nil_append]
    split
    · exact absurd rfl (h.head_expo '.' rfl).2
    · rw [hf]
  · obtain ⟨hft, hfd⟩ := takeWhile_digits h.frac_digits fun c hc => (h.head_expo c hc).1
    rw [if_neg hf]
    simp only [List.cons_append, hft, hfd]

theorem stripped_normal {d : Decimal} (h : d.Normal) (hne : d.digits ≠ []) (a b : Nat) {p : Int}
    (hp : p - a = d.point) :
    Decimal.stripped ⟨d.neg, List.replicate a '0' ++ (d.digits ++ List.replicate b '0'), p⟩ = d := by
  rw [stripped_zeros d.neg a b h.trimmed p, if_neg hne, hp]

theorem formatF_parts {d : Decimal} (h : d.Normal) :
    ∃ int frac, Parts int frac [] ∧ d.formatF = literal d.neg int frac [] ∧
      Decimal.stripped ⟨d.neg, int ++ frac, int.length + exponentVal []⟩ = d := by
  obtain ⟨hdigits, hhead, hlast⟩ := h.trimmed
  by_cases hne : d.digits = []
  · refine ⟨['0'], [], ⟨allDigits_zeros 1, by simp, fun _ => rfl, by simp [AllDigits], Or.inl rfl⟩, ?_, ?_⟩
    · simp [Decimal.formatF, literal, hne]
    · have hstrip := stripped_zeros d.neg 1 0 h.trimmed ((['0'].length : Nat) + exponentVal [])
      rw [hne, if_pos rfl] at hstrip
      refine hstrip.trans ?_
      rw [← hne, ← h.zero hne]
  · by_cases hle : d.point ≤ 0
    · -- A leading `0.` and further zeros.
      refine ⟨['0'], List.replicate (-d.point).toNat '0' ++ d.digits, ⟨allDigits_zeros 1, by simp, fun _ => rfl,
        allDigits_append.mpr ⟨allDigits_zeros _, hdigits⟩, Or.inl rfl⟩, ?_, ?_⟩
      · simp [Decimal.formatF, literal, hne, hle]
      · have hstrip := stripped_normal h hne ((-d.point).toNat + 1) 0
          (p := (['0'].length : Nat) + exponentVal []) (by simp [exponentVal]; omega)
        simpa [List.replicate_succ, Nat.add_comm] using hstrip
    · have hint {ds : List Char} (hds : AllDigits ds) (hn : ds ≠ []) (hd : ds.head? = d.digits.head?)
          {fs : List Char} (hfs : AllDigits fs) : Parts ds fs [] :=
        ⟨hds, hn, fun he => absurd (hd ▸ he) hhead, hfs, Or.inl rfl⟩
      by_cases hge : (d.digits.length : Int) ≤ d.point
      · -- An integer, zeros behind it.
        have hdg : AllDigits (d.digits ++ List.replicate (d.point.toNat - d.digits.length) '0') :=
          allDigits_append.mpr ⟨hdigits, allDigits_zeros _⟩
        refine ⟨d.digits ++ List.replicate (d.point.toNat - d.digits.length) '0', [],
          hint hdg (by simp [hne]) (List.head?_append_of_ne_nil _ hne) (by simp [AllDigits]), ?_, ?_⟩
        · simp [Decimal.formatF, literal, hne, hle, hge]
        · have hstrip := stripped_normal h hne 0 (d.point.toNat - d.digits.length)
            (p := ((d.digits ++ List.replicate (d.point.toNat - d.digits.length) '0').length : Nat) +
              exponentVal []) (by simp [exponentVal]; omega)
          simpa using hstrip
      · -- The point is among the digits.
        have htake : AllDigits (d.digits.take d.point.toNat) :=
          fun c hc => hdigits c (List.mem_of_mem_take hc)
        have hdrop : AllDigits (d.digits.drop d.point.toNat) :=
          fun c hc => hdigits c (List.mem_of_mem_drop hc)
        have hpos : d.point.toNat ≠ 0 := by omega
        have hne' : d.digits.take d.point.toNat ≠ [] := by simp [hne, hpos]
        refine ⟨d.digits.take d.point.toNat, d.digits.drop d.point.toNat,
          hint htake hne' (by simp [List.head?_take, hpos]) hdrop, ?_, ?_⟩
        · have hlt : ¬ d.digits.length ≤ d.point.toNat := by omega
          simp [Decimal.formatF, literal, hne, hle, hge, List.drop_eq_nil_iff, hlt]
        · have hlen : (d.digits.take d.point.toNat).length = d.point.toNat := by
            rw [List.length_take]; omega
          have hstrip := stripped_normal h hne 0 0
            (p := ((d.digits.take d.point.toNat).length : Nat) + exponentVal [])
            (by rw [hlen]; simp [exponentVal]; omega)
          simpa [List.take_append_drop] using hstrip

theorem exponentVal_sign (x : Int) :
    exponentVal ('e' :: (if x < 0 then '-' else '+') :: natDigits x.natAbs) = x := by
  split
  · simp only [exponentVal, digitsVal_natDigits]
    omega
  · simp only [exponentVal, digitsVal_natDigits]
    omega

theorem formatE_parts {d : Decimal} (h : d.Normal) (hne : d.digits ≠ []) :
    ∃ int frac expo, Parts int frac expo ∧ d.formatE false = literal d.neg int frac expo ∧
      Decimal.stripped ⟨d.neg, int ++ frac, int.length + exponentVal expo⟩ = d := by
  obtain ⟨c, cs, hcs⟩ := List.exists_cons_of_ne_nil hne
  have hdigits := h.trimmed.digits
  rw [hcs] at hdigits
  refine ⟨[c], cs, 'e' :: (if d.point - 1 < 0 then '-' else '+') :: natDigits (d.point - 1).natAbs,
    ⟨?_, by simp, ?_, ?_, Or.inr ⟨_, _, rfl, ?_, natDigits_ne_nil _, allDigits_natDigits _⟩⟩, ?_, ?_⟩
  · intro x hx
    exact hdigits x (List.mem_cons.mpr (Or.inl (List.mem_singleton.mp hx)))
  · intro he
    rw [Option.some.inj he]
  · exact fun x hx => hdigits x (List.mem_cons_of_mem c hx)
  · split <;> simp
  · cases cs with
    | nil => simp [Decimal.formatE, literal, hcs]
    | cons c' cs => simp [Decimal.formatE, literal, hcs]
  · rw [exponentVal_sign]
    have hstrip := stripped_normal h hne 0 0 (p := ([c].length : Nat) + (d.point - 1))
      (by simp)
    simpa [hcs] using hstrip

theorem jsonText_parts {d : Decimal} (h : d.Normal) :
    ∃ int frac expo, Parts int frac expo ∧ d.jsonText = literal d.neg int frac expo ∧
      Decimal.stripped ⟨d.neg, int ++ frac, int.length + exponentVal expo⟩ = d := by
  unfold Decimal.jsonText
  split
  · obtain ⟨int, frac, hparts, htext, hd⟩ := formatF_parts h
    exact ⟨int, frac, [], hparts, htext, hd⟩
  · rename_i hc
    refine formatE_parts h ?_
    intro he
    simp [he] at hc

/-- Reading the literal of a decoded number gives the number back. -/
theorem numLit_jsonText {d : Decimal} (h : d.Normal) :
    ∃ n, numLit? d.jsonText = some n ∧ n.decimal = d := by
  obtain ⟨int, frac, expo, hparts, htext, hd⟩ := jsonText_parts h
  refine ⟨⟨literal d.neg int frac expo, isNumLit_literal d.neg hparts⟩, ?_, ?_⟩
  · rw [htext, numLit?, dif_pos (isNumLit_literal d.neg hparts)]
  · rw [decimal_literal d.neg hparts, hd]

end Janus
