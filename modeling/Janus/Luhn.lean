import Janus.Lib.CheckDigit
import Janus.Redaction

/-!
# The Luhn check

The loop of `luhnValid` goes over the digits from the right with a flag that alternates. Its sum
is the sum over the positions (`luhnValid_iff`). At either kind of position the ten digits
have ten different terms, so that one wrong digit is noticed, and so are two neighbours
that have changed places, 0 and 9 apart (`luhn_check`).
-/

namespace Janus.Redaction

set_option autoImplicit false

open CheckDigit

def digitValue (c : Char) : Nat := c.toNat - '0'.toNat

/-- What a digit adds at a position from the right: every second one is doubled. -/
def luhnTerm (i d : Nat) : Nat :=
  if i % 2 = 1 then (if 2 * d > 9 then 2 * d - 9 else 2 * d) else d

/-- The sum over the positions, counted from the right. -/
def luhnTotal (digits : Str) : Nat :=
  ∑ i ∈ Finset.range digits.length, luhnTerm i (digitValue (digits.reverse.getD i '0'))

/-- Two neighbours that the check tells from their swap. -/
def Swappable (x y : Char) : Prop := x ≠ y ∧ ¬ (x = '0' ∧ y = '9') ∧ ¬ (x = '9' ∧ y = '0')

instance (x y : Char) : Decidable (Swappable x y) := inferInstanceAs (Decidable (_ ∧ _ ∧ _))

theorem luhnSum_eq_total (i : Nat) (ds : List Nat) :
    luhnSum (decide (i % 2 = 1)) ds = total luhnTerm i ds := by
  induction ds generalizing i with
  | nil => rfl
  | cons d ds ih =>
    have hflag : (!decide (i % 2 = 1)) = decide ((i + 1) % 2 = 1) := by
      rw [← decide_not]
      apply decide_eq_decide.mpr
      omega
    rw [luhnSum, total, hflag, ih]
    simp only [luhnTerm, decide_eq_true_eq]

theorem luhnSum_reverse (digits : Str) :
    luhnSum false (digits.reverse.map digitValue) = total luhnTerm 0 (digits.reverse.map digitValue) :=
  luhnSum_eq_total 0 _

theorem luhnValid_eq (digits : Str) :
    luhnValid digits = true ↔ total luhnTerm 0 (digits.reverse.map digitValue) ≡ 0 [MOD 10] := by
  rw [← luhnSum_reverse]
  exact decide_eq_true_iff

theorem total_eq_luhnTotal (digits : Str) :
    total luhnTerm 0 (digits.reverse.map digitValue) = luhnTotal digits := by
  rw [total_eq_sum luhnTerm (digitValue '0'), List.length_map, List.length_reverse]
  apply Finset.sum_congr rfl
  intro i _
  rw [List.getD_eq_getElem?_getD, List.getD_eq_getElem?_getD, List.getElem?_map, Option.getD_map]

theorem luhnValid_iff (digits : Str) : luhnValid digits = true ↔ luhnTotal digits % 10 = 0 := by
  rw [luhnValid_eq, total_eq_luhnTotal]
  rfl

theorem digitValue_lt {c : Char} (h : isDigit c = true) : digitValue c < 10 := by
  have hle : '0' ≤ c ∧ c ≤ '9' := by simpa [isDigit] using h
  have hupper : c.toNat ≤ '9'.toNat := hle.2
  have hnine : '9'.toNat = '0'.toNat + 9 := rfl
  unfold digitValue
  omega

theorem digitValue_inj {c d : Char} (hc : isDigit c = true) (hd : isDigit d = true)
    (h : digitValue c = digitValue d) : c = d := by
  have hcle : '0' ≤ c ∧ c ≤ '9' := by simpa [isDigit] using hc
  have hdle : '0' ≤ d ∧ d ≤ '9' := by simpa [isDigit] using hd
  have hclower : '0'.toNat ≤ c.toNat := hcle.1
  have hdlower : '0'.toNat ≤ d.toNat := hdle.1
  unfold digitValue at h
  apply Char.toNat_inj.mp
  omega

/-- At every position the ten digits have different terms. -/
theorem luhnTerm_inj {i a b : Nat} (ha : a < 10) (hb : b < 10)
    (h : luhnTerm i a ≡ luhnTerm i b [MOD 10]) : a = b := by
  unfold luhnTerm Nat.ModEq at h
  split_ifs at h <;> omega

/-- Two digits at neighbouring positions have the same terms in both orders exactly when they are
equal, or are 0 and 9. -/
theorem luhnTerm_swap {i a b : Nat} (ha : a < 10) (hb : b < 10) :
    luhnTerm i a + luhnTerm (i + 1) b ≡ luhnTerm i b + luhnTerm (i + 1) a [MOD 10] ↔
      a = b ∨ (a = 0 ∧ b = 9) ∨ (a = 9 ∧ b = 0) := by
  unfold luhnTerm Nat.ModEq
  split_ifs <;> omega

theorem not_valid_replace {a b : Str} {x y : Char} (hx : isDigit x = true) (hy : isDigit y = true)
    (hne : y ≠ x) (h : luhnValid (a ++ x :: b) = true) : luhnValid (a ++ y :: b) = false := by
  apply Bool.eq_false_iff.mpr
  intro hvalid
  rw [luhnValid_eq, List.reverse_append, List.reverse_cons, List.append_assoc, List.singleton_append,
    List.map_append, List.map_cons] at h hvalid
  have hterm := (total_replace luhnTerm _ _ _ _).mp (h.trans hvalid.symm)
  exact hne (digitValue_inj hx hy (luhnTerm_inj (digitValue_lt hx) (digitValue_lt hy) hterm)).symm

theorem digitValue_eq_iff {c d : Char} (hc : isDigit c = true) (hd : isDigit d = true) :
    digitValue c = digitValue d ↔ c = d :=
  ⟨digitValue_inj hc hd, congrArg digitValue⟩

theorem swappable_iff {x y : Char} (hx : isDigit x = true) (hy : isDigit y = true) :
    Swappable x y ↔ ¬ (digitValue y = digitValue x ∨ (digitValue y = 0 ∧ digitValue x = 9) ∨
      (digitValue y = 9 ∧ digitValue x = 0)) := by
  have hzero : isDigit '0' = true := rfl
  have hnine : isDigit '9' = true := rfl
  have hzeroValue : digitValue '0' = 0 := rfl
  have hnineValue : digitValue '9' = 9 := rfl
  rw [← hzeroValue, ← hnineValue, digitValue_eq_iff hy hx, digitValue_eq_iff hy hzero,
    digitValue_eq_iff hx hnine, digitValue_eq_iff hy hnine, digitValue_eq_iff hx hzero]
  unfold Swappable
  tauto

/-- Of a valid number the swap of two neighbours is noticed unless they are equal, or 0 and 9. -/
theorem not_valid_swap_iff {a b : Str} {x y : Char} (hx : isDigit x = true) (hy : isDigit y = true)
    (h : luhnValid (a ++ x :: y :: b) = true) :
    luhnValid (a ++ y :: x :: b) = false ↔ Swappable x y := by
  rw [swappable_iff hx hy, ← Bool.not_eq_true]
  apply not_congr
  rw [luhnValid_eq, List.reverse_append, List.reverse_cons, List.reverse_cons, List.append_assoc,
    List.append_assoc, List.singleton_append, List.singleton_append, List.map_append, List.map_cons,
    List.map_cons] at h ⊢
  rw [← luhnTerm_swap (digitValue_lt hy) (digitValue_lt hx), ← total_swap luhnTerm]
  constructor
  · intro hvalid
    exact h.trans hvalid.symm
  · intro hterms
    exact hterms.symm.trans h

/-- The check is the sum over the positions modulo ten, and it notices one wrong digit and two
neighbours that have changed places. -/
theorem luhn_check (digits : Str) (hdigits : ∀ c ∈ digits, isDigit c = true) :
    (luhnValid digits = true ↔ luhnTotal digits % 10 = 0) ∧
      (luhnValid digits = true →
        (∀ a x b y, digits = a ++ x :: b → isDigit y = true → y ≠ x → luhnValid (a ++ y :: b) = false) ∧
        ∀ a x y b, digits = a ++ x :: y :: b → Swappable x y → luhnValid (a ++ y :: x :: b) = false) := by
  refine ⟨luhnValid_iff digits, ?_⟩
  intro hvalid
  constructor
  · rintro a x b y rfl hy hne
    exact not_valid_replace (hdigits x (by simp)) hy hne hvalid
  · rintro a x y b rfl hne
    exact (not_valid_swap_iff (hdigits x (by simp)) (hdigits y (by simp)) hvalid).mpr hne

theorem luhn_check_eighteen :
    luhnTotal "18".toList % 10 = 0 ∧ luhnValid "81".toList = false ∧ luhnValid "28".toList = false := by
  obtain ⟨htotal, hnoticed⟩ := luhn_check "18".toList (by decide)
  have hvalid : luhnValid "18".toList = true := by decide
  obtain ⟨hreplaced, hswapped⟩ := hnoticed hvalid
  exact ⟨htotal.mp hvalid, hswapped [] '1' '8' [] rfl (by decide),
    hreplaced [] '1' ['8'] '2' rfl (by decide) (by decide)⟩

end Janus.Redaction
