import Janus.Lib.NumberText
import Mathlib.Data.Int.Log
import Mathlib.Data.Rat.Floor
import Mathlib.Tactic.FieldSimp
import Mathlib.Tactic.Positivity

/-!
# Rounding to doubles

`roundBinary` depends on the fraction and not on how it is written
(`roundBinary_congr`), so a decoded number is read again without an overflow
(`float64_again`).
-/

namespace Janus

set_option autoImplicit false

/-- The exponent of the leading bit that `roundBinary` finds. -/
def binaryExponent (num den : Nat) : Int :=
  let k : Int := (Nat.log2 num : Int) - (Nat.log2 den : Int)
  if (if 0 ≤ k then num < den * 2 ^ k.toNat else num * 2 ^ (-k).toNat < den) then k - 1 else k

/-- The comparison of a fraction with a power of `b`, in integers. -/
theorem below_pow_iff (num : Nat) {b den : Nat} (hb : 0 < b) (hd : 0 < den) (k : Int) :
    (if 0 ≤ k then num < den * b ^ k.toNat else num * b ^ (-k).toNat < den) ↔
      (num : ℚ) / den < (b : ℚ) ^ k := by
  have hden : (0 : ℚ) < den := by exact_mod_cast hd
  have hbase : (0 : ℚ) < b := by exact_mod_cast hb
  rw [div_lt_iff₀ hden]
  split
  · rename_i hk
    obtain ⟨n, rfl⟩ := Int.eq_ofNat_of_zero_le hk
    rw [Int.toNat_natCast, zpow_natCast, mul_comm]
    exact_mod_cast Iff.rfl
  · rename_i hk
    obtain ⟨n, hn⟩ := Int.eq_ofNat_of_zero_le (a := -k) (by omega)
    obtain rfl : k = -(n : Int) := by omega
    have hpow : (0 : ℚ) < (b : ℚ) ^ n := pow_pos hbase n
    rw [Int.neg_neg, Int.toNat_natCast, zpow_neg, zpow_natCast, inv_mul_eq_div, lt_div_iff₀ hpow]
    exact_mod_cast Iff.rfl

theorem below_iff {num den : Nat} (hd : 0 < den) (k : Int) :
    (if 0 ≤ k then num < den * 2 ^ k.toNat else num * 2 ^ (-k).toNat < den) ↔
      (num : ℚ) / den < 2 ^ k := by
  have h := below_pow_iff num (b := 2) (by decide) hd k
  exact_mod_cast h

theorem binaryExponent_eq {num den : Nat} (hn : 0 < num) (hd : 0 < den) :
    binaryExponent num den = Int.log 2 ((num : ℚ) / den) := by
  have hnum : (0 : ℚ) < num := by exact_mod_cast hn
  have hden : (0 : ℚ) < den := by exact_mod_cast hd
  have hr : (0 : ℚ) < (num : ℚ) / den := div_pos hnum hden
  have hnlo : (2 : ℚ) ^ (num.log2 : Int) ≤ num := by
    exact_mod_cast Nat.log2_self_le hn.ne'
  have hnhi : (num : ℚ) < 2 ^ ((num.log2 : Int) + 1) := by
    exact_mod_cast Nat.lt_log2_self
  have hdlo : (2 : ℚ) ^ (den.log2 : Int) ≤ den := by
    exact_mod_cast Nat.log2_self_le hd.ne'
  have hdhi : (den : ℚ) < 2 ^ ((den.log2 : Int) + 1) := by
    exact_mod_cast Nat.lt_log2_self
  set k : Int := (num.log2 : Int) - den.log2 with hk
  -- The quotient of the leading bits is off by at most one.
  have hlow : (2 : ℚ) ^ (k - 1) ≤ (num : ℚ) / den := by
    rw [le_div_iff₀ hden]
    calc (2 : ℚ) ^ (k - 1) * den ≤ 2 ^ (k - 1) * 2 ^ ((den.log2 : Int) + 1) :=
        mul_le_mul_of_nonneg_left hdhi.le (zpow_nonneg (by norm_num) _)
      _ = 2 ^ (num.log2 : Int) := by rw [← zpow_add₀ (by norm_num)]; congr 1; omega
      _ ≤ num := hnlo
  have hhigh : (num : ℚ) / den < 2 ^ (k + 1) := by
    rw [div_lt_iff₀ hden]
    calc (num : ℚ) < 2 ^ ((num.log2 : Int) + 1) := hnhi
      _ = 2 ^ (k + 1) * 2 ^ (den.log2 : Int) := by rw [← zpow_add₀ (by norm_num)]; congr 1; omega
      _ ≤ 2 ^ (k + 1) * den := mul_le_mul_of_nonneg_left hdlo (zpow_nonneg (by norm_num) _)
  have huniq {x : Int} (h1 : (2 : ℚ) ^ x ≤ (num : ℚ) / den) (h2 : (num : ℚ) / den < 2 ^ (x + 1)) :
      x = Int.log 2 ((num : ℚ) / den) := by
    have hle := (Int.zpow_le_iff_le_log (b := 2) (by norm_num) hr).mp (by exact_mod_cast h1)
    have hlt := (Int.lt_zpow_iff_log_lt (b := 2) (by norm_num) hr).mp (by exact_mod_cast h2)
    omega
  unfold binaryExponent
  dsimp only
  rw [← hk]
  by_cases hb : (num : ℚ) / den < 2 ^ k
  · rw [if_pos ((below_iff hd k).mpr hb)]
    apply huniq hlow
    rwa [Int.sub_add_cancel]
  · rw [if_neg (mt (below_iff hd k).mp hb)]
    exact huniq (not_lt.mp hb) hhigh

/-- The numerator and the denominator of the fraction in units of `2^e`. -/
def scaled (num den : Nat) (e : Int) : Nat × Nat :=
  (if 0 ≤ e then num else num * 2 ^ (-e).toNat, if 0 ≤ e then den * 2 ^ e.toNat else den)

/-- Division to nearest, ties to even. -/
def roundDiv (n d : Nat) : Nat :=
  if 2 * (n % d) > d || (2 * (n % d) = d && n / d % 2 = 1) then n / d + 1 else n / d

/-- A carry out of the 53 bits moves into the exponent. -/
def carry (q : Nat) (e : Int) : Nat × Int := if q = 2 ^ 53 then (2 ^ 52, e + 1) else (q, e)

def unitExponent (num den : Nat) : Int := max (binaryExponent num den - 52) (-1074)

theorem roundBinary_eq (num den : Nat) :
    roundBinary num den =
      (let s := scaled num den (unitExponent num den)
      let r := carry (roundDiv s.1 s.2) (unitExponent num den)
      if r.2 > 971 then none else some r) := by
  have he : unitExponent num den =
      max (if (if 0 ≤ (Nat.log2 num : Int) - (Nat.log2 den : Int) then
          num < den * 2 ^ ((Nat.log2 num : Int) - (Nat.log2 den : Int)).toNat
        else num * 2 ^ (-((Nat.log2 num : Int) - (Nat.log2 den : Int))).toNat < den)
        then (Nat.log2 num : Int) - (Nat.log2 den : Int) - 53
        else (Nat.log2 num : Int) - (Nat.log2 den : Int) - 52) (-1074) := by
    unfold unitExponent binaryExponent
    dsimp only
    split_ifs <;> omega
  unfold roundBinary
  dsimp only
  rw [← he]
  rfl

theorem roundDiv_congr {n d n' d' : Nat} (hd : 0 < d) (hd' : 0 < d') (h : n * d' = n' * d) :
    roundDiv n d = roundDiv n' d' := by
  have hdiv : n / d = n' / d' := by
    rw [← Nat.mul_div_mul_right n d hd', h, Nat.mul_comm d d', Nat.mul_div_mul_right n' d' hd]
  have hmod : n % d * d' = n' % d' * d := by
    have hn := Nat.div_add_mod n d
    have hn' := Nat.div_add_mod n' d'
    rw [← hn, ← hn', hdiv] at h
    have hcomm : d * (n' / d') * d' = d' * (n' / d') * d := by ring
    rw [Nat.add_mul, Nat.add_mul, hcomm] at h
    exact Nat.add_left_cancel h
  have htwice : 2 * (n % d) * d' = 2 * (n' % d') * d := by
    rw [Nat.mul_assoc, hmod, Nat.mul_assoc]
  have hgt : 2 * (n % d) > d ↔ 2 * (n' % d') > d' :=
    calc d < 2 * (n % d) ↔ d * d' < 2 * (n % d) * d' := (Nat.mul_lt_mul_right hd').symm
      _ ↔ d' * d < 2 * (n' % d') * d := by rw [htwice, Nat.mul_comm d d']
      _ ↔ d' < 2 * (n' % d') := Nat.mul_lt_mul_right hd
  have heq : 2 * (n % d) = d ↔ 2 * (n' % d') = d' :=
    calc 2 * (n % d) = d ↔ 2 * (n % d) * d' = d * d' := (Nat.mul_left_inj hd'.ne').symm
      _ ↔ 2 * (n' % d') * d = d' * d := by rw [htwice, Nat.mul_comm d d']
      _ ↔ 2 * (n' % d') = d' := Nat.mul_left_inj hd.ne'
  unfold roundDiv
  simp only [hdiv, hgt, heq]

theorem scaled_pos {num den : Nat} (hd : 0 < den) (e : Int) : 0 < (scaled num den e).2 := by
  unfold scaled
  dsimp only
  split
  · exact Nat.mul_pos hd (Nat.pow_pos (by decide))
  · exact hd

theorem scaled_congr {num den num' den' : Nat} (h : num * den' = num' * den) (e : Int) :
    (scaled num den e).1 * (scaled num' den' e).2 = (scaled num' den' e).1 * (scaled num den e).2 := by
  unfold scaled
  dsimp only
  split
  · rw [← Nat.mul_assoc, h, Nat.mul_assoc]
  · rw [Nat.mul_right_comm, h, Nat.mul_right_comm]

/-- Rounding depends on the fraction, not on how it is written. -/
theorem roundBinary_congr {num den num' den' : Nat} (hn : 0 < num) (hd : 0 < den) (hn' : 0 < num')
    (hd' : 0 < den') (h : num * den' = num' * den) : roundBinary num den = roundBinary num' den' := by
  have hq : (num : ℚ) / den = (num' : ℚ) / den' := by
    rw [div_eq_div_iff (by exact_mod_cast hd.ne') (by exact_mod_cast hd'.ne')]
    exact_mod_cast h
  have he : unitExponent num den = unitExponent num' den' := by
    unfold unitExponent
    rw [binaryExponent_eq hn hd, binaryExponent_eq hn' hd', hq]
  rw [roundBinary_eq, roundBinary_eq, he]
  dsimp only
  rw [roundDiv_congr (scaled_pos hd _) (scaled_pos hd' _) (scaled_congr h _)]

/-- In units of `2^e` the fraction has at most 53 bits. -/
theorem scaled_lt {num den : Nat} (hn : 0 < num) (hd : 0 < den) {e : Int}
    (he : binaryExponent num den - 52 ≤ e) :
    (scaled num den e).1 < (scaled num den e).2 * 2 ^ 53 := by
  have hden : (0 : ℚ) < den := by exact_mod_cast hd
  have hlt : (num : ℚ) / den < 2 ^ (e + 53) := by
    have hlog := Int.lt_zpow_succ_log_self (b := 2) (by norm_num) ((num : ℚ) / den)
    rw [← binaryExponent_eq hn hd] at hlog
    calc (num : ℚ) / den < 2 ^ (binaryExponent num den + 1) := by exact_mod_cast hlog
      _ ≤ 2 ^ (e + 53) := zpow_le_zpow_right₀ (by norm_num) (by omega)
  rw [div_lt_iff₀ hden, zpow_add₀ (by norm_num)] at hlt
  unfold scaled
  dsimp only
  split
  · rename_i hk
    obtain ⟨n, rfl⟩ := Int.eq_ofNat_of_zero_le hk
    rw [Int.toNat_natCast]
    rw [zpow_natCast] at hlt
    have hnat : num < 2 ^ n * 2 ^ 53 * den := by exact_mod_cast hlt
    calc num < 2 ^ n * 2 ^ 53 * den := hnat
      _ = den * 2 ^ n * 2 ^ 53 := by ring
  · rename_i hk
    obtain ⟨n, hn⟩ := Int.eq_ofNat_of_zero_le (a := -e) (by omega)
    obtain rfl : e = -(n : Int) := by omega
    have hpow : (0 : ℚ) < 2 ^ n := by positivity
    rw [Int.neg_neg, Int.toNat_natCast]
    rw [zpow_neg, zpow_natCast, mul_assoc, inv_mul_eq_div, lt_div_iff₀ hpow] at hlt
    have hnat : num * 2 ^ n < 2 ^ 53 * den := by exact_mod_cast hlt
    rwa [Nat.mul_comm den]

theorem roundDiv_le {n d : Nat} (h : n < d * 2 ^ 53) : roundDiv n d ≤ 2 ^ 53 := by
  have hdiv : n / d < 2 ^ 53 := Nat.div_lt_of_lt_mul h
  unfold roundDiv
  split <;> omega

theorem carry_lt {q : Nat} {e : Int} (h : q ≤ 2 ^ 53) : (carry q e).1 < 2 ^ 53 := by
  unfold carry
  split
  · dsimp only
    norm_num
  · dsimp only
    omega

theorem roundBinary_lt {num den q : Nat} {e : Int} (hn : 0 < num) (hd : 0 < den)
    (h : roundBinary num den = some (q, e)) : q < 2 ^ 53 := by
  rw [roundBinary_eq] at h
  dsimp only at h
  split at h
  · cases h
  · have hr := Option.some.inj h
    have hlt := carry_lt (e := unitExponent num den)
      (roundDiv_le (scaled_lt hn hd (le_max_left (binaryExponent num den - 52) (-1074))))
    change (carry _ (unitExponent num den)).1 < 2 ^ 53 at hlt
    unfold unitExponent at hlt hr
    rw [hr] at hlt
    exact hlt

/-- An integer of at most 53 bits is in range. -/
theorem roundBinary_nat {q : Nat} (hq : 0 < q) (h : q < 2 ^ 53) : roundBinary q 1 ≠ none := by
  have hlog : binaryExponent q 1 < 53 := by
    rw [binaryExponent_eq hq (by decide)]
    apply (Int.lt_zpow_iff_log_lt (by norm_num) (by simpa using hq)).mp
    simp only [Nat.cast_one, div_one]
    exact_mod_cast h
  have hunit : unitExponent q 1 ≤ 0 := by
    unfold unitExponent
    omega
  rw [roundBinary_eq]
  dsimp only
  split
  · rename_i hgt
    unfold carry at hgt
    split at hgt
    · dsimp only at hgt
      omega
    · dsimp only at hgt
      omega
  · simp

theorem ratio_pos {m : Nat} (hm : 0 < m) (e : Int) : 0 < (ratio m 10 e).1 ∧ 0 < (ratio m 10 e).2 := by
  unfold ratio
  split
  · exact ⟨Nat.mul_pos hm (Nat.pow_pos (by decide)), by simp⟩
  · exact ⟨hm, Nat.pow_pos (by decide)⟩

/-- Zeros at the end of the digits and the exponent stand for the same factor. -/
theorem ratio_shift (m b : Nat) (e : Int) :
    (ratio (m * 10 ^ b) 10 e).1 * (ratio m 10 (e + b)).2 =
      (ratio m 10 (e + b)).1 * (ratio (m * 10 ^ b) 10 e).2 := by
  unfold ratio
  by_cases he : 0 ≤ e
  · have heb : 0 ≤ e + b := by omega
    have hsum : (e + b).toNat = b + e.toNat := by omega
    rw [if_pos he, if_pos heb, hsum, Nat.pow_add]
    ring
  · by_cases heb : 0 ≤ e + b
    · have hsum : b = (e + b).toNat + (-e).toNat := by omega
      rw [if_neg he, if_pos heb]
      conv_lhs => rw [hsum]
      rw [Nat.pow_add]
      ring
    · have hsum : (-e).toNat = (-(e + b)).toNat + b := by omega
      rw [if_neg he, if_neg heb, hsum, Nat.pow_add]
      ring

theorem roundBinary_ratio_shift {m : Nat} (hm : 0 < m) (b : Nat) (e : Int) :
    roundBinary (ratio m 10 (e + b)).1 (ratio m 10 (e + b)).2 =
      roundBinary (ratio (m * 10 ^ b) 10 e).1 (ratio (m * 10 ^ b) 10 e).2 := by
  obtain ⟨hn, hd⟩ := ratio_pos hm (e + b)
  obtain ⟨hn', hd'⟩ := ratio_pos (Nat.mul_pos hm (Nat.pow_pos (n := b) (by decide : 0 < 10))) e
  exact (roundBinary_congr hn' hd' hn hd (ratio_shift m b e)).symm

/-- The decimal that stands for a double is in range again. -/
theorem shortestDecimal_inRange {q : Nat} (hq : 0 < q) (h : q < 2 ^ 53) (e : Int) :
    roundBinary (ratio (shortestDecimal q e).1 10 (shortestDecimal q e).2).1
      (ratio (shortestDecimal q e).1 10 (shortestDecimal q e).2).2 ≠ none := by
  unfold shortestDecimal
  dsimp only
  generalize hgood : List.find? _ _ = good
  cases good with
  | none => simpa [ratio] using roundBinary_nat hq h
  | some c =>
    have hround := List.find?_some hgood
    rw [decide_eq_true_eq] at hround
    rw [Option.getD_some, hround]
    exact Option.some_ne_none _

/-- A decimal whose rounding is in range is read into a double. -/
theorem toFloat64_ne_none {d : Decimal}
    (h : roundBinary (ratio (digitsVal d.digits) 10 (d.point - d.digits.length)).1
      (ratio (digitsVal d.digits) 10 (d.point - d.digits.length)).2 ≠ none) :
    d.toFloat64 ≠ none := by
  unfold Decimal.toFloat64
  dsimp only
  split
  · simp
  · split
    · rename_i hnone
      exact absurd hnone h
    · simp
    · simp

theorem zero_again (neg : Bool) :
    (⟨neg, [], 0⟩ : Decimal).Normal ∧ (⟨neg, [], 0⟩ : Decimal).toFloat64 ≠ none := by
  refine ⟨⟨⟨?_, ?_, ?_⟩, fun _ => rfl⟩, ?_⟩
  · simp [AllDigits]
  · simp
  · simp
  · simp [Decimal.toFloat64, digitsVal]

theorem stripped_toFloat64_ne_none (neg : Bool) {v : Nat} {p : Int}
    (h : roundBinary (ratio v 10 p).1 (ratio v 10 p).2 ≠ none) :
    (Decimal.stripped ⟨neg, natDigits v, (natDigits v).length + p⟩).Normal ∧
      (Decimal.stripped ⟨neg, natDigits v, (natDigits v).length + p⟩).toFloat64 ≠ none := by
  obtain ⟨a, b, es, hes, hv⟩ := exists_trimmed (allDigits_natDigits v)
  have hstrip := stripped_zeros neg a b hes ((natDigits v).length + p)
  rw [← hv] at hstrip
  have hval : v = digitsVal es * 10 ^ b := by
    rw [← digitsVal_append_zeros, ← digitsVal_zeros_append a, ← hv, digitsVal_natDigits]
  rw [hstrip]
  split
  · exact zero_again neg
  · rename_i hne
    refine ⟨⟨hes, fun he => absurd he hne⟩, ?_⟩
    by_cases hzero : digitsVal es = 0
    · simp [Decimal.toFloat64, hzero]
    · have hpoint : ((natDigits v).length : Int) + p - a - es.length = p + b := by
        have hlen := congrArg List.length hv
        simp only [List.length_append, List.length_replicate] at hlen
        omega
      refine toFloat64_ne_none ?_
      dsimp only
      rw [hpoint, roundBinary_ratio_shift (Nat.pos_of_ne_zero hzero), ← hval]
      exact h

/-- What a literal is read into is normal and in range. -/
theorem toFloat64_again {d d' : Decimal} (h : d.toFloat64 = some d') :
    d'.Normal ∧ d'.toFloat64 ≠ none := by
  unfold Decimal.toFloat64 at h
  dsimp only at h
  split at h
  · cases h
    exact zero_again d.neg
  · rename_i hm
    split at h
    · cases h
    · cases h
      exact zero_again d.neg
    · rename_i q e hq hround
      cases h
      obtain ⟨hn, hd⟩ := ratio_pos (Nat.pos_of_ne_zero hm) (d.point - d.digits.length)
      have hlt := roundBinary_lt hn hd hround
      have hpos : 0 < q := Nat.pos_of_ne_zero hq
      exact stripped_toFloat64_ne_none d.neg (shortestDecimal_inRange hpos hlt e)

/-- The literal of a decoded number is decoded again. -/
theorem float64_again {n m : NumLit} (h : n.float64 = some m) : m.float64.isSome = true := by
  obtain ⟨d, hd, hm⟩ := Option.bind_eq_some_iff.mp h
  obtain ⟨hnormal, hrange⟩ := toFloat64_again hd
  obtain ⟨k, hk, hdec⟩ := numLit_jsonText hnormal
  obtain rfl : k = m := Option.some.inj (hk.symm.trans hm)
  obtain ⟨d', hd'⟩ := Option.ne_none_iff_exists'.mp hrange
  obtain ⟨k', hk', _⟩ := numLit_jsonText (toFloat64_again hd').1
  rw [NumLit.float64, hdec, hd', Option.bind_some, hk']
  rfl

end Janus
