import Janus.Lib.NumberIntegers
import Mathlib.Tactic.Linarith

/-!
# Doubles and their decimals

A fraction next to a double is rounded to it (`roundBinary_near`), and seventeen digits are
next enough, so the decimal that a double is written as is read back as this double
(`shortestDecimal_rounds`). What a number is decoded into is decoded into itself
(`float64_float64`).
-/

namespace Janus

set_option autoImplicit false

theorem roundDiv_eq {n d q : Nat} (hd : 0 < d) (hlo : 2 * n < (2 * q + 1) * d)
    (hhi : 2 * q * d < 2 * n + d) : roundDiv n d = q := by
  have hdiv := Nat.div_add_mod n d
  have hmod := Nat.mod_lt n hd
  rw [Nat.mul_comm d] at hdiv
  have hfloor : n / d ≤ q := by
    by_contra hlt
    have hmul := Nat.mul_le_mul_right d (show q + 1 ≤ n / d by omega)
    rw [Nat.add_mul] at hmul hlo
    rw [Nat.mul_assoc] at hlo
    omega
  have hceil : q ≤ n / d + 1 := by
    by_contra hlt
    have hmul := Nat.mul_le_mul_right d (show n / d + 2 ≤ q by omega)
    rw [Nat.add_mul] at hmul
    rw [Nat.mul_assoc] at hhi
    omega
  unfold roundDiv
  obtain rfl | rfl : q = n / d ∨ q = n / d + 1 := by omega
  · rw [Nat.add_mul, Nat.mul_assoc] at hlo
    rw [if_neg]
    simp only [Bool.or_eq_true, Bool.and_eq_true, decide_eq_true_eq]
    omega
  · rw [Nat.mul_assoc, Nat.add_mul] at hhi
    rw [if_pos]
    simp only [Bool.or_eq_true, Bool.and_eq_true, decide_eq_true_eq]
    omega

theorem roundDiv_near {n d q : Nat} (hd : 0 < d) (h : |(n : ℚ) / d - q| < 1 / 2) : roundDiv n d = q := by
  have hden : (0 : ℚ) < d := by exact_mod_cast hd
  obtain ⟨hhi, hlo⟩ := abs_lt.mp h
  have hup : (n : ℚ) / d < (2 * q + 1) / 2 := by linarith
  have hdown : (2 * q - 1) / 2 < (n : ℚ) / d := by linarith
  rw [div_lt_div_iff₀ hden (by norm_num)] at hup
  rw [div_lt_div_iff₀ (by norm_num) hden] at hdown
  apply roundDiv_eq hd
  · have hcast : (2 : ℚ) * n < (2 * q + 1) * d := by linarith
    exact_mod_cast hcast
  · have hcast : (2 : ℚ) * q * d < 2 * n + d := by linarith
    exact_mod_cast hcast

/-- A fraction in units of a power. -/
theorem units_ratio (num : Nat) {den b : Nat} (hd : 0 < den) (hb : 0 < b) (e : Int) :
    ((if 0 ≤ e then num else num * b ^ (-e).toNat : Nat) : ℚ) /
      (if 0 ≤ e then den * b ^ e.toNat else den : Nat) = (num : ℚ) / den / (b : ℚ) ^ e := by
  have hden : (den : ℚ) ≠ 0 := by exact_mod_cast hd.ne'
  have hbase : (b : ℚ) ≠ 0 := by exact_mod_cast hb.ne'
  by_cases he : 0 ≤ e
  · obtain ⟨n, rfl⟩ := Int.eq_ofNat_of_zero_le he
    rw [if_pos he, if_pos he, Int.toNat_natCast, zpow_natCast]
    push_cast
    rw [div_div]
  · obtain ⟨n, hn⟩ := Int.eq_ofNat_of_zero_le (a := -e) (by omega)
    obtain rfl : e = -(n : Int) := by omega
    rw [if_neg he, if_neg he, Int.neg_neg, Int.toNat_natCast, zpow_neg, zpow_natCast]
    push_cast
    field_simp

theorem scaled_ratio (num : Nat) {den : Nat} (hd : 0 < den) (e : Int) :
    ((scaled num den e).1 : ℚ) / (scaled num den e).2 = (num : ℚ) / den / 2 ^ e := by
  exact_mod_cast units_ratio num hd (by decide : 0 < 2) e

/-- The 53 bits and the exponent of a double. -/
structure IsDouble (q : Nat) (e : Int) : Prop where
  bits : q < 2 ^ 53
  low : -1074 ≤ e
  high : e ≤ 971
  normal : 2 ^ 52 ≤ q ∨ e = -1074

section Near

variable {num den q : Nat} {e : Int}

theorem unitExponent_eq (hn : 0 < num) (hd : 0 < den) (hlow : -1074 ≤ e)
    (hlo : (2 : ℚ) ^ (e + 52) ≤ (num : ℚ) / den ∨ e = -1074) (hhi : (num : ℚ) / den < 2 ^ (e + 53)) :
    unitExponent num den = e := by
  have hpos : (0 : ℚ) < (num : ℚ) / den := div_pos (by exact_mod_cast hn) (by exact_mod_cast hd)
  have hlt := (Int.lt_zpow_iff_log_lt (b := 2) (by norm_num) hpos).mp (by exact_mod_cast hhi)
  unfold unitExponent
  rw [binaryExponent_eq hn hd]
  rcases hlo with hlo | rfl
  · have hle := (Int.zpow_le_iff_le_log (b := 2) (by norm_num) hpos).mp (by exact_mod_cast hlo)
    omega
  · omega

theorem roundBinary_of_unit (hd : 0 < den) (hunit : unitExponent num den = e)
    (hnear : |(num : ℚ) / den / 2 ^ e - q| < 1 / 2) (hfit : (carry q e).2 ≤ 971) :
    roundBinary num den = some (carry q e) := by
  rw [← scaled_ratio num hd] at hnear
  rw [roundBinary_eq, hunit]
  dsimp only
  rw [roundDiv_near (scaled_pos hd e) hnear, if_neg (by omega)]

/-- The doubles next to a fraction are as far apart as those next to the double. -/
theorem roundBinary_inside (hn : 0 < num) (hd : 0 < den) (h : IsDouble q e)
    (hbig : (2 : ℚ) ^ (e + 52) ≤ (num : ℚ) / den ∨ e = -1074)
    (hhalf : |(num : ℚ) / den / 2 ^ e - q| < 1 / 2) : roundBinary num den = some (q, e) := by
  have hu : (0 : ℚ) < 2 ^ e := zpow_pos (by norm_num) e
  have hbits : (q : ℚ) ≤ 2 ^ 53 - 1 := by
    have hle : q + 1 ≤ 2 ^ 53 := h.bits
    have hcast : (q : ℚ) + 1 ≤ 2 ^ 53 := by exact_mod_cast hle
    linarith
  have hhi : (num : ℚ) / den < 2 ^ (e + 53) := by
    rw [add_comm, zpow_add₀ (by norm_num), ← div_lt_iff₀ hu]
    have hlt : (num : ℚ) / den / 2 ^ e < 2 ^ 53 := by linarith [(abs_lt.mp hhalf).2]
    exact_mod_cast hlt
  have hcarry : carry q e = (q, e) := if_neg h.bits.ne
  rw [roundBinary_of_unit hd (unitExponent_eq hn hd h.low hbig hhi) hhalf (by rw [hcarry]; exact h.high),
    hcarry]

/-- Just below a power of two the doubles are twice as dense. -/
theorem roundBinary_below (hn : 0 < num) (hd : 0 < den) (hlow : -1074 < e) (hhigh : e ≤ 971)
    (hsmall : (num : ℚ) / den < 2 ^ (e + 52))
    (hquarter : |(num : ℚ) / den / 2 ^ e - 2 ^ 52| < 1 / 4) :
    roundBinary num den = some (2 ^ 52, e) := by
  have hu : (0 : ℚ) < 2 ^ e := zpow_pos (by norm_num) e
  have hunit : (2 : ℚ) ^ (e - 1) = 2 ^ e / 2 := zpow_sub_one₀ (by norm_num) e
  obtain ⟨hdown, hup⟩ := abs_lt.mp hquarter
  have hlo : (2 : ℚ) ^ (e - 1 + 52) ≤ (num : ℚ) / den := by
    rw [add_comm, zpow_add₀ (by norm_num), hunit, mul_div_left_comm, mul_comm, ← le_div_iff₀ hu]
    have hle : (2 : ℚ) ^ 52 / 2 ≤ (num : ℚ) / den / 2 ^ e := by linarith
    exact_mod_cast hle
  have hhi : (num : ℚ) / den < 2 ^ (e - 1 + 53) := by
    have hexp : e - 1 + 53 = e + 52 := by omega
    rwa [hexp]
  have hhalf : |(num : ℚ) / den / 2 ^ (e - 1) - (2 ^ 53 : Nat)| < 1 / 2 := by
    have hdouble : (num : ℚ) / den / 2 ^ (e - 1) = 2 * ((num : ℚ) / den / 2 ^ e) := by
      rw [hunit]
      field_simp
    rw [hdouble, abs_lt]
    push_cast
    constructor
    · linarith
    · linarith
  have hcarry : carry (2 ^ 53) (e - 1) = (2 ^ 52, e) := by
    unfold carry
    rw [if_pos rfl, Int.sub_add_cancel]
  rw [roundBinary_of_unit hd (unitExponent_eq hn hd (by omega) (.inl hlo) hhi) hhalf
    (by rw [hcarry]; exact hhigh), hcarry]

/-- A fraction that is closer to a double than half of the gap next to it is rounded to it. -/
theorem roundBinary_near (hn : 0 < num) (hd : 0 < den) (h : IsDouble q e)
    (hnear : |(num : ℚ) / den - q * 2 ^ e| * 2 ^ 54 < q * 2 ^ e) : roundBinary num den = some (q, e) := by
  have hu : (0 : ℚ) < 2 ^ e := zpow_pos (by norm_num) e
  have hr : (num : ℚ) / den = (num : ℚ) / den / 2 ^ e * 2 ^ e := (div_mul_cancel₀ _ hu.ne').symm
  have hclose : |(num : ℚ) / den / 2 ^ e - q| * 2 ^ 54 < q := by
    rw [hr, ← sub_mul, abs_mul, abs_of_pos hu, mul_right_comm] at hnear
    exact lt_of_mul_lt_mul_right hnear hu.le
  have hbits : (q : ℚ) < 2 ^ 53 := by exact_mod_cast h.bits
  have hhalf : |(num : ℚ) / den / 2 ^ e - q| < 1 / 2 := by linarith
  by_cases hbig : (2 : ℚ) ^ (e + 52) ≤ (num : ℚ) / den ∨ e = -1074
  · exact roundBinary_inside hn hd h hbig hhalf
  · obtain ⟨hsmall, hsub⟩ := not_or.mp hbig
    have hge := h.normal.resolve_right hsub
    have hbelow : (num : ℚ) / den / 2 ^ e < 2 ^ 52 := by
      rw [not_le, add_comm, zpow_add₀ (by norm_num), ← div_lt_iff₀ hu] at hsmall
      exact_mod_cast hsmall
    obtain rfl : q = 2 ^ 52 := by
      have hlt : (q : ℚ) < 2 ^ 52 + 1 := by linarith [(abs_lt.mp hhalf).1]
      have hlt' : q < 2 ^ 52 + 1 := by exact_mod_cast hlt
      omega
    push_cast at hclose
    have hquarter : |(num : ℚ) / den / 2 ^ e - 2 ^ 52| < 1 / 4 := by linarith
    exact roundBinary_below hn hd (lt_of_le_of_ne h.low (Ne.symm hsub)) h.high (not_le.mp hsmall) hquarter

theorem roundBinary_isDouble (hn : 0 < num) (hd : 0 < den) (h : roundBinary num den = some (q, e)) :
    IsDouble q e := by
  have hbits := roundBinary_lt hn hd h
  rw [roundBinary_eq] at h
  dsimp only at h
  split at h
  · cases h
  · rename_i hfit
    have hr := Option.some.inj h
    rw [hr] at hfit
    have hunit : -1074 ≤ unitExponent num den := le_max_right _ _
    unfold carry at hr
    split at hr
    · obtain ⟨rfl, rfl⟩ := Prod.ext_iff.mp hr
      dsimp only at hfit ⊢
      exact ⟨by norm_num, by omega, by omega, .inl le_rfl⟩
    · obtain ⟨hq, he⟩ := Prod.ext_iff.mp hr
      dsimp only at hq he hfit
      subst he
      refine ⟨hbits, hunit, by omega, ?_⟩
      by_cases hmin : unitExponent num den = -1074
      · exact .inr hmin
      · left
        have hexp : binaryExponent num den = unitExponent num den + 52 := by
          unfold unitExponent at hmin ⊢
          omega
        have hpos : (0 : ℚ) < (num : ℚ) / den := div_pos (by exact_mod_cast hn) (by exact_mod_cast hd)
        have hlog := Int.zpow_log_le_self (b := 2) (by norm_num) hpos
        rw [← binaryExponent_eq hn hd, hexp] at hlog
        have hge : (2 : ℚ) ^ 52 ≤ (scaled num den (unitExponent num den)).1 /
            (scaled num den (unitExponent num den)).2 := by
          rw [scaled_ratio num hd, le_div_iff₀ (zpow_pos (by norm_num) _), mul_comm]
          rw [zpow_add₀ (by norm_num)] at hlog
          exact_mod_cast hlog
        have hspos : 0 < (scaled num den (unitExponent num den)).2 :=
          scaled_pos hd (unitExponent num den)
        rw [le_div_iff₀ (by exact_mod_cast hspos)] at hge
        have hdiv : 2 ^ 52 ≤ (scaled num den (unitExponent num den)).1 /
            (scaled num den (unitExponent num den)).2 :=
          (Nat.le_div_iff_mul_le hspos).mpr (by exact_mod_cast hge)
        rw [← hq]
        unfold roundDiv
        split <;> omega

end Near

theorem ratio_value (m : Nat) {b : Nat} (hb : 0 < b) (e : Int) :
    ((ratio m b e).1 : ℚ) / (ratio m b e).2 = m * (b : ℚ) ^ e := by
  have hb0 : (b : ℚ) ≠ 0 := by exact_mod_cast hb.ne'
  unfold ratio
  by_cases he : 0 ≤ e
  · obtain ⟨n, rfl⟩ := Int.eq_ofNat_of_zero_le he
    rw [if_pos he, Int.toNat_natCast, zpow_natCast]
    push_cast
    rw [div_one]
  · obtain ⟨n, hn⟩ := Int.eq_ofNat_of_zero_le (a := -e) (by omega)
    obtain rfl : e = -(n : Int) := by omega
    rw [if_neg he, Int.neg_neg, Int.toNat_natCast, zpow_neg, zpow_natCast]
    push_cast
    rw [div_eq_mul_inv]

theorem decimalExponent_le {num den : Nat} (hn : 0 < num) (hd : 0 < den) :
    (10 : ℚ) ^ decimalExponent num den ≤ (num : ℚ) / den := by
  have hden : (0 : ℚ) < den := by exact_mod_cast hd
  have hl := length_natDigits_pos num
  set l : Int := ((natDigits num).length : Int) - (natDigits den).length with hldef
  have hiff := below_pow_iff num (b := 10) (by decide) hd l
  unfold decimalExponent
  dsimp only
  rw [← hldef]
  by_cases hbelow : (num : ℚ) / den < ((10 : Nat) : ℚ) ^ l
  · rw [if_pos (hiff.mpr hbelow)]
    have hnum : (10 : ℚ) ^ ((natDigits num).length - 1) ≤ num := by
      exact_mod_cast pow_le_of_length hn (by omega : (natDigits num).length - 1 < _)
    have hdenle : (den : ℚ) ≤ 10 ^ (natDigits den).length := by
      exact_mod_cast (lt_pow_length den).le
    rw [le_div_iff₀ hden]
    calc (10 : ℚ) ^ (l - 1) * den ≤ 10 ^ (l - 1) * 10 ^ (natDigits den).length :=
        mul_le_mul_of_nonneg_left hdenle (zpow_nonneg (by norm_num) _)
      _ = 10 ^ ((natDigits num).length - 1) := by
        rw [← zpow_natCast, ← zpow_natCast, ← zpow_add₀ (by norm_num)]
        congr 1
        omega
      _ ≤ num := hnum
  · rw [if_neg (mt hiff.mp hbelow)]
    exact_mod_cast not_lt.mp hbelow

/-- The numerator and the denominator of the fraction in units of `10^p`. -/
def inTens (num den : Nat) (p : Int) : Nat × Nat :=
  if 0 ≤ p then (num, den * 10 ^ p.toNat) else (num * 10 ^ (-p).toNat, den)

theorem nearDecimals_eq (num den n : Nat) :
    nearDecimals num den n =
      (let p : Int := decimalExponent num den - (n - 1)
      let c := inTens num den p
      if 2 * (c.1 % c.2) > c.2 then [(c.1 / c.2 + 1, p), (c.1 / c.2, p)]
      else [(c.1 / c.2, p), (c.1 / c.2 + 1, p)]) := rfl

theorem inTens_pos (num : Nat) {den : Nat} (hd : 0 < den) (p : Int) : 0 < (inTens num den p).2 := by
  unfold inTens
  split
  · exact Nat.mul_pos hd (Nat.pow_pos (by decide))
  · exact hd

theorem inTens_ratio (num : Nat) {den : Nat} (hd : 0 < den) (p : Int) :
    ((inTens num den p).1 : ℚ) / (inTens num den p).2 = (num : ℚ) / den / 10 ^ p := by
  have hunits := units_ratio num hd (by decide : 0 < 10) p
  unfold inTens
  split at hunits
  · rename_i hp
    rw [if_pos hp]
    exact_mod_cast hunits
  · rename_i hp
    rw [if_neg hp]
    exact_mod_cast hunits

/-- One of the decimals next to a fraction is off by half a unit of its last digit at most. -/
theorem exists_near (num : Nat) {den : Nat} (hd : 0 < den) (n : Nat) :
    ∃ c ∈ nearDecimals num den n, |(c.1 : ℚ) * 10 ^ c.2 - (num : ℚ) / den| ≤ 10 ^ c.2 / 2 := by
  set p : Int := decimalExponent num den - (n - 1) with hp
  have hu : (0 : ℚ) < 10 ^ p := zpow_pos (by norm_num) p
  have hpos := inTens_pos num hd p
  have hr : (num : ℚ) / den = ((inTens num den p).1 : ℚ) / (inTens num den p).2 * 10 ^ p := by
    rw [inTens_ratio num hd, div_mul_cancel₀ _ hu.ne']
  rw [nearDecimals_eq, ← hp, hr]
  dsimp only
  generalize inTens num den p = c at hpos
  obtain ⟨a, b⟩ := c
  dsimp only at hpos ⊢
  have hb : (0 : ℚ) < b := by exact_mod_cast hpos
  have hsplit : (a : ℚ) / b = (a / b : Nat) + (a % b : Nat) / b := by
    have hdiv : ((b * (a / b) + a % b : Nat) : ℚ) = a := by rw [Nat.div_add_mod]
    push_cast at hdiv
    field_simp
    linarith
  have hmod : ((a % b : Nat) : ℚ) / b < 1 := by
    rw [div_lt_one hb]
    exact_mod_cast Nat.mod_lt a hpos
  have hmod0 : (0 : ℚ) ≤ ((a % b : Nat) : ℚ) / b := by positivity
  have hclose (d : Nat) (h : |(d : ℚ) - (a : ℚ) / b| ≤ 1 / 2) :
      |(d : ℚ) * 10 ^ p - (a : ℚ) / b * 10 ^ p| ≤ 10 ^ p / 2 := by
    rw [← sub_mul, abs_mul, abs_of_pos hu]
    linarith [mul_le_mul_of_nonneg_right h hu.le]
  split
  · rename_i hup
    refine ⟨(a / b + 1, p), List.mem_cons_self, hclose _ ?_⟩
    have hhalf : (1 : ℚ) / 2 < ((a % b : Nat) : ℚ) / b := by
      rw [div_lt_div_iff₀ (by norm_num) hb]
      have hcast : (b : ℚ) < 2 * (a % b : Nat) := by exact_mod_cast hup
      linarith
    rw [hsplit, abs_le]
    push_cast
    constructor <;> linarith
  · rename_i hdown
    refine ⟨(a / b, p), List.mem_cons_self, hclose _ ?_⟩
    have hhalf : ((a % b : Nat) : ℚ) / b ≤ 1 / 2 := by
      rw [div_le_div_iff₀ hb (by norm_num)]
      have hcast : (2 : ℚ) * (a % b : Nat) ≤ b := by exact_mod_cast not_lt.mp hdown
      linarith
    rw [hsplit, abs_le]
    push_cast
    constructor <;> linarith

/-- One of the decimals with seventeen digits is rounded to the double. -/
theorem exists_rounds {q : Nat} {e : Int} (hq : 0 < q) (h : IsDouble q e) :
    ∃ c ∈ nearDecimals (ratio q 2 e).1 (ratio q 2 e).2 17,
      roundBinary (ratio c.1 10 c.2).1 (ratio c.1 10 c.2).2 = some (q, e) := by
  obtain ⟨hnum, hden⟩ : 0 < (ratio q 2 e).1 ∧ 0 < (ratio q 2 e).2 := by
    unfold ratio
    split
    · exact ⟨Nat.mul_pos hq (Nat.two_pow_pos _), Nat.one_pos⟩
    · exact ⟨hq, Nat.two_pow_pos _⟩
  have hval : ((ratio q 2 e).1 : ℚ) / (ratio q 2 e).2 = q * 2 ^ e := by
    exact_mod_cast ratio_value q (b := 2) (by decide) e
  obtain ⟨c, hc, hnear⟩ := exists_near (ratio q 2 e).1 hden 17
  have hlead := decimalExponent_le hnum hden
  rw [hval] at hnear hlead
  set u : ℚ := 10 ^ c.2 with hudef
  have hu : 0 < u := zpow_pos (by norm_num) _
  have hdigits : u * 10 ^ 16 ≤ q * 2 ^ e := by
    have hpoint := nearDecimals_point hc
    have hexp : decimalExponent (ratio q 2 e).1 (ratio q 2 e).2 = c.2 + 16 := by
      push_cast at hpoint
      omega
    rw [hexp, zpow_add₀ (by norm_num)] at hlead
    exact_mod_cast hlead
  have hcpos : 0 < c.1 := by
    by_contra hzero
    have h0 : (c.1 : ℚ) = 0 := by
      have : c.1 = 0 := by omega
      exact_mod_cast this
    rw [h0, zero_mul, zero_sub, abs_neg, abs_of_nonneg (by linarith)] at hnear
    linarith
  have hcval : ((ratio c.1 10 c.2).1 : ℚ) / (ratio c.1 10 c.2).2 = c.1 * u := by
    exact_mod_cast ratio_value c.1 (b := 10) (by decide) c.2
  obtain ⟨hcn, hcd⟩ := ratio_pos hcpos c.2
  refine ⟨c, hc, roundBinary_near hcn hcd h ?_⟩
  rw [hcval]
  linarith

/-- The decimal that stands for a double is rounded to the double. -/
theorem shortestDecimal_rounds {q : Nat} {e : Int} (hq : 0 < q) (h : IsDouble q e) :
    roundBinary (ratio (shortestDecimal q e).1 10 (shortestDecimal q e).2).1
      (ratio (shortestDecimal q e).1 10 (shortestDecimal q e).2).2 = some (q, e) := by
  obtain ⟨c, hc, hgood⟩ := exists_rounds hq h
  unfold shortestDecimal
  dsimp only
  generalize hfind : List.find? _ _ = found
  cases found with
  | none =>
    have hmem : c ∈ (List.range 17).flatMap fun i => nearDecimals (ratio q 2 e).1 (ratio q 2 e).2 (i + 1) :=
      List.mem_flatMap.mpr ⟨16, by simp, hc⟩
    have hnot := List.find?_eq_none.mp hfind c hmem
    rw [decide_eq_true_eq] at hnot
    exact absurd hgood hnot
  | some c' =>
    have hround := List.find?_some hfind
    rw [decide_eq_true_eq] at hround
    exact hround

theorem roundBinary_zero {den q : Nat} {e : Int} (h : roundBinary 0 den = some (q, e)) : q = 0 := by
  have hscaled (k : Int) : (scaled 0 den k).1 = 0 := by simp [scaled]
  have hdiv (d : Nat) : roundDiv 0 d = 0 := by simp [roundDiv]
  rw [roundBinary_eq] at h
  dsimp only at h
  have hcarry (k : Int) : carry 0 k = (0, k) := if_neg (by decide)
  rw [hscaled, hdiv, hcarry] at h
  split at h
  · cases h
  · cases h
    rfl

/-- The decimal that a double is written as. -/
def doubleText (neg : Bool) (q : Nat) (e : Int) : Decimal :=
  Decimal.stripped ⟨neg, natDigits (shortestDecimal q e).1,
    (natDigits (shortestDecimal q e).1).length + (shortestDecimal q e).2⟩

theorem toFloat64_of_round {d : Decimal} {q : Nat} {e : Int} (hm : digitsVal d.digits ≠ 0) (hq : q ≠ 0)
    (h : roundBinary (ratio (digitsVal d.digits) 10 (d.point - d.digits.length)).1
      (ratio (digitsVal d.digits) 10 (d.point - d.digits.length)).2 = some (q, e)) :
    d.toFloat64 = some (doubleText d.neg q e) := by
  obtain ⟨q, rfl⟩ := Nat.exists_eq_succ_of_ne_zero hq
  unfold Decimal.toFloat64
  dsimp only
  rw [if_neg hm, h]
  rfl

theorem toFloat64_doubleText (neg : Bool) {q : Nat} {e : Int} (hq : 0 < q) (h : IsDouble q e) :
    (doubleText neg q e).toFloat64 = some (doubleText neg q e) := by
  have hround := shortestDecimal_rounds hq h
  generalize hv : (shortestDecimal q e).1 = v at hround
  generalize hp : (shortestDecimal q e).2 = p at hround
  have hvpos : v ≠ 0 := by
    rintro rfl
    have hzero : (ratio 0 10 p).1 = 0 := by
      unfold ratio
      split <;> simp
    rw [hzero] at hround
    exact hq.ne' (roundBinary_zero hround)
  obtain ⟨a, b, es, hes, hdigits⟩ := exists_trimmed (allDigits_natDigits v)
  have hstrip := stripped_zeros neg a b hes ((natDigits v).length + p)
  have hval : v = digitsVal es * 10 ^ b := by
    rw [← digitsVal_append_zeros, ← digitsVal_zeros_append a, ← hdigits, digitsVal_natDigits]
  have hes0 : digitsVal es ≠ 0 := by
    intro hzero
    rw [hzero, Nat.zero_mul] at hval
    exact hvpos hval
  have hne : es ≠ [] := by
    rintro rfl
    exact hes0 rfl
  rw [← hdigits, if_neg hne] at hstrip
  have htext : doubleText neg q e = ⟨neg, es, (natDigits v).length + p - a⟩ := by
    unfold doubleText
    rw [hv, hp, hstrip]
  have hpoint : ((natDigits v).length : Int) + p - a - es.length = p + b := by
    have hlen := congrArg List.length hdigits
    simp only [List.length_append, List.length_replicate] at hlen
    omega
  rw [hval, ← roundBinary_ratio_shift (Nat.pos_of_ne_zero hes0), ← hpoint] at hround
  calc (doubleText neg q e).toFloat64 = (⟨neg, es, (natDigits v).length + p - a⟩ : Decimal).toFloat64 := by rw [htext]
    _ = some (doubleText neg q e) := toFloat64_of_round hes0 hq.ne' hround

theorem toFloat64_toFloat64 {d d' : Decimal} (h : d.toFloat64 = some d') : d'.toFloat64 = some d' := by
  have hzero (neg : Bool) : (⟨neg, [], 0⟩ : Decimal).toFloat64 = some ⟨neg, [], 0⟩ := rfl
  by_cases hm : digitsVal d.digits = 0
  · unfold Decimal.toFloat64 at h
    dsimp only at h
    rw [if_pos hm] at h
    cases h
    exact hzero d.neg
  · obtain ⟨hn, hd⟩ := ratio_pos (Nat.pos_of_ne_zero hm) (d.point - d.digits.length)
    cases hround : roundBinary (ratio (digitsVal d.digits) 10 (d.point - d.digits.length)).1
        (ratio (digitsVal d.digits) 10 (d.point - d.digits.length)).2 with
    | none =>
      unfold Decimal.toFloat64 at h
      dsimp only at h
      rw [if_neg hm, hround] at h
      cases h
    | some r =>
      obtain ⟨q, e⟩ := r
      by_cases hq : q = 0
      · subst hq
        unfold Decimal.toFloat64 at h
        dsimp only at h
        rw [if_neg hm, hround] at h
        cases h
        exact hzero d.neg
      · rw [toFloat64_of_round hm hq hround] at h
        cases h
        exact toFloat64_doubleText d.neg (Nat.pos_of_ne_zero hq) (roundBinary_isDouble hn hd hround)

/-- The literal of a decoded number is decoded into itself. -/
theorem float64_float64 {n m : NumLit} (h : n.float64 = some m) : m.float64 = some m := by
  obtain ⟨d, hd, hm⟩ := Option.bind_eq_some_iff.mp h
  obtain ⟨k, hk, hdec⟩ := numLit_jsonText (toFloat64_again hd).1
  obtain rfl : k = m := Option.some.inj (hk.symm.trans hm)
  rw [NumLit.float64, hdec, toFloat64_toFloat64 hd, Option.bind_some]
  exact hk

end Janus
