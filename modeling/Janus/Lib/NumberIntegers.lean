import Janus.Lib.NumberRounding

/-!
# Integers as doubles

A fraction that is no larger than an integer of 53 bits is not rounded above it, and one
that is no smaller is not rounded below it (`roundBinary_bounds`), so such an integer is
its own double.
-/

namespace Janus

set_option autoImplicit false

theorem roundDiv_le_of_le {n d b : Nat} (hd : 0 < d) (h : n ≤ b * d) : roundDiv n d ≤ b := by
  have hdiv : n / d ≤ b := Nat.div_le_of_le_mul (by rwa [Nat.mul_comm])
  unfold roundDiv
  split
  · rename_i hup
    obtain hlt | heq := Nat.lt_or_eq_of_le hdiv
    · exact hlt
    · -- nothing is left over at the bound itself
      have hmod : n % d = 0 := by
        have hsplit := Nat.div_add_mod n d
        rw [heq, Nat.mul_comm] at hsplit
        omega
      simp only [hmod, Bool.or_eq_true, Bool.and_eq_true, decide_eq_true_eq] at hup
      omega
  · exact hdiv

theorem le_roundDiv_of_le {n d b : Nat} (hd : 0 < d) (h : b * d ≤ n) : b ≤ roundDiv n d := by
  have hdiv : b ≤ n / d := (Nat.le_div_iff_mul_le hd).mpr h
  unfold roundDiv
  split
  · exact Nat.le_succ_of_le hdiv
  · exact hdiv

theorem unitExponent_nonpos {num den : Nat} (hd : 0 < den) (h : num < den * 2 ^ 53) :
    unitExponent num den ≤ 0 := by
  have hlog : binaryExponent num den < 53 := by
    rcases Nat.eq_zero_or_pos num with rfl | hn
    · have hzero : Nat.log2 0 = 0 := by decide
      unfold binaryExponent
      dsimp only
      split <;> omega
    · rw [binaryExponent_eq hn hd]
      have hden : (0 : ℚ) < den := by exact_mod_cast hd
      have hpos : (0 : ℚ) < (num : ℚ) / den := div_pos (by exact_mod_cast hn) hden
      refine (Int.lt_zpow_iff_log_lt (b := 2) (by norm_num) hpos).mp ?_
      rw [div_lt_iff₀ hden]
      have hq : (num : ℚ) < den * 2 ^ 53 := by exact_mod_cast h
      calc (num : ℚ) < den * 2 ^ 53 := hq
        _ = ((2 : Nat) : ℚ) ^ (53 : Int) * den := by norm_num; ring
  unfold unitExponent
  omega

theorem scaled_of_nonpos {num den : Nat} {e : Int} (he : e ≤ 0) :
    scaled num den e = (num * 2 ^ (-e).toNat, den) := by
  unfold scaled
  obtain rfl | hlt := eq_or_lt_of_le he
  · simp
  · rw [if_neg (by omega), if_neg (by omega)]

/-- Rounding does not pass an integer of 53 bits. -/
theorem roundBinary_bounds {num den c : Nat} (hd : 0 < den) (hc53 : c < 2 ^ 53) (h : num ≤ c * den) :
    ∃ (q : Nat) (e : Int), roundBinary num den = some (q, e) ∧ e ≤ 0 ∧
      ∀ b : Nat, (num ≤ b * den → q ≤ b * 2 ^ (-e).toNat) ∧
        (b * den ≤ num → b * 2 ^ (-e).toNat ≤ q) := by
  have hlt : num < den * 2 ^ 53 := by
    calc num ≤ c * den := h
      _ < 2 ^ 53 * den := Nat.mul_lt_mul_of_pos_right hc53 hd
      _ = den * 2 ^ 53 := Nat.mul_comm _ _
  set u := unitExponent num den with hu
  have hu0 : u ≤ 0 := unitExponent_nonpos hd hlt
  set r := roundDiv (num * 2 ^ (-u).toNat) den with hr
  have hscaled {b c : Nat} (hle : b ≤ c * den) : b * 2 ^ (-u).toNat ≤ c * 2 ^ (-u).toNat * den := by
    calc b * 2 ^ (-u).toNat ≤ c * den * 2 ^ (-u).toNat := Nat.mul_le_mul_right _ hle
      _ = c * 2 ^ (-u).toNat * den := Nat.mul_right_comm _ _ _
  have hupper (b : Nat) (hle : num ≤ b * den) : r ≤ b * 2 ^ (-u).toNat :=
    roundDiv_le_of_le hd (hscaled hle)
  have hlower (b : Nat) (hle : b * den ≤ num) : b * 2 ^ (-u).toNat ≤ r := by
    apply le_roundDiv_of_le hd
    calc b * 2 ^ (-u).toNat * den = b * den * 2 ^ (-u).toNat := Nat.mul_right_comm _ _ _
      _ ≤ num * 2 ^ (-u).toNat := Nat.mul_le_mul_right _ hle
  have heq : roundBinary num den = if (carry r u).2 > 971 then none else some (carry r u) := by
    rw [roundBinary_eq, ← hu, scaled_of_nonpos hu0]
  by_cases hc : r = 2 ^ 53
  · -- the carry needs a unit below one
    have hneg : u < 0 := by
      refine lt_of_le_of_ne hu0 fun h0 => ?_
      have hmax := hupper c h
      rw [h0, hc] at hmax
      simp only [Int.neg_zero, Int.toNat_zero, Nat.pow_zero, Nat.mul_one] at hmax
      omega
    have hpow : 2 ^ (-u).toNat = 2 ^ (-(u + 1)).toNat * 2 := by
      rw [← Nat.pow_succ]
      congr 1
      omega
    refine ⟨2 ^ 52, u + 1, ?_, by omega, fun b => ⟨fun hle => ?_, fun hle => ?_⟩⟩
    · rw [heq, carry, if_pos hc, if_neg (by dsimp only; omega)]
    · have hb := hupper b hle
      rw [hc, hpow, ← Nat.mul_assoc] at hb
      omega
    · have hb := hlower b hle
      rw [hc, hpow, ← Nat.mul_assoc] at hb
      omega
  · refine ⟨r, u, ?_, hu0, fun b => ⟨hupper b, hlower b⟩⟩
    rw [heq, carry, if_neg hc, if_neg (by dsimp only; omega)]

/-- The double nearest to a fraction, as a fraction. -/
def nearestDouble (num den : Nat) : Nat × Nat :=
  (roundBinary num den).elim (num, den) fun r => ratio r.1 2 r.2

theorem ratio_of_nonpos {q b : Nat} {e : Int} (h : e ≤ 0) : ratio q b e = (q, b ^ (-e).toNat) := by
  unfold ratio
  obtain rfl | hneg := eq_or_lt_of_le h
  · simp
  · rw [if_neg (by omega)]

theorem nearestDouble_le {num den b : Nat} (hd : 0 < den) (hb : b < 2 ^ 53) (h : num ≤ b * den) :
    0 < (nearestDouble num den).2 ∧ (nearestDouble num den).1 ≤ b * (nearestDouble num den).2 := by
  obtain ⟨q, e, hqe, he, hq⟩ := roundBinary_bounds hd hb h
  have heq : nearestDouble num den = (q, 2 ^ (-e).toNat) := by
    rw [nearestDouble, hqe, Option.elim_some, ratio_of_nonpos he]
  rw [heq]
  exact ⟨Nat.two_pow_pos _, (hq b).1 h⟩

theorem roundBinary_exact {n : Nat} (h : n < 2 ^ 53) :
    ∃ e : Int, e ≤ 0 ∧ roundBinary n 1 = some (n * 2 ^ (-e).toNat, e) := by
  obtain ⟨q, e, hqe, he, hq⟩ := roundBinary_bounds Nat.one_pos h (Nat.mul_one n).ge
  obtain ⟨hupper, hlower⟩ := hq n
  rw [Nat.mul_one] at hupper hlower
  refine ⟨e, he, ?_⟩
  rw [hqe, Nat.le_antisymm (hupper (le_refl n)) (hlower (le_refl n))]

theorem roundBinary_large {n q : Nat} {e : Int} (h : 2 ^ 53 ≤ n) (hr : roundBinary n 1 = some (q, e)) :
    0 < e := by
  have hn : 0 < n := lt_of_lt_of_le (Nat.two_pow_pos 53) h
  have hlog : 53 ≤ binaryExponent n 1 := by
    rw [binaryExponent_eq hn Nat.one_pos]
    refine (Int.zpow_le_iff_le_log (b := 2) (by norm_num) (by simpa using hn)).mp ?_
    simp only [Nat.cast_one, div_one]
    exact_mod_cast h
  have hunit : 0 < unitExponent n 1 := by
    unfold unitExponent
    omega
  rw [roundBinary_eq] at hr
  dsimp only at hr
  split at hr
  · cases hr
  · have he := congrArg Prod.snd (Option.some.inj hr)
    unfold carry at he
    split at he
    · exact (show e = _ from he.symm) ▸ by omega
    · exact (show e = _ from he.symm) ▸ hunit

/-- An integer of 53 bits shares its double with no other integer. -/
theorem roundBinary_inj {m n : Nat} (h : n < 2 ^ 53) (hr : roundBinary m 1 = roundBinary n 1) :
    m = n := by
  obtain ⟨e, he, hn⟩ := roundBinary_exact h
  by_cases hm : m < 2 ^ 53
  · obtain ⟨e', _, hm'⟩ := roundBinary_exact hm
    rw [hn, hm'] at hr
    obtain ⟨hq, rfl⟩ := Prod.ext_iff.mp (Option.some.inj hr)
    exact Nat.eq_of_mul_eq_mul_right (Nat.two_pow_pos _) hq
  · have hlarge := roundBinary_large (not_lt.mp hm) (hr.trans hn)
    omega

theorem length_natDigits_le_iff {n k : Nat} (hk : 0 < k) : (natDigits n).length ≤ k ↔ n < 10 ^ k :=
  Nat.length_toDigits_le_iff (by decide) hk

theorem length_natDigits_pos (n : Nat) : 0 < (natDigits n).length :=
  List.length_pos_iff.mpr (natDigits_ne_nil n)

/-- The leading digit counts. -/
theorem pow_le_of_length {n k : Nat} (hn : 0 < n) (hk : k < (natDigits n).length) : 10 ^ k ≤ n := by
  rcases Nat.eq_zero_or_pos k with rfl | hpos
  · exact hn
  · by_contra hlt
    have hle := (length_natDigits_le_iff hpos).mpr (not_le.mp hlt)
    omega

theorem lt_pow_length (n : Nat) : n < 10 ^ (natDigits n).length :=
  (length_natDigits_le_iff (length_natDigits_pos n)).mp (le_refl _)

theorem natDigits_mul_pow {n : Nat} (hn : 0 < n) (k : Nat) :
    natDigits (n * 10 ^ k) = natDigits n ++ List.replicate k '0' := by
  induction k with
  | zero => simp
  | succ k ih =>
    have hstep := Nat.toDigits_append_toDigits (b := 10) (n := n * 10 ^ k) (d := 0) (by decide)
      (Nat.mul_pos hn (Nat.pow_pos (by decide))) (by decide)
    have hval : n * 10 ^ (k + 1) = 10 * (n * 10 ^ k) + 0 := by ring
    unfold natDigits at ih ⊢
    rw [hval, ← hstep, ih, Nat.toDigits_zero, List.append_assoc, List.replicate_succ']

/-- The exponent of the leading digit that `nearDecimals` finds. -/
def decimalExponent (num den : Nat) : Int :=
  let l : Int := (natDigits num).length - (natDigits den).length
  if (if 0 ≤ l then num < den * 10 ^ l.toNat else num * 10 ^ (-l).toNat < den) then l - 1 else l

theorem decimalExponent_integer {n den : Nat} (hn : 0 < n) (hd : 0 < den) :
    decimalExponent (n * den) den = (natDigits n).length - 1 := by
  set k := (natDigits n).length with hk
  set b := (natDigits den).length with hb
  have hkpos : 0 < k := length_natDigits_pos n
  have hbpos : 0 < b := length_natDigits_pos den
  have hupper : (natDigits (n * den)).length ≤ k + b := by
    rw [length_natDigits_le_iff (by omega), Nat.pow_add]
    exact Nat.mul_lt_mul'' (lt_pow_length n) (lt_pow_length den)
  have hlower : k + b - 1 ≤ (natDigits (n * den)).length := by
    by_contra hlt
    have hle : (natDigits (n * den)).length ≤ k - 1 + (b - 1) := by omega
    have hprod : 10 ^ (k - 1) * 10 ^ (b - 1) ≤ n * den :=
      Nat.mul_le_mul (pow_le_of_length hn (by omega)) (pow_le_of_length hd (by omega))
    rw [← Nat.pow_add] at hprod
    rcases Nat.eq_zero_or_pos (k - 1 + (b - 1)) with h0 | hpos
    · have := length_natDigits_pos (n * den)
      omega
    · have := (length_natDigits_le_iff hpos).mp hle
      omega
  unfold decimalExponent
  dsimp only
  have hnonneg : (0 : Int) ≤ (natDigits (n * den)).length - (natDigits den).length := by omega
  simp only [if_pos hnonneg]
  set l := ((natDigits (n * den)).length - (natDigits den).length : Int).toNat with hl
  have hiff : n * den < den * 10 ^ l ↔ n < 10 ^ l := by
    rw [Nat.mul_comm n, Nat.mul_lt_mul_left hd]
  simp only [hiff]
  obtain h | h : l = k - 1 ∨ l = k := by omega
  · have hge := pow_le_of_length (k := l) hn (by omega)
    rw [if_neg (by omega)]
    omega
  · have hlt := lt_pow_length n
    rw [← hk, ← h] at hlt
    rw [if_pos hlt]
    omega

theorem nearDecimals_point {num den n : Nat} {c : Nat × Int} (h : c ∈ nearDecimals num den n) :
    c.2 = decimalExponent num den - (n - 1) := by
  have hboth (q a b : Nat) (p : Int)
      (hc : c ∈ if a > b then [(q + 1, p), (q, p)] else [(q, p), (q + 1, p)]) : c.2 = p := by
    split at hc
    · obtain rfl | rfl : c = (q + 1, p) ∨ c = (q, p) := by simpa using hc
      · rfl
      · rfl
    · obtain rfl | rfl : c = (q, p) ∨ c = (q + 1, p) := by simpa using hc
      · rfl
      · rfl
  exact hboth _ _ _ _ h

/-- With all its digits an integer is its own nearest decimal. -/
theorem mem_nearDecimals_integer {n den : Nat} (hn : 0 < n) (hd : 0 < den) :
    (n, 0) ∈ nearDecimals (n * den) den (natDigits n).length := by
  have hpoint : decimalExponent (n * den) den - ((natDigits n).length - 1) = 0 := by
    rw [decimalExponent_integer hn hd]
    omega
  unfold nearDecimals
  dsimp only
  change (n, 0) ∈ (let p : Int := decimalExponent (n * den) den - ((natDigits n).length - 1)
    let c := if 0 ≤ p then (n * den, den * 10 ^ p.toNat) else (n * den * 10 ^ (-p).toNat, den)
    let q := c.1 / c.2
    if 2 * (c.1 % c.2) > c.2 then [(q + 1, p), (q, p)] else [(q, p), (q + 1, p)])
  rw [hpoint]
  simp [Nat.mul_div_cancel n hd]

theorem ratio_of_nonneg {q b : Nat} {e : Int} (h : 0 ≤ e) : ratio q b e = (q * b ^ e.toNat, 1) := by
  unfold ratio
  rw [if_pos h]

/-- The shortest decimal of the double of an integer has the value of the integer. -/
theorem shortestDecimal_integer {n q : Nat} {e : Int} (hn : 0 < n) (h : n ≤ 2 ^ 53)
    (hr : roundBinary n 1 = some (q, e)) :
    0 ≤ (shortestDecimal q e).2 ∧
      (shortestDecimal q e).1 * 10 ^ (shortestDecimal q e).2.toNat = n := by
  obtain hlt | rfl := Nat.lt_or_eq_of_le h
  · obtain ⟨e', he, hexact⟩ := roundBinary_exact hlt
    rw [hexact] at hr
    obtain ⟨rfl, rfl⟩ := Prod.ext_iff.mp (Option.some.inj hr)
    set den := 2 ^ (-e').toNat with hden
    have hdpos : 0 < den := Nat.two_pow_pos _
    -- the first candidates have all digits of the integer at most
    obtain ⟨rest, hrange⟩ : ∃ rest, List.range 17 = List.range (natDigits n).length ++ rest := by
      have hlen : (natDigits n).length ≤ 16 :=
        (length_natDigits_le_iff (by decide)).mpr (lt_of_lt_of_le hlt (by decide))
      obtain ⟨k, hk⟩ := Nat.exists_eq_add_of_le (show (natDigits n).length ≤ 17 by omega)
      exact ⟨_, by rw [hk, List.range_add]⟩
    set good : Nat × Int → Bool := fun c =>
      decide (roundBinary (ratio c.1 10 c.2).1 (ratio c.1 10 c.2).2 = some (n * den, e')) with hgood
    set early := (List.range (natDigits n).length).flatMap fun i => nearDecimals (n * den) den (i + 1)
      with hearly
    have hself : (n, (0 : Int)) ∈ early := by
      have hlen := length_natDigits_pos n
      refine List.mem_flatMap.mpr ⟨(natDigits n).length - 1, List.mem_range.mpr (by omega), ?_⟩
      rw [Nat.sub_add_cancel hlen]
      exact mem_nearDecimals_integer hn hdpos
    have hselfGood : good (n, 0) = true := by
      simp only [hgood, ratio_of_nonneg (le_refl (0 : Int)), Int.toNat_zero, Nat.pow_zero, Nat.mul_one,
        hexact, decide_true]
    obtain ⟨c, hc⟩ := Option.isSome_iff_exists.mp (List.find?_isSome.mpr ⟨_, hself, hselfGood⟩)
    have hshort : shortestDecimal (n * den) e' = c := by
      unfold shortestDecimal
      rw [ratio_of_nonpos he]
      dsimp only
      rw [hrange, List.flatMap_append, List.find?_append]
      change ((List.find? good early).or _).getD _ = c
      rw [hc]
      rfl
    have hpoint : 0 ≤ c.2 := by
      obtain ⟨i, hi, hmem⟩ := List.mem_flatMap.mp (List.mem_of_find?_eq_some hc)
      have hle := List.mem_range.mp hi
      rw [nearDecimals_point hmem, decimalExponent_integer hn hdpos]
      omega
    have hround := List.find?_some hc
    simp only [hgood, decide_eq_true_eq, ratio_of_nonneg hpoint] at hround
    rw [hshort]
    exact ⟨hpoint, roundBinary_inj hlt (hround.trans hexact.symm)⟩
  · have hround : roundBinary (2 ^ 53) 1 = some (2 ^ 52, 1) := by decide +kernel
    rw [hround] at hr
    obtain ⟨rfl, rfl⟩ := Prod.ext_iff.mp (Option.some.inj hr)
    decide +kernel

/-- The decimal notation of an integer. -/
def intText (z : Int) : List Char := sign (decide (z < 0)) ++ natDigits z.natAbs

/-- The decimal that the literals of an integer are read into, the one of minus zero apart. -/
def Decimal.ofInt (z : Int) : Decimal :=
  Decimal.stripped ⟨decide (z < 0), natDigits z.natAbs, (natDigits z.natAbs).length⟩

theorem digitsVal_lt {ds : List Char} (h : AllDigits ds) : digitsVal ds < 10 ^ ds.length := by
  induction ds using List.reverseRecOn with
  | nil => decide
  | append_singleton ds c ih =>
    obtain ⟨hds, hc⟩ := allDigits_append.mp h
    have hlast : digitVal c < 10 := by
      have hc' := hc c (List.mem_singleton.mpr rfl)
      simp only [isDigit, Bool.and_eq_true, decide_eq_true_eq] at hc'
      have hle : c.toNat ≤ '9'.toNat := hc'.2
      have hnine : '9'.toNat = '0'.toNat + 9 := rfl
      unfold digitVal
      omega
    have hprev := ih hds
    have hval : digitsVal (ds ++ [c]) = 10 * digitsVal ds + digitVal c := by
      simp [digitsVal]
    rw [hval, List.length_append, List.length_singleton, Nat.pow_succ]
    omega

theorem natDigits_head {n : Nat} (hn : 0 < n) : (natDigits n).head? ≠ some '0' := by
  intro h
  cases hd : natDigits n with
  | nil => exact natDigits_ne_nil n hd
  | cons c ds =>
    rw [hd] at h
    obtain rfl : c = '0' := Option.some.inj h
    have hval : digitsVal ds = n := by
      rw [← digitsVal_natDigits n, hd]
      exact (digitsVal_zeros_append 1 ds).symm
    rcases Nat.eq_zero_or_pos ds.length with h0 | hpos
    · rw [List.length_eq_zero_iff.mp h0] at hval
      exact hn.ne hval
    · have hge := pow_le_of_length (k := ds.length) hn (by rw [hd]; simp)
      have hall := allDigits_natDigits n
      rw [hd] at hall
      have hlt := @digitsVal_lt ds fun d hm => hall d (List.mem_cons_of_mem _ hm)
      omega

/-- The digits of a positive integer in front of the zeros at their end. -/
theorem natDigits_trimmed {n : Nat} (hn : 0 < n) :
    ∃ es b, Trimmed es ∧ es ≠ [] ∧ natDigits n = es ++ List.replicate b '0' ∧
      n = digitsVal es * 10 ^ b := by
  obtain ⟨a, b, es, hes, hsplit⟩ := exists_trimmed (allDigits_natDigits n)
  have hval : n = digitsVal es * 10 ^ b := by
    rw [← digitsVal_append_zeros, ← digitsVal_zeros_append a, ← hsplit, digitsVal_natDigits]
  have hne : es ≠ [] := by
    rintro rfl
    rw [hval] at hn
    simp [digitsVal] at hn
  cases a with
  | zero => exact ⟨es, b, hes, hne, by simpa using hsplit, hval⟩
  | succ a =>
    refine absurd ?_ (natDigits_head hn)
    rw [hsplit]
    rfl

theorem stripped_append_zeros (neg : Bool) {n : Nat} (hn : 0 < n) (k : Nat) (p : Int) :
    Decimal.stripped ⟨neg, natDigits n ++ List.replicate k '0', p⟩ =
      Decimal.stripped ⟨neg, natDigits n, p⟩ := by
  obtain ⟨es, b, hes, _, hsplit, _⟩ := natDigits_trimmed hn
  have h1 := stripped_zeros neg 0 (b + k) hes p
  have h2 := stripped_zeros neg 0 b hes p
  rw [List.replicate_zero, List.nil_append] at h1 h2
  rw [hsplit, List.append_assoc, ← List.replicate_add, h1, h2]

/-- The decimal of an integer other than zero: its digits without the zeros at their end. -/
theorem ofInt_eq {z : Int} (hz : 0 < z.natAbs) :
    ∃ es b, Trimmed es ∧ es ≠ [] ∧ natDigits z.natAbs = es ++ List.replicate b '0' ∧
      z.natAbs = digitsVal es * 10 ^ b ∧
      Decimal.ofInt z = ⟨decide (z < 0), es, (natDigits z.natAbs).length⟩ := by
  obtain ⟨es, b, hes, hne, hsplit, hval⟩ := natDigits_trimmed hz
  have hstrip := stripped_zeros (decide (z < 0)) 0 b hes (natDigits z.natAbs).length
  rw [List.replicate_zero, List.nil_append, if_neg hne, ← hsplit] at hstrip
  refine ⟨es, b, hes, hne, hsplit, hval, ?_⟩
  rw [Decimal.ofInt, hstrip]
  simp

/-- A double is read from an integer of up to 53 bits without loss. -/
theorem toFloat64_ofInt {z : Int} (h : z.natAbs ≤ 2 ^ 53) :
    (Decimal.ofInt z).toFloat64 = some (Decimal.ofInt z) := by
  rcases Nat.eq_zero_or_pos z.natAbs with h0 | hpos
  · obtain rfl := Int.natAbs_eq_zero.mp h0
    decide
  · obtain ⟨es, b, _, _, hsplit, hval, hof⟩ := ofInt_eq hpos
    have hlen : (natDigits z.natAbs).length = es.length + b := by
      rw [hsplit, List.length_append, List.length_replicate]
    rw [hlen] at hof
    have hm : digitsVal es ≠ 0 := by
      intro hzero
      rw [hzero, Nat.zero_mul] at hval
      omega
    have hratio : ratio (digitsVal es) 10 ((es.length + b : Nat) - es.length) = (z.natAbs, 1) := by
      rw [ratio_of_nonneg (by omega), hval]
      congr 3
      omega
    obtain ⟨q, e, hqe⟩ : ∃ q e, roundBinary z.natAbs 1 = some (q, e) ∧ q ≠ 0 := by
      obtain hlt | heq := Nat.lt_or_eq_of_le h
      · obtain ⟨e, _, he⟩ := roundBinary_exact hlt
        exact ⟨_, e, he, (Nat.mul_pos hpos (Nat.two_pow_pos _)).ne'⟩
      · rw [heq]
        exact ⟨2 ^ 52, 1, by decide +kernel, by decide⟩
    obtain ⟨hpoint, hvalue⟩ := shortestDecimal_integer hpos h hqe.1
    set v := (shortestDecimal q e).1 with hv
    set p := (shortestDecimal q e).2 with hp
    have hvpos : 0 < v := by
      rcases Nat.eq_zero_or_pos v with h0 | hv0
      · rw [h0, Nat.zero_mul] at hvalue
        omega
      · exact hv0
    have hdigits : natDigits z.natAbs = natDigits v ++ List.replicate p.toNat '0' := by
      rw [← hvalue, natDigits_mul_pow hvpos]
    have hresult : Decimal.stripped ⟨decide (z < 0), natDigits v, (natDigits v).length + p⟩ =
        Decimal.ofInt z := by
      rw [Decimal.ofInt, hdigits, stripped_append_zeros _ hvpos]
      congr 2
      simp only [List.length_append, List.length_replicate]
      omega
    have hread : (⟨decide (z < 0), es, (es.length + b : Nat)⟩ : Decimal).toFloat64 =
        some (Decimal.stripped ⟨decide (z < 0), natDigits v, (natDigits v).length + p⟩) := by
      unfold Decimal.toFloat64
      dsimp only
      rw [if_neg hm, hratio]
      dsimp only
      rw [hqe.1]
      cases q with
      | zero => exact absurd rfl hqe.2
      | succ q => rfl
    rw [← hresult, ← hread, ← hof, hresult]

theorem ofInt_zero : Decimal.ofInt 0 = ⟨false, [], 0⟩ := by decide

theorem normal_ofInt (z : Int) : (Decimal.ofInt z).Normal := by
  rcases Nat.eq_zero_or_pos z.natAbs with h0 | hpos
  · obtain rfl := Int.natAbs_eq_zero.mp h0
    rw [ofInt_zero]
    exact (zero_again false).1
  · obtain ⟨es, b, hes, hne, _, _, hof⟩ := ofInt_eq hpos
    rw [hof]
    exact ⟨hes, fun h => absurd h hne⟩

theorem formatF_ofInt (z : Int) : (Decimal.ofInt z).formatF = intText z := by
  rcases Nat.eq_zero_or_pos z.natAbs with h0 | hpos
  · obtain rfl := Int.natAbs_eq_zero.mp h0
    decide
  · obtain ⟨es, b, _, hne, hsplit, _, hof⟩ := ofInt_eq hpos
    have hlen : (natDigits z.natAbs).length = es.length + b := by
      rw [hsplit, List.length_append, List.length_replicate]
    have hpoint : ¬ ((natDigits z.natAbs).length : Int) ≤ 0 := by
      have := length_natDigits_pos z.natAbs
      omega
    have hle : (es.length : Int) ≤ (natDigits z.natAbs).length := by omega
    have hzeros : ((natDigits z.natAbs).length : Int).toNat - es.length = b := by omega
    rw [hof]
    unfold Decimal.formatF intText
    dsimp only
    rw [if_neg (by simpa using hne), if_neg hpoint, if_pos hle, hzeros, ← hsplit]

/-- The encoder writes the digits of an integer of up to 21 digits. -/
theorem jsonText_ofInt {z : Int} (h : z.natAbs < 10 ^ 21) : (Decimal.ofInt z).jsonText = intText z := by
  unfold Decimal.jsonText
  rw [if_pos, formatF_ofInt]
  rcases Nat.eq_zero_or_pos z.natAbs with h0 | hpos
  · obtain rfl := Int.natAbs_eq_zero.mp h0
    decide
  · obtain ⟨es, b, _, _, _, _, hof⟩ := ofInt_eq hpos
    have hlen := (length_natDigits_le_iff (n := z.natAbs) (k := 21) (by decide)).mpr h
    have hpos := length_natDigits_pos z.natAbs
    rw [hof]
    simp only [Bool.or_eq_true, Bool.and_eq_true, decide_eq_true_eq]
    exact .inr ⟨by omega, by omega⟩

theorem parts_natDigits (n : Nat) : Parts (natDigits n) [] [] where
  int_digits := allDigits_natDigits n
  int_ne := natDigits_ne_nil n
  int_head h := by
    rcases Nat.eq_zero_or_pos n with rfl | hn
    · decide
    · exact absurd h (natDigits_head hn)
  frac_digits := fun _ h => absurd h List.not_mem_nil
  expo := Or.inl rfl

theorem intText_eq_literal (z : Int) :
    intText z = literal (decide (z < 0)) (natDigits z.natAbs) [] [] := by
  simp [literal, intText]

theorem isNumLit_intText (z : Int) : isNumLit (intText z) = true := by
  rw [intText_eq_literal]
  exact isNumLit_literal _ (parts_natDigits z.natAbs)

/-- The literal of an integer. -/
def intLit (z : Int) : NumLit := ⟨intText z, isNumLit_intText z⟩

theorem e_notMem_intText (z : Int) : 'e' ∉ intText z := by
  intro h
  unfold intText sign at h
  obtain h | h := List.mem_append.mp h
  · split at h
    · exact absurd (List.mem_singleton.mp h) (by decide)
    · cases h
  · exact absurd (allDigits_natDigits _ _ h) (by decide)

/-- The general format writes the digits of an integer of up to six digits only. -/
theorem formatG_ofInt_iff (z : Int) : (Decimal.ofInt z).formatG = intText z ↔ z.natAbs < 10 ^ 6 := by
  rcases Nat.eq_zero_or_pos z.natAbs with h0 | hpos
  · obtain rfl := Int.natAbs_eq_zero.mp h0
    decide
  · obtain ⟨es, b, _, hne, _, _, hof⟩ := ofInt_eq hpos
    have hlen := length_natDigits_le_iff (n := z.natAbs) (k := 6) (by decide)
    have hlpos := length_natDigits_pos z.natAbs
    have hexp : ((Decimal.ofInt z).digits.isEmpty ||
        (-4 ≤ (Decimal.ofInt z).point - 1 && (Decimal.ofInt z).point - 1 < 6)) = true ↔
        z.natAbs < 10 ^ 6 := by
      rw [← hlen, hof]
      simp only [Bool.or_eq_true, Bool.and_eq_true, decide_eq_true_eq, List.isEmpty_iff, hne, false_or]
      omega
    unfold Decimal.formatG
    split
    · rename_i h
      exact ⟨fun _ => hexp.mp h, fun _ => formatF_ofInt z⟩
    · rename_i h
      refine ⟨fun he => ?_, fun hlt => absurd (hexp.mpr hlt) h⟩
      -- exponent notation has a letter
      have hmem : 'e' ∈ (Decimal.ofInt z).formatE true := by simp [Decimal.formatE]
      rw [he] at hmem
      exact absurd hmem (e_notMem_intText z)

end Janus
