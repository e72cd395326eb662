import Mathlib.Algebra.Order.Field.Basic
import Mathlib.Tactic.Linarith
import Mathlib.Tactic.Ring

/-!
# Token buckets

A bucket that is not there counts as full. What a bucket answers depends on its level only,
so two buckets with one level from now on answer alike; a bucket that has been idle for long
enough is as good as none. The level is the potential: the tokens handed out up to a time
are at most the level now and what flows in until then.
-/

namespace Janus.TokenBucket

set_option autoImplicit false

universe u

variable {K : Type u} [Field K] [LinearOrder K] [IsStrictOrderedRing K]

structure Params (K : Type u) [Field K] [LinearOrder K] [IsStrictOrderedRing K] where
  rate : K
  burst : K
  rate_nonneg : 0 ≤ rate
  one_le_burst : 1 ≤ burst

structure Bucket (K : Type u) where
  tokens : K
  last : K

/-- The tokens at a time, before a call takes one. -/
def level (p : Params K) (now : K) : Option (Bucket K) → K
  | none => p.burst
  | some b => min p.burst (b.tokens + (now - b.last) * p.rate)

/-- A call: whether it is allowed, and the bucket after it. -/
def call (p : Params K) (now : K) (b : Option (Bucket K)) : Bool × Bucket K :=
  if level p now b < 1 then (false, ⟨level p now b, now⟩) else (true, ⟨level p now b - 1, now⟩)

/-- The state of a bucket at a time. -/
structure Valid (p : Params K) (clock : K) (b : Bucket K) : Prop where
  nonneg : 0 ≤ b.tokens
  le_burst : b.tokens ≤ p.burst
  past : b.last ≤ clock

variable {p : Params K} {clock now : K} {b : Option (Bucket K)}

theorem Valid.mono {b : Bucket K} (h : Valid p clock b) (hclock : clock ≤ now) : Valid p now b :=
  ⟨h.nonneg, h.le_burst, h.past.trans hclock⟩

theorem level_le_burst (p : Params K) (now : K) (b : Option (Bucket K)) : level p now b ≤ p.burst := by
  cases b with
  | none => exact le_refl _
  | some b => exact min_le_left _ _

theorem level_nonneg (h : ∀ x ∈ b, Valid p clock x) (hclock : clock ≤ now) : 0 ≤ level p now b := by
  have hburst : 0 ≤ p.burst := zero_le_one.trans p.one_le_burst
  cases b with
  | none => exact hburst
  | some b =>
    obtain ⟨hnonneg, _, hpast⟩ := h b rfl
    have hflow : 0 ≤ (now - b.last) * p.rate :=
      mul_nonneg (sub_nonneg.mpr (hpast.trans hclock)) p.rate_nonneg
    exact le_min hburst (add_nonneg hnonneg hflow)

theorem level_later (p : Params K) (hclock : clock ≤ now) (b : Option (Bucket K)) :
    level p now b = min p.burst (level p clock b + (now - clock) * p.rate) := by
  have hflow : 0 ≤ (now - clock) * p.rate := mul_nonneg (sub_nonneg.mpr hclock) p.rate_nonneg
  cases b with
  | none => exact (min_eq_left (le_add_of_nonneg_right hflow)).symm
  | some b =>
    have hsum : b.tokens + (clock - b.last) * p.rate + (now - clock) * p.rate =
        b.tokens + (now - b.last) * p.rate := by ring
    simp only [level]
    rw [min_add, hsum, ← min_assoc, min_eq_left (le_add_of_nonneg_right hflow)]

/-- Between two times no more flows in than the rate allows. -/
theorem level_le (p : Params K) (hclock : clock ≤ now) (b : Option (Bucket K)) :
    level p now b ≤ level p clock b + (now - clock) * p.rate :=
  (level_later p hclock b).trans_le (min_le_right _ _)

theorem valid_call (h : ∀ x ∈ b, Valid p clock x) (hclock : clock ≤ now) :
    Valid p now (call p now b).2 := by
  have hnonneg := level_nonneg h hclock
  have hburst := level_le_burst p now b
  unfold call
  split
  · exact ⟨hnonneg, hburst, le_refl _⟩
  · rename_i hone
    exact ⟨sub_nonneg.mpr (not_lt.mp hone), (sub_le_self _ zero_le_one).trans hburst, le_refl _⟩

theorem call_snd (p : Params K) (now : K) (b : Option (Bucket K)) :
    (call p now b).2 = ⟨level p now b - (if (call p now b).1 then 1 else 0), now⟩ := by
  by_cases hlevel : level p now b < 1
  · simp [call, hlevel]
  · simp [call, hlevel]

/-- A call that is allowed takes one token. -/
theorem level_call (p : Params K) (now : K) (b : Option (Bucket K)) :
    level p now (some (call p now b).2) + (if (call p now b).1 then 1 else 0) = level p now b := by
  have hless : level p now b - (if (call p now b).1 then 1 else 0) ≤ p.burst := by
    refine (sub_le_self _ ?_).trans (level_le_burst p now b)
    split
    · exact zero_le_one
    · exact le_refl _
  rw [call_snd]
  simp only [level, sub_self, zero_mul, add_zero]
  exact (congrArg (· + _) (min_eq_right hless)).trans (sub_add_cancel _ _)

/-- A bucket that has been idle until it is full again is as good as none. -/
theorem level_idle {x : Bucket K} {ttl : K} (h : Valid p clock x) (hfull : p.burst ≤ ttl * p.rate)
    (hidle : x.last + ttl ≤ now) : level p now (some x) = level p now none := by
  have hflow : ttl * p.rate ≤ (now - x.last) * p.rate :=
    mul_le_mul_of_nonneg_right (le_sub_iff_add_le'.mpr hidle) p.rate_nonneg
  exact min_eq_left (hfull.trans (hflow.trans (le_add_of_nonneg_left h.nonneg)))

/-- Two states of a bucket that no later call can tell apart. -/
def Alike (p : Params K) (clock : K) (b b' : Option (Bucket K)) : Prop :=
  ∀ now, clock ≤ now → level p now b = level p now b'

theorem Alike.mono {b b' : Option (Bucket K)} (h : Alike p clock b b') (hclock : clock ≤ now) :
    Alike p now b b' := fun t ht => h t (hclock.trans ht)

theorem Alike.call {b b' : Option (Bucket K)} (h : Alike p clock b b') (hclock : clock ≤ now) :
    call p now b = call p now b' := by
  unfold TokenBucket.call
  rw [h now hclock]

/-- What can still be allowed between the clock and the end of a window. -/
def budget (p : Params K) (start stop clock : K) (b : Option (Bucket K)) : K :=
  if stop < max clock start then 0
  else level p (max clock start) b + (stop - max clock start) * p.rate

theorem budget_nonneg (start stop : K) (h : ∀ x ∈ b, Valid p clock x) :
    0 ≤ budget p start stop clock b := by
  unfold budget
  split
  · exact le_refl _
  · rename_i hstop
    exact add_nonneg (level_nonneg h (le_max_left _ _))
      (mul_nonneg (sub_nonneg.mpr (not_lt.mp hstop)) p.rate_nonneg)

theorem budget_le_burst {start stop : K} (hwindow : start ≤ stop) (clock : K) (b : Option (Bucket K)) :
    budget p start stop clock b ≤ p.burst + (stop - start) * p.rate := by
  have hburst : 0 ≤ p.burst := zero_le_one.trans p.one_le_burst
  unfold budget
  split
  · exact add_nonneg hburst (mul_nonneg (sub_nonneg.mpr hwindow) p.rate_nonneg)
  · have hlength : stop - max clock start ≤ stop - start := sub_le_sub_left (le_max_right _ _) stop
    exact add_le_add (level_le_burst p _ b) (mul_le_mul_of_nonneg_right hlength p.rate_nonneg)

/-- While time passes the budget does not grow. -/
theorem budget_mono (start stop : K) (h : ∀ x ∈ b, Valid p clock x) (hclock : clock ≤ now) :
    budget p start stop now b ≤ budget p start stop clock b := by
  have hmax : max clock start ≤ max now start := max_le_max_right start hclock
  by_cases hstop : stop < max now start
  · rw [budget, if_pos hstop]
    exact budget_nonneg start stop h
  · rw [budget, budget, if_neg hstop, if_neg fun hlt => hstop (hlt.trans_le hmax)]
    have hlevel := level_le p hmax b
    linarith

/-- A call that is allowed within the window is paid for by the budget. -/
theorem budget_call (start stop : K) (now : K) (b : Option (Bucket K)) :
    budget p start stop now (some (call p now b).2) +
      (if (call p now b).1 ∧ start ≤ now ∧ now ≤ stop then 1 else 0) ≤ budget p start stop now b := by
  have hcall := level_call p now b
  by_cases hstart : start ≤ now
  · by_cases hstop : now ≤ stop
    · simp only [budget, max_eq_left hstart, if_neg (not_lt.mpr hstop), hstart, hstop, and_true]
      linarith
    · simp [budget, max_eq_left hstart, not_le.mp hstop, hstop]
  · -- The window is still to come.
    have hlater := le_of_lt (not_le.mp hstart)
    have hone : (0 : K) ≤ if (call p now b).1 then 1 else 0 := by
      split
      · exact zero_le_one
      · exact le_refl _
    have hlevel : level p start (some (call p now b).2) ≤ level p start b := by
      rw [level_later p hlater, level_later p hlater b]
      exact min_le_min_left _ (by linarith)
    simp only [budget, max_eq_right hlater, hstart, false_and, and_false, if_false, add_zero]
    split
    · exact le_refl _
    · linarith

/-- The tokens that were taken from a time on. -/
def taken (start : K) (times : List K) : Nat := times.countP fun t => start ≤ t

/-- The level at any later time is what the tightest window up to then has left. -/
structure Account (p : Params K) (clock : K) (b : Option (Bucket K)) (times : List K) : Prop where
  past : ∀ t ∈ times, t ≤ clock
  within : ∀ now, clock ≤ now → ∀ start, start ≤ now →
    level p now b + taken start times ≤ p.burst + (now - start) * p.rate
  reached : ∀ now, clock ≤ now → ∃ start, start ≤ now ∧
    level p now b + taken start times = p.burst + (now - start) * p.rate

theorem account_none (p : Params K) (clock : K) : Account p clock none [] where
  past _ h := absurd h List.not_mem_nil
  within now _ start hstart := by
    simp only [level, taken, List.countP_nil, Nat.cast_zero, add_zero]
    exact le_add_of_nonneg_right (mul_nonneg (sub_nonneg.mpr hstart) p.rate_nonneg)
  reached now _ := ⟨now, le_refl _, by simp [level, taken]⟩

variable {times : List K}

theorem Account.alike {b' : Option (Bucket K)} (h : Account p clock b times) (hclock : clock ≤ now)
    (halike : Alike p now b' b) : Account p now b' times where
  past t ht := (h.past t ht).trans hclock
  within t ht start hstart := by
    rw [halike t ht]
    exact h.within t (hclock.trans ht) start hstart
  reached t ht := by
    rw [halike t ht]
    exact h.reached t (hclock.trans ht)

section Taken

variable {T : Type u} [LinearOrder T] {past : T} {ts : List T}

theorem taken_concat (start now : T) (allowed : Bool) (ts : List T) :
    taken start (ts ++ if allowed then [now] else []) =
      taken start ts + if allowed ∧ start ≤ now then 1 else 0 := by
  unfold taken
  cases allowed with
  | false => simp
  | true => simp [List.countP_append, List.countP_singleton]

/-- Nothing has been taken from a time on that is still to come. -/
theorem taken_later {start : T} (hpast : ∀ t ∈ ts, t ≤ past) (hlater : past < start) :
    taken start ts = 0 := by
  unfold taken
  rw [List.countP_eq_zero]
  intro t ht hle
  exact absurd (of_decide_eq_true hle) (not_le.mpr ((hpast t ht).trans_lt hlater))

end Taken

/-- A call keeps the account, which has a token more if the call was allowed. -/
theorem Account.call (h : Account p clock b times) (hclock : clock ≤ now) :
    Account p now (some (TokenBucket.call p now b).2)
      (times ++ if (TokenBucket.call p now b).1 then [now] else []) := by
  have hcall := level_call p now b
  have hdenied : (TokenBucket.call p now b).1 = false → level p now b < p.burst := by
    intro hfalse
    by_contra hfull
    have hone : ¬ level p now b < 1 := not_lt.mpr (p.one_le_burst.trans (not_lt.mp hfull))
    simp [TokenBucket.call, hone] at hfalse
  have hburst := level_le_burst p now b
  generalize (TokenBucket.call p now b).1 = allowed at hcall hdenied ⊢
  generalize (TokenBucket.call p now b).2 = x at hcall ⊢
  have hpast : ∀ t ∈ times ++ (if allowed then [now] else []), t ≤ now := by
    intro t ht
    rcases List.mem_append.mp ht with ht | ht
    · exact (h.past t ht).trans hclock
    · split at ht
      · exact (List.mem_singleton.mp ht).le
      · exact absurd ht List.not_mem_nil
  refine ⟨hpast, ?_, ?_⟩
  · intro t ht start hstart
    by_cases hbefore : start ≤ now
    · have hlevel := level_le p ht (some x)
      have hold := h.within now hclock start hbefore
      rw [taken_concat]
      push_cast
      simp only [hbefore, and_true]
      linarith
    · have hlevel := level_le_burst p t (some x)
      have hflow := mul_nonneg (sub_nonneg.mpr hstart) p.rate_nonneg
      rw [taken_later hpast (not_le.mp hbefore), Nat.cast_zero]
      linarith
  · intro t ht
    rw [level_later p ht]
    by_cases hfull : p.burst ≤ level p now (some x) + (t - now) * p.rate
    · have hless : level p now (some x) < p.burst := by
        cases allowed with
        | false => simpa [← hcall] using hdenied rfl
        | true =>
          simp only [if_true] at hcall
          linarith
      have hlater : now < t := by
        refine lt_of_le_of_ne ht ?_
        rintro rfl
        rw [sub_self, zero_mul, add_zero] at hfull
        exact absurd hfull (not_le.mpr hless)
      refine ⟨t, le_refl _, ?_⟩
      rw [min_eq_left hfull, taken_later hpast hlater, sub_self, zero_mul, Nat.cast_zero]
    · obtain ⟨start, hstart, hold⟩ := h.reached now hclock
      refine ⟨start, hstart.trans ht, ?_⟩
      rw [min_eq_right (not_le.mp hfull).le, taken_concat]
      push_cast
      simp only [hstart, and_true]
      linarith

/-- A call is allowed exactly if every window that ends with it stays within the limits. -/
theorem Account.allowed_iff (h : Account p clock b times) (hclock : clock ≤ now) :
    (TokenBucket.call p now b).1 = true ↔
      ∀ start, start ≤ now → (taken start times : K) + 1 ≤ p.burst + (now - start) * p.rate := by
  have hallowed : (TokenBucket.call p now b).1 = true ↔ 1 ≤ level p now b := by
    unfold TokenBucket.call
    split
    · rename_i hless
      simpa using hless
    · rename_i hone
      simpa using not_lt.mp hone
  rw [hallowed]
  constructor
  · intro hone start hstart
    have hwithin := h.within now hclock start hstart
    linarith
  · intro hwindows
    obtain ⟨start, hstart, hreached⟩ := h.reached now hclock
    have hwindow := hwindows start hstart
    linarith

end Janus.TokenBucket
