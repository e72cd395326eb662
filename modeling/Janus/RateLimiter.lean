import Mathlib.Algebra.Order.Ring.Rat
import Janus.Lib.Json
import Janus.Lib.Run
import Janus.Lib.TokenBucket

/-!
# The rate limiter

Embedding of `ipRateLimiter`: a bucket for each address, and the sweeper that deletes idle
buckets. Times are seconds, and numbers are exact. A call reads the clock under the lock; the
sweeper reads it before, so that only the calls that follow are sure to come later.
-/

namespace Janus.RateLimiter

set_option autoImplicit false

open TokenBucket

structure IPRateLimiter where
  visitors : Str → Option (Bucket ℚ)
  rate : ℚ
  burst : ℚ

def newIPRateLimiter (rate burst : ℚ) : IPRateLimiter := ⟨fun _ => none, rate, burst⟩

def IPRateLimiter.setVisitor (l : IPRateLimiter) (ip : Str) (b : Bucket ℚ) : IPRateLimiter :=
  { l with visitors := fun other => if other = ip then some b else l.visitors other }

def IPRateLimiter.allow (l : IPRateLimiter) (ip : Str) (now : ℚ) : Bool × IPRateLimiter :=
  match l.visitors ip with
  | none => (true, l.setVisitor ip ⟨l.burst - 1, now⟩)
  | some b =>
    let tokens := b.tokens + (now - b.last) * l.rate
    let tokens := if tokens > l.burst then l.burst else tokens
    if tokens < 1 then (false, l.setVisitor ip ⟨tokens, now⟩)
    else (true, l.setVisitor ip ⟨tokens - 1, now⟩)

/-- One turn of the sweeper, which read the time `now`. -/
def IPRateLimiter.sweep (l : IPRateLimiter) (ttl now : ℚ) : IPRateLimiter :=
  { l with visitors := fun ip => (l.visitors ip).filter fun b => ¬ b.last < now - ttl }

def globalLimiter : IPRateLimiter := newIPRateLimiter 50 100

/-- Ten minutes. -/
def visitorTTL : ℚ := 600

inductive Action where
  | allow (ip : Str) (now : ℚ)
  | sweep (now : ℚ)

def Action.isAllow : Action → Bool
  | .allow _ _ => true
  | .sweep _ => false

/-- The limiter, and the latest time that was read. -/
structure Service where
  limiter : IPRateLimiter
  clock : ℚ

structure Answer where
  ip : Str
  now : ℚ
  allowed : Bool
  deriving DecidableEq

def Service.act (s : Service) : Action → Service × List Answer
  | .allow ip now =>
    let (allowed, limiter) := s.limiter.allow ip now
    (⟨limiter, max s.clock now⟩, [⟨ip, now, allowed⟩])
  | .sweep now => (⟨s.limiter.sweep visitorTTL now, max s.clock now⟩, [])

/-- A call comes no earlier than anything before it. -/
def OnTime (s : Service) : Action → Prop
  | .allow _ now => s.clock ≤ now
  | .sweep _ => True

def globalParams : Params ℚ := ⟨50, 100, by norm_num, by norm_num⟩

/-- The limits are those of the process, and the buckets are valid. -/
structure Sound (s : Service) : Prop where
  rate : s.limiter.rate = globalParams.rate
  burst : s.limiter.burst = globalParams.burst
  valid : ∀ ip, ∀ b ∈ s.limiter.visitors ip, Valid globalParams s.clock b

/-- What `allow` does is a call of the bucket. -/
theorem allow_eq {s : Service} (h : Sound s) (ip : Str) (now : ℚ) :
    s.limiter.allow ip now =
      ((call globalParams now (s.limiter.visitors ip)).1,
        s.limiter.setVisitor ip (call globalParams now (s.limiter.visitors ip)).2) := by
  unfold IPRateLimiter.allow call
  cases s.limiter.visitors ip with
  | none =>
    have hburst : ¬ globalParams.burst < 1 := not_lt.mpr globalParams.one_le_burst
    simp only [level, hburst, if_false, h.burst]
  | some b =>
    have hmin : (if b.tokens + (now - b.last) * s.limiter.rate > s.limiter.burst then s.limiter.burst
        else b.tokens + (now - b.last) * s.limiter.rate) = level globalParams now (some b) := by
      rw [h.rate, h.burst, level, min_def]
      split
      · rename_i hgt
        exact (if_pos hgt.le).symm
      · rename_i hle
        split
        · rename_i hge
          exact le_antisymm (not_lt.mp hle) hge
        · rfl
    simp only [hmin]
    split <;> rfl

theorem Sound.allow {s : Service} (h : Sound s) (ip : Str) (now : ℚ) (htime : s.clock ≤ now) :
    Sound (s.act (.allow ip now)).1 := by
  simp only [Service.act, allow_eq h, max_eq_right htime]
  refine ⟨h.rate, h.burst, ?_⟩
  intro other b hb
  by_cases hip : other = ip
  · simp only [IPRateLimiter.setVisitor, if_pos hip, Option.mem_def, Option.some.injEq] at hb
    rw [← hb]
    exact valid_call (h.valid ip) htime
  · simp only [IPRateLimiter.setVisitor, if_neg hip] at hb
    exact (h.valid other b hb).mono htime

theorem Sound.sweep {s : Service} (h : Sound s) (now : ℚ) : Sound (s.act (.sweep now)).1 := by
  refine ⟨h.rate, h.burst, ?_⟩
  intro ip b hb
  exact (h.valid ip b (Option.filter_eq_some_iff.mp hb).1).mono (le_max_left _ _)

theorem Sound.act {s : Service} (h : Sound s) (a : Action) (htime : OnTime s a) : Sound (s.act a).1 := by
  cases a with
  | allow ip now => exact h.allow ip now htime
  | sweep now => exact h.sweep now

/-- A sweep leaves every address alike. -/
theorem alike_sweep {s : Service} (h : Sound s) (now : ℚ) (ip : Str) :
    Alike globalParams (max s.clock now) ((s.limiter.sweep visitorTTL now).visitors ip)
      (s.limiter.visitors ip) := by
  intro t ht
  simp only [IPRateLimiter.sweep]
  cases hb : s.limiter.visitors ip with
  | none => rfl
  | some b =>
    by_cases hidle : b.last < now - visitorTTL
    · have hfull : globalParams.burst ≤ visitorTTL * globalParams.rate := by
        norm_num [globalParams, visitorTTL]
      have hlast : b.last + visitorTTL ≤ t := by
        have hnow : now ≤ t := (le_max_right _ _).trans ht
        linarith
      simp only [Option.filter_some, hidle, not_true_eq_false, decide_false, Bool.false_eq_true,
        if_false]
      exact (level_idle (h.valid ip b hb) hfull hlast).symm
    · simp only [Option.filter_some, hidle, not_false_eq_true, decide_true, if_true]

/-- No address can tell the two services apart. -/
structure Same (s t : Service) : Prop where
  left : Sound s
  right : Sound t
  clock : t.clock ≤ s.clock
  alike : ∀ ip, Alike globalParams s.clock (s.limiter.visitors ip) (t.limiter.visitors ip)

theorem Same.sweep {s t : Service} (h : Same s t) (now : ℚ) : Same (s.act (.sweep now)).1 t := by
  refine ⟨h.left.sweep now, h.right, h.clock.trans (le_max_left _ _), ?_⟩
  intro ip u hu
  exact (alike_sweep h.left now ip u hu).trans (h.alike ip u ((le_max_left _ _).trans hu))

theorem Same.answer {s t : Service} (h : Same s t) (ip : Str) (now : ℚ) (htime : s.clock ≤ now) :
    (s.act (.allow ip now)).2 = (t.act (.allow ip now)).2 := by
  simp only [Service.act, allow_eq h.left, allow_eq h.right, (h.alike ip).call htime]

theorem Same.allow {s t : Service} (h : Same s t) (ip : Str) (now : ℚ) (htime : s.clock ≤ now) :
    Same (s.act (.allow ip now)).1 (t.act (.allow ip now)).1 := by
  have htime' : t.clock ≤ now := h.clock.trans htime
  refine ⟨h.left.allow ip now htime, h.right.allow ip now htime', ?_, ?_⟩
  · exact max_le_max_right now h.clock
  · intro other u hu
    have hu : now ≤ u := (le_max_right _ _).trans hu
    simp only [Service.act, allow_eq h.left, allow_eq h.right, (h.alike ip).call htime,
      IPRateLimiter.setVisitor]
    split
    · rfl
    · exact h.alike other u (htime.trans hu)

/-- The answers are those that are given when nothing is ever evicted. -/
theorem events_filter (actions : List Action) (s t : Service) (h : Same s t)
    (htime : Run.Along Service.act OnTime s actions) :
    Run.events Service.act s actions = Run.events Service.act t (actions.filter Action.isAllow) := by
  induction actions generalizing s t with
  | nil => rfl
  | cons a actions ih =>
    obtain ⟨ha, hrest⟩ := htime
    cases a with
    | allow ip now =>
      rw [List.filter_cons_of_pos rfl, Run.events_cons, Run.events_cons, h.answer ip now ha,
        ih _ _ (h.allow ip now ha) hrest]
    | sweep now =>
      rw [List.filter_cons_of_neg (by simp [Action.isAllow]), Run.events_cons, ih _ t (h.sweep now) hrest]
      rfl

/-- The answer lets a call of the address through within the window. -/
def Answer.inWindow (ip : Str) (start stop : ℚ) (e : Answer) : Bool :=
  e.allowed && e.ip = ip && decide (start ≤ e.now ∧ e.now ≤ stop)

def countAllowed (ip : Str) (start stop : ℚ) (answers : List Answer) : Nat :=
  answers.countP (Answer.inWindow ip start stop)

/-- What a step lets through within the window is paid for by the budget of the address. -/
theorem countAllowed_act {s : Service} (h : Sound s) (ip : Str) (start stop : ℚ) (a : Action)
    (htime : OnTime s a) :
    (countAllowed ip start stop (s.act a).2 : ℚ) +
        budget globalParams start stop (s.act a).1.clock ((s.act a).1.limiter.visitors ip) ≤
      budget globalParams start stop s.clock (s.limiter.visitors ip) := by
  cases a with
  | allow other now =>
    have htime : s.clock ≤ now := htime
    refine le_trans ?_ (budget_mono start stop (h.valid ip) htime)
    simp only [Service.act, allow_eq h, max_eq_right htime, IPRateLimiter.setVisitor, countAllowed,
      List.countP_singleton, Answer.inWindow]
    by_cases hip : ip = other
    · subst hip
      have hcall := budget_call (p := globalParams) start stop now (s.limiter.visitors ip)
      simpa [add_comm] using hcall
    · simp [hip, Ne.symm hip]
  | sweep now =>
    have hle : s.clock ≤ max s.clock now := le_max_left _ _
    simp only [Service.act, countAllowed, List.countP_nil, Nat.cast_zero, zero_add]
    refine le_trans (le_of_eq ?_) (budget_mono start stop (h.valid ip) hle)
    unfold budget
    rw [alike_sweep h now ip _ (le_max_left _ _)]

theorem countAllowed_le_budget (ip : Str) (start stop : ℚ) (actions : List Action) (s : Service)
    (h : Sound s) (htime : Run.Along Service.act OnTime s actions) :
    (countAllowed ip start stop (Run.events Service.act s actions) : ℚ) ≤
      budget globalParams start stop s.clock (s.limiter.visitors ip) := by
  induction actions generalizing s with
  | nil =>
    exact (le_of_eq Nat.cast_zero).trans (budget_nonneg start stop (h.valid ip))
  | cons a actions ih =>
    obtain ⟨ha, hrest⟩ := htime
    have hstep := countAllowed_act h ip start stop a ha
    have hlater := ih _ (h.act a ha) hrest
    rw [Run.events_cons, countAllowed, List.countP_append, Nat.cast_add]
    simp only [countAllowed] at hstep hlater
    linarith

/-- In every run: no more calls of an address are let through in a window than the burst and what
flows in during it, the buckets hold between nothing and the burst, and evictions change no answer. -/
theorem rate_limit (start : ℚ) (actions : List Action)
    (htime : Run.Along Service.act OnTime ⟨globalLimiter, start⟩ actions) :
    (∀ ip from' w, 0 ≤ w → (countAllowed ip from' (from' + w)
        (Run.events Service.act ⟨globalLimiter, start⟩ actions) : ℚ) ≤ 100 + 50 * w) ∧
      (∀ ip, ∀ b ∈ (Run.final Service.act ⟨globalLimiter, start⟩ actions).limiter.visitors ip,
        0 ≤ b.tokens ∧ b.tokens ≤ 100) ∧
      Run.events Service.act ⟨globalLimiter, start⟩ actions =
        Run.events Service.act ⟨globalLimiter, start⟩ (actions.filter Action.isAllow) := by
  have hstart : Sound ⟨globalLimiter, start⟩ := ⟨rfl, rfl, fun ip b hb => by cases hb⟩
  refine ⟨?_, ?_, ?_⟩
  · intro ip from' w hw
    have hbudget := countAllowed_le_budget ip from' (from' + w) actions _ hstart htime
    refine hbudget.trans ((budget_le_burst (le_add_of_nonneg_right hw) _ _).trans (le_of_eq ?_))
    simp only [globalParams]
    ring
  · intro ip b hb
    have hfinal : Sound (Run.final Service.act ⟨globalLimiter, start⟩ actions) :=
      Run.inv_final (fun _ a h ha => h.act a ha) actions _ hstart htime
    have hvalid := hfinal.valid ip b hb
    exact ⟨hvalid.nonneg, hvalid.le_burst⟩
  · exact events_filter actions _ _ ⟨hstart, hstart, le_refl _, fun ip u hu => rfl⟩ htime

/-- Two calls, a sweep that takes their bucket away, and a call after it. -/
def sweptRun : List Action :=
  [.allow ['a'] 0, .allow ['a'] (1 / 2), .allow ['b'] 500, .sweep 700, .allow ['a'] 700]

theorem sweptRun_limited :
    (∀ ip from' w, 0 ≤ w → (countAllowed ip from' (from' + w)
        (Run.events Service.act ⟨globalLimiter, 0⟩ sweptRun) : ℚ) ≤ 100 + 50 * w) ∧
      (∀ ip, ∀ b ∈ (Run.final Service.act ⟨globalLimiter, 0⟩ sweptRun).limiter.visitors ip,
        0 ≤ b.tokens ∧ b.tokens ≤ 100) ∧
      Run.events Service.act ⟨globalLimiter, 0⟩ sweptRun =
        Run.events Service.act ⟨globalLimiter, 0⟩ (sweptRun.filter Action.isAllow) := by
  refine rate_limit 0 sweptRun ?_
  norm_num [sweptRun, Run.Along, OnTime, Service.act]

end Janus.RateLimiter
