import Janus.Gateway
import Janus.Lib.NumberIntegers

/-!
# Retries

Embedding of the loop of `doWithRetry` with its machine integers: the bound on the
retries is an `int`, the wait before an attempt is a shift and two products in 64-bit
nanoseconds, and all attempts share one request, whose body reader is drained by the
first. `Gateway.doWithRetry` is this loop wherever the bound plus one is still an `int`.
-/

namespace Janus.Retries

set_option autoImplicit false

open Storage Gateway

/-- `1 << k`. -/
def shiftOne (k : Nat) : Int64 := if k < 64 then Int64.ofInt (2 ^ k) else 0

def millisecond : Int64 := 1000000

def second : Int64 := 1000 * millisecond

/-- The delay before attempt number `attempt`, without the jitter. -/
def backoff (attempt : Nat) : Int64 :=
  let backoff := 100 * shiftOne (attempt - 1) * millisecond
  if backoff > 2 * second then 2 * second else backoff

/-- The 63 random bits of `rand.Float64`, which draws again when the double is one. -/
structure Draw where
  int63 : Fin (2 ^ 63)
  below : (nearestDouble int63 1).1 < 2 ^ 63 * (nearestDouble int63 1).2

instance : Zero Draw := ⟨⟨0, by decide +kernel⟩⟩

/-- The double `rand.Float64()*2 - 1`: whether it is negative, and its size as a fraction. -/
def Draw.swing (draw : Draw) : Bool × Nat × Nat :=
  let f := nearestDouble draw.int63 1
  let z : Int := 2 * f.1 - 2 ^ 63 * f.2
  (z < 0, nearestDouble z.natAbs (2 ^ 63 * f.2))

/-- Half of the product of the double `n` and the double `a`, cut off to an integer. -/
def halfProduct (n : Nat) (a : Nat × Nat) : Nat :=
  let f := nearestDouble n 1
  let p := nearestDouble (f.1 * a.1) (f.2 * a.2)
  p.1 / (p.2 * 2)

/-- The product of the swing, the delay and one half, in whole nanoseconds. -/
def jitter (backoff : Int64) (draw : Draw) : Int64 :=
  let size : Int := halfProduct backoff.toInt.natAbs draw.swing.2
  Int64.ofInt (if backoff < 0 ↔ draw.swing.1 then size else -size)

def wait (attempt : Nat) (draw : Draw) : Int64 :=
  backoff attempt + jitter (backoff attempt) draw

/-- What the loop returns, behind the requests it sent and the times it waited. -/
structure RetryRun where
  sent : List Request
  waits : List Int64
  resp : Option (Nat × Str)
  err : Option ExecError
  deriving DecidableEq

def RetryRun.after (req : Request) (run : RetryRun) : RetryRun := { run with sent := req :: run.sent }

def RetryRun.waited (waits : List Int64) (run : RetryRun) : RetryRun :=
  { run with waits := waits ++ run.waits }

/-- The request once its body has been read. -/
def drained (req : Request) : Request := { req with body := req.body.map fun _ => [] }

/-- The rounds of the loop from number `attempt`, of which `left` are below `attempts`. -/
def retryLoop (env : CallEnv) (draw : Nat → Draw) (method : Str) :
    Nat → Nat → Option ExecError → Request → RetryRun
  | 0, _, lastErr, _ => ⟨[], [], none, lastErr⟩
  | left + 1, attempt, _, req =>
    let waits := if attempt > 0 then [wait attempt (draw attempt)] else []
    match if attempt > 0 then env.cancelled attempt else none with
    | some cause => ⟨[], waits, none, some (.cancelled cause)⟩
    | none =>
      let again (e : ExecError) : RetryRun :=
        (retryLoop env draw method left (attempt + 1) (some e) (drained req)).after req
      RetryRun.waited waits <|
        match env.attempt attempt with
        | .transportError cause => again (.requestFailed cause)
        | .readError cause => again (.unreadableBody cause)
        | .reply status body =>
          if (Text.bytes body).length > maxResponseBytes then ⟨[req], [], none, some .tooLarge⟩
          else if status ≥ 500 && isIdempotent method && left ≠ 0 then
            again (.retriesExhausted status)
          else ⟨[req], [], some (status, body), none⟩

def attempts (maxRetries : Int64) (method : Str) : Int64 :=
  if maxRetries > 0 ∧ isIdempotent method then maxRetries + 1 else 1

def doWithRetry (env : CallEnv) (draw : Nat → Draw) (maxRetries : Int64) (req : Request)
    (method : Str) : RetryRun :=
  retryLoop env draw method (attempts maxRetries method).toInt.toNat 0 none req

/-- The last attempt that the bound allows, counted from 0. -/
def lastAttempt (maxRetries : Int64) (method : Str) : Nat :=
  if isIdempotent method then maxRetries.toInt.toNat else 0

/-- The bound at which the number of attempts is no `int` any more. -/
def Overflows (maxRetries : Int64) (method : Str) : Prop :=
  isIdempotent method = true ∧ maxRetries = Int64.maxValue

theorem attempts_eq {maxRetries : Int64} {method : Str} (h : ¬ Overflows maxRetries method) :
    (attempts maxRetries method).toInt.toNat = lastAttempt maxRetries method + 1 := by
  unfold attempts lastAttempt
  have hpos : maxRetries > 0 ↔ 0 < maxRetries.toInt := Int64.lt_iff_toInt_lt
  by_cases hm : isIdempotent method = true
  · have hne : maxRetries.toInt ≠ 2 ^ 63 - 1 := fun he => h ⟨hm, Int64.toInt_inj.mp he⟩
    have hlt := Int64.toInt_lt maxRetries
    rw [if_pos hm]
    split
    · rename_i hc
      have hgt := hpos.mp hc.1
      rw [Int64.toInt_add, Int64.toInt_one, Int.bmod_eq_of_le (by omega) (by omega)]
      omega
    · rename_i hc
      have hle : ¬ 0 < maxRetries.toInt := fun hgt => hc ⟨hpos.mpr hgt, hm⟩
      rw [Int64.toInt_one]
      omega
  · rw [if_neg hm, if_neg fun hc => hm hc.2]
    rfl

theorem attempts_overflow {maxRetries : Int64} {method : Str} (h : Overflows maxRetries method) :
    (attempts maxRetries method).toInt.toNat = 0 := by
  obtain ⟨hm, rfl⟩ := h
  unfold attempts
  rw [if_pos ⟨by decide, hm⟩]
  decide

/-- An outcome that is returned whatever the bound. -/
def isFinal : Attempt → Bool
  | .reply status body => (Text.bytes body).length > maxResponseBytes || status < 500
  | _ => false

/-- Response and error for the outcome of the attempt that ends the loop. -/
def returned : Attempt → Option (Nat × Str) × Option ExecError
  | .transportError cause => (none, some (.requestFailed cause))
  | .readError cause => (none, some (.unreadableBody cause))
  | .reply status body =>
    if (Text.bytes body).length > maxResponseBytes then (none, some .tooLarge)
    else (some (status, body), none)

/-- The error that a round leaves to the next one. -/
def recorded : Attempt → ExecError
  | .transportError cause => .requestFailed cause
  | .readError cause => .unreadableBody cause
  | .reply status _ => .retriesExhausted status

theorem returned_ne (o : Attempt) : (returned o).1 ≠ none ∨ (returned o).2 ≠ none := by
  cases o with
  | transportError | readError => exact .inr (Option.some_ne_none _)
  | reply status body =>
    simp only [returned]
    split
    · exact .inr (Option.some_ne_none _)
    · exact .inl (Option.some_ne_none _)

section Loop

variable (env : CallEnv) (draw : Nat → Draw) (method : Str)

def waitsAt (attempt : Nat) : List Int64 := if attempt > 0 then [wait attempt (draw attempt)] else []

/-- The context ended during the wait before this attempt. -/
def cancelledAt (attempt : Nat) : Option Str := if attempt > 0 then env.cancelled attempt else none

variable {env draw method}

theorem retryLoop_cancelled {left attempt : Nat} {lastErr : Option ExecError} {req : Request}
    {cause : Str} (h : cancelledAt env attempt = some cause) :
    retryLoop env draw method (left + 1) attempt lastErr req =
      ⟨[], waitsAt draw attempt, none, some (.cancelled cause)⟩ := by
  unfold cancelledAt at h
  unfold retryLoop
  simp only [h, waitsAt]

/-- The round that ends the loop. -/
theorem retryLoop_stop {left attempt : Nat} {lastErr : Option ExecError} {req : Request}
    (hc : cancelledAt env attempt = none)
    (hstop : isFinal (env.attempt attempt) = true ∨ left = 0) :
    retryLoop env draw method (left + 1) attempt lastErr req =
      ⟨[req], waitsAt draw attempt, (returned (env.attempt attempt)).1,
        (returned (env.attempt attempt)).2⟩ := by
  unfold cancelledAt at hc
  unfold retryLoop
  simp only [hc]
  cases ho : env.attempt attempt with
  | transportError cause | readError cause =>
    rw [ho] at hstop
    obtain rfl : left = 0 := hstop.resolve_left (by simp [isFinal])
    simp [retryLoop, RetryRun.waited, RetryRun.after, returned, waitsAt]
  | reply status body =>
    rw [ho] at hstop
    simp only [returned, waitsAt, RetryRun.waited]
    by_cases hbig : (Text.bytes body).length > maxResponseBytes
    · simp [hbig]
    · have hlast : ¬ ((status ≥ 500 && isIdempotent method && left ≠ 0) = true) := by
        intro hagain
        simp only [Bool.and_eq_true, decide_eq_true_eq] at hagain
        obtain hfin | h0 := hstop
        · simp [isFinal, hbig] at hfin
          omega
        · exact hagain.2 h0
      rw [if_neg hbig, if_neg hbig, if_neg hlast]
      simp

/-- A round that is followed by another. -/
theorem retryLoop_again {left attempt : Nat} {lastErr : Option ExecError} {req : Request}
    (hm : isIdempotent method = true) (hc : cancelledAt env attempt = none)
    (hfin : isFinal (env.attempt attempt) = false) (hleft : left ≠ 0) :
    retryLoop env draw method (left + 1) attempt lastErr req =
      RetryRun.waited (waitsAt draw attempt)
        ((retryLoop env draw method left (attempt + 1) (some (recorded (env.attempt attempt)))
          (drained req)).after req) := by
  unfold cancelledAt at hc
  rw [retryLoop]
  simp only [hc]
  cases ho : env.attempt attempt with
  | transportError cause | readError cause => rfl
  | reply status body =>
    rw [ho] at hfin
    simp only [isFinal, Bool.or_eq_false_iff, decide_eq_false_iff_not] at hfin
    have hagain : (status ≥ 500 && isIdempotent method && left ≠ 0) = true := by
      simp only [hm, Bool.and_true, Bool.and_eq_true, decide_eq_true_eq]
      exact ⟨by omega, hleft⟩
    simp only [if_neg hfin.1, if_pos hagain]
    rfl

end Loop

/-- The run ends behind the first final outcome, at the latest behind attempt number `last`,
and returns what that attempt came to. -/
def EndsAt (env : CallEnv) (start last : Nat) (run : RetryRun) : Prop :=
  ∃ k, start ≤ k ∧ k ≤ last ∧ run.sent.length = k + 1 - start ∧
    (∀ i, start ≤ i → i < k → isFinal (env.attempt i) = false) ∧
    (isFinal (env.attempt k) = true ∨ k = last) ∧
    (run.resp, run.err) = returned (env.attempt k) ∧ (run.resp ≠ none ∨ run.err ≠ none)

theorem retryLoop_endsAt {env : CallEnv} {draw : Nat → Draw} {method : Str}
    (hc : ∀ k, env.cancelled k = none) :
    ∀ (left attempt : Nat) (lastErr : Option ExecError) (req : Request),
      isIdempotent method = true ∨ left = 0 →
      EndsAt env attempt (attempt + left)
        (retryLoop env draw method (left + 1) attempt lastErr req) := by
  intro left
  have hnone (k : Nat) : cancelledAt env k = none := by
    unfold cancelledAt
    split
    · exact hc k
    · rfl
  induction left with
  | zero =>
    intro attempt lastErr req _
    rw [retryLoop_stop (hnone attempt) (.inr rfl)]
    exact ⟨attempt, le_refl _, le_refl _, by simp, fun i h1 h2 => absurd h1 (by omega),
      .inr rfl, rfl, returned_ne _⟩
  | succ left ih =>
    intro attempt lastErr req hm
    cases hfin : isFinal (env.attempt attempt) with
    | true =>
      rw [retryLoop_stop (hnone attempt) (.inl hfin)]
      exact ⟨attempt, le_refl _, by omega, by simp, fun i h1 h2 => absurd h1 (by omega),
        .inl hfin, rfl, returned_ne _⟩
    | false =>
      have hid := hm.resolve_right (by omega)
      rw [retryLoop_again hid (hnone attempt) hfin (by omega)]
      obtain ⟨k, hk, hlast, hlen, hbefore, hend, hret, hne⟩ :=
        ih (attempt + 1) (some (recorded (env.attempt attempt))) (drained req) (.inl hid)
      refine ⟨k, by omega, by omega, ?_, ?_, ?_, hret, hne⟩
      · simp only [RetryRun.waited, RetryRun.after, List.length_cons, hlen]
        omega
      · intro i h1 h2
        obtain rfl | hgt := Nat.eq_or_lt_of_le h1
        · exact hfin
        · exact hbefore i hgt h2
      · exact hend.imp id fun h => by omega

/-- The accounting of the attempts holds unless the number of attempts overflows. -/
theorem doWithRetry_endsAt_iff {env : CallEnv} (hc : ∀ k, env.cancelled k = none)
    (draw : Nat → Draw) (maxRetries : Int64) (req : Request) (method : Str) :
    EndsAt env 0 (lastAttempt maxRetries method) (doWithRetry env draw maxRetries req method) ↔
      ¬ (isIdempotent method = true ∧ maxRetries = Int64.maxValue) := by
  constructor
  · intro h hover
    obtain ⟨k, _, _, hlen, _⟩ := h
    unfold doWithRetry at hlen
    rw [attempts_overflow hover] at hlen
    simp [retryLoop] at hlen
  · intro h
    unfold doWithRetry
    rw [attempts_eq h]
    have hrun := @retryLoop_endsAt env draw method hc (lastAttempt maxRetries method) 0 none req ?_
    · rwa [Nat.zero_add] at hrun
    · unfold lastAttempt
      split
      · exact .inl ‹_›
      · exact .inr rfl

theorem doWithRetry_endsAt_two :
    EndsAt ⟨0, 0, fun _ => .ok [], none, fun _ => none, fun _ => .transportError []⟩ 0 2
      (doWithRetry ⟨0, 0, fun _ => .ok [], none, fun _ => none, fun _ => .transportError []⟩
        (fun _ => 0) 2 ⟨"GET".toList, "http://a/".toList, none, .none⟩ "GET".toList) :=
  (doWithRetry_endsAt_iff (fun _ => rfl) (fun _ => 0) 2
    ⟨"GET".toList, "http://a/".toList, none, .none⟩ "GET".toList).mpr (by decide)

/-- With the largest bound nothing is sent, and neither a response nor an error comes back. -/
theorem doWithRetry_overflow :
    doWithRetry ⟨0, 0, fun _ => .ok [], none, fun _ => none, fun _ => .reply 200 []⟩ (fun _ => 0)
      9223372036854775807 ⟨"GET".toList, "http://a/".toList, none, .none⟩ "GET".toList =
        ⟨[], [], none, none⟩ ∧
    ¬ EndsAt ⟨0, 0, fun _ => .ok [], none, fun _ => none, fun _ => .reply 200 []⟩ 0
      (lastAttempt 9223372036854775807 "GET".toList)
      (doWithRetry ⟨0, 0, fun _ => .ok [], none, fun _ => none, fun _ => .reply 200 []⟩
        (fun _ => 0) 9223372036854775807 ⟨"GET".toList, "http://a/".toList, none, .none⟩
        "GET".toList) := by
  have hrun : doWithRetry ⟨0, 0, fun _ => .ok [], none, fun _ => none, fun _ => .reply 200 []⟩
      (fun _ => 0) 9223372036854775807 ⟨"GET".toList, "http://a/".toList, none, .none⟩
      "GET".toList = ⟨[], [], none, none⟩ := by
    unfold doWithRetry
    rw [attempts_overflow ⟨by decide, by decide⟩]
    rfl
  refine ⟨hrun, ?_⟩
  rintro ⟨k, _, _, hlen, _⟩
  rw [hrun] at hlen
  simp at hlen

/-- What `ExecuteCall` reads from the run; nothing when neither value was returned. -/
def RetryRun.answer (run : RetryRun) : Option (Except ExecError (Nat × Str)) :=
  match run.err, run.resp with
  | some e, _ => some (.error e)
  | none, some r => some (.ok r)
  | none, none => none

@[simp] theorem answer_after (req : Request) (run : RetryRun) : (run.after req).answer = run.answer := rfl

@[simp] theorem answer_waited (waits : List Int64) (run : RetryRun) :
    (run.waited waits).answer = run.answer := rfl

/-- The answer to the outcome that ends the loop. -/
def answered (o : Attempt) : Option (Except ExecError (Nat × Str)) :=
  RetryRun.answer ⟨[], [], (returned o).1, (returned o).2⟩

section Answer

variable {env : CallEnv} {method : Str} {k : Nat}

theorem runAttempt_cancelled {mayRetry : Bool} {cause : Str} (h : cancelledAt env k = some cause) :
    runAttempt env method mayRetry k = .done (.error (.cancelled cause)) := by
  unfold cancelledAt at h
  simp only [runAttempt, h]

/-- The last attempt, or one with a final outcome. -/
theorem runAttempt_stop {mayRetry : Bool} (hc : cancelledAt env k = none)
    (hstop : isFinal (env.attempt k) = true ∨ mayRetry = false) :
    answered (env.attempt k) =
      match runAttempt env method mayRetry k with
      | .done r => some r
      | .again e => some (.error e) := by
  unfold cancelledAt at hc
  simp only [runAttempt, hc]
  cases ho : env.attempt k with
  | transportError | readError => rfl
  | reply status body =>
    unfold answered returned
    by_cases hbig : (Text.bytes body).length > maxResponseBytes
    · simp only [if_pos hbig]
      rfl
    · have hlast : ¬ ((status ≥ 500 && isIdempotent method && mayRetry) = true) := by
        intro hagain
        simp only [Bool.and_eq_true, decide_eq_true_eq] at hagain
        obtain hfin | h0 := hstop
        · simp [ho, isFinal, hbig] at hfin
          omega
        · exact Bool.noConfusion (h0.symm.trans hagain.2)
      simp only [if_neg hbig, if_neg hlast]
      rfl

theorem runAttempt_final {mayRetry : Bool} (hfin : isFinal (env.attempt k) = true) {e : ExecError} :
    runAttempt env method mayRetry k ≠ .again e := by
  intro h
  unfold runAttempt at h
  split at h
  · cases h
  · cases ho : env.attempt k with
    | transportError | readError =>
      rw [ho] at hfin
      cases hfin
    | reply status body =>
      simp only [ho, isFinal, Bool.or_eq_true, decide_eq_true_eq] at hfin h
      split at h
      · cases h
      · split at h
        · rename_i hbig hagain
          simp only [Bool.and_eq_true, decide_eq_true_eq] at hagain
          omega
        · cases h

theorem runAttempt_again (hm : isIdempotent method = true) (hc : cancelledAt env k = none)
    (hfin : isFinal (env.attempt k) = false) :
    runAttempt env method true k = .again (recorded (env.attempt k)) := by
  unfold cancelledAt at hc
  simp only [runAttempt, hc]
  cases ho : env.attempt k with
  | transportError | readError => rfl
  | reply status body =>
    simp only [ho, isFinal, Bool.or_eq_false_iff, decide_eq_false_iff_not] at hfin
    have hagain : (status ≥ 500 && isIdempotent method && true) = true := by
      simp only [hm, Bool.and_true, decide_eq_true_eq]
      omega
    simp only [if_neg hfin.1, if_pos hagain]
    rfl

end Answer

theorem retryLoop_answer (env : CallEnv) (draw : Nat → Draw) (method : Str) :
    ∀ (left attempt : Nat) (lastErr : Option ExecError) (req : Request),
      isIdempotent method = true ∨ left = 0 →
      (retryLoop env draw method (left + 1) attempt lastErr req).answer =
        some (retryFrom env method left attempt) := by
  intro left
  induction left with
  | zero =>
    intro attempt lastErr req _
    rw [retryFrom]
    cases hc : cancelledAt env attempt with
    | some cause =>
      rw [retryLoop_cancelled hc, runAttempt_cancelled hc]
      rfl
    | none =>
      rw [retryLoop_stop hc (.inr rfl)]
      have hstop := @runAttempt_stop env method attempt false hc (.inr rfl)
      cases hrun : runAttempt env method false attempt <;> rwa [hrun] at hstop
  | succ left ih =>
    intro attempt lastErr req hm
    rw [retryFrom]
    cases hc : cancelledAt env attempt with
    | some cause =>
      rw [retryLoop_cancelled hc, runAttempt_cancelled hc]
      rfl
    | none =>
      cases hfin : isFinal (env.attempt attempt) with
      | true =>
        rw [retryLoop_stop hc (.inl hfin)]
        have hstop := @runAttempt_stop env method attempt true hc (.inl hfin)
        cases hrun : runAttempt env method true attempt with
        | done r => rwa [hrun] at hstop
        | again e => exact absurd hrun (runAttempt_final hfin)
      | false =>
        have hid := hm.resolve_right (by omega)
        rw [retryLoop_again hid hc hfin (by omega), runAttempt_again hid hc hfin]
        exact ih (attempt + 1) _ (drained req) (.inl hid)

/-- Below the overflow the loop is the one on natural numbers. -/
theorem doWithRetry_answer (env : CallEnv) (draw : Nat → Draw) {maxRetries : Int64}
    (req : Request) {method : Str} (h : ¬ Overflows maxRetries method) :
    (doWithRetry env draw maxRetries req method).answer =
      some (Gateway.doWithRetry env maxRetries.toInt.toNat method) := by
  unfold doWithRetry Gateway.doWithRetry
  rw [attempts_eq h]
  apply retryLoop_answer
  unfold lastAttempt
  split
  · exact .inl ‹_›
  · exact .inr rfl

/-- A swing is at most one. -/
theorem swing_le (draw : Draw) :
    0 < draw.swing.2.2 ∧ draw.swing.2.1 ≤ draw.swing.2.2 := by
  have hbelow := draw.below
  unfold Draw.swing
  dsimp only
  generalize nearestDouble draw.int63 1 = f at hbelow
  have hden : 0 < 2 ^ 63 * f.2 := by omega
  have hsize : (2 * (f.1 : Int) - 2 ^ 63 * f.2).natAbs ≤ 1 * (2 ^ 63 * f.2) := by omega
  obtain ⟨hpos, hle⟩ := nearestDouble_le hden (by decide) hsize
  exact ⟨hpos, by omega⟩

theorem halfProduct_le {n : Nat} {a : Nat × Nat} (hn : n < 2 ^ 53) (hpos : 0 < a.2)
    (ha : a.1 ≤ a.2) : halfProduct n a ≤ n / 2 := by
  obtain ⟨hfpos, hfle⟩ := @nearestDouble_le n 1 n Nat.one_pos hn (Nat.mul_one n).ge
  unfold halfProduct
  dsimp only
  generalize nearestDouble n 1 = f at hfpos hfle
  have hprod : f.1 * a.1 ≤ n * (f.2 * a.2) :=
    calc f.1 * a.1 ≤ n * f.2 * a.2 := Nat.mul_le_mul hfle ha
      _ = n * (f.2 * a.2) := Nat.mul_assoc _ _ _
  obtain ⟨hpos', hle'⟩ := nearestDouble_le (Nat.mul_pos hfpos hpos) hn hprod
  generalize nearestDouble (f.1 * a.1) (f.2 * a.2) = p at hpos' hle'
  rw [← Nat.div_div_eq_div_mul]
  apply Nat.div_le_div_right
  calc p.1 / p.2 ≤ n * p.2 / p.2 := Nat.div_le_div_right hle'
    _ = n := Nat.mul_div_cancel _ hpos'

/-- The jitter is at most half of the delay. -/
theorem jitter_natAbs_le {b : Int64} (h0 : 0 ≤ b.toInt) (h : b.toInt < 2 ^ 53) (draw : Draw) :
    (jitter b draw).toInt.natAbs ≤ b.toInt.natAbs / 2 := by
  obtain ⟨hpos, hle⟩ := swing_le draw
  have hsize := @halfProduct_le b.toInt.natAbs draw.swing.2 (by omega) hpos hle
  unfold jitter
  generalize halfProduct b.toInt.natAbs draw.swing.2 = size at hsize
  dsimp only
  rw [Int64.toInt_ofInt_of_le]
  · split <;> omega
  · split <;> omega
  · split <;> omega

/-- The delays up to the last one whose product is still in range. -/
theorem backoff_bounds :
    ∀ k < 37, 100000000 ≤ (backoff (k + 1)).toInt ∧ (backoff (k + 1)).toInt ≤ 2000000000 ∧
      (0 < k → (backoff k).toInt ≤ (backoff (k + 1)).toInt) := by
  decide +kernel

theorem backoff_wrapped : (backoff 38).toInt < 0 := by
  decide +kernel

/-- The delay before an attempt, and the wait for any draw of the jitter. -/
def InRange (attempt : Nat) : Prop :=
  100000000 ≤ (backoff attempt).toInt ∧ (backoff attempt).toInt ≤ 2000000000 ∧
    (1 < attempt → (backoff (attempt - 1)).toInt ≤ (backoff attempt).toInt) ∧
    ∀ draw, 50000000 ≤ (wait attempt draw).toInt ∧ (wait attempt draw).toInt ≤ 3000000000

theorem inRange_of_le {attempt : Nat} (h1 : 1 ≤ attempt) (h : attempt ≤ 37) : InRange attempt := by
  obtain ⟨k, rfl⟩ := Nat.exists_eq_add_of_le' h1
  obtain ⟨hlow, hhigh, hmono⟩ := backoff_bounds k (by omega)
  refine ⟨hlow, hhigh, fun hk => hmono (by omega), fun draw => ?_⟩
  have hj := jitter_natAbs_le (b := backoff (k + 1)) (by omega) (by omega) draw
  unfold wait
  rw [Int64.toInt_add, Int.bmod_eq_of_le (by omega) (by omega)]
  omega

/-- The times a run waited are those of its attempts. -/
theorem retryLoop_waits (env : CallEnv) (draw : Nat → Draw) (method : Str) :
    ∀ (left attempt : Nat) (lastErr : Option ExecError) (req : Request),
      ∀ w ∈ (retryLoop env draw method left attempt lastErr req).waits,
        ∃ k, 0 < k ∧ k < attempt + left ∧ w = wait k (draw k) := by
  intro left
  induction left with
  | zero => simp [retryLoop]
  | succ left ih =>
    intro attempt lastErr req w hw
    have hfirst (h : w ∈ if attempt > 0 then [wait attempt (draw attempt)] else []) :
        ∃ k, 0 < k ∧ k < attempt + (left + 1) ∧ w = wait k (draw k) := by
      split at h
      · exact ⟨attempt, ‹_›, by omega, List.mem_singleton.mp h⟩
      · cases h
    have hnext {e : Option ExecError}
        (h : w ∈ (retryLoop env draw method left (attempt + 1) e (drained req)).waits) :
        ∃ k, 0 < k ∧ k < attempt + (left + 1) ∧ w = wait k (draw k) := by
      obtain ⟨k, hk, hlt, rfl⟩ := ih (attempt + 1) e (drained req) w h
      exact ⟨k, hk, by omega, rfl⟩
    unfold retryLoop at hw
    dsimp only at hw
    split at hw
    · exact hfirst hw
    · obtain hw | hw := List.mem_append.mp hw
      · exact hfirst hw
      · split at hw
        · exact hnext hw
        · exact hnext hw
        · split at hw
          · cases hw
          · split at hw
            · exact hnext hw
            · cases hw

/-- With a bound of at most 37 every wait of a run is between 50 ms and 3 s. -/
theorem doWithRetry_waits {env : CallEnv} {draw : Nat → Draw} {maxRetries : Int64}
    {req : Request} {method : Str} (h : maxRetries.toInt ≤ 37) :
    ∀ w ∈ (doWithRetry env draw maxRetries req method).waits,
      50000000 ≤ w.toInt ∧ w.toInt ≤ 3000000000 := by
  intro w hw
  have hover : ¬ Overflows maxRetries method := by
    rintro ⟨-, rfl⟩
    exact absurd h (by decide)
  unfold doWithRetry at hw
  rw [attempts_eq hover] at hw
  obtain ⟨k, hk, hlt, rfl⟩ := retryLoop_waits env draw method _ 0 none req w hw
  have hlast : lastAttempt maxRetries method ≤ 37 := by
    unfold lastAttempt
    split <;> omega
  exact (inRange_of_le hk (by omega)).2.2.2 (draw k)

/-- Every delay that the bound allows is in range exactly when no product wraps. -/
theorem inRange_iff (maxRetries : Int64) :
    (∀ attempt : Nat, 1 ≤ attempt → (attempt : Int) ≤ maxRetries.toInt → InRange attempt) ↔
      maxRetries ≤ 37 := by
  have h37 : (37 : Int64).toInt = 37 := by decide
  rw [Int64.le_iff_toInt_le, h37]
  constructor
  · intro h
    by_contra hgt
    have hlow := (h 38 (by decide) (by omega)).1
    have hneg := backoff_wrapped
    omega
  · intro h attempt h1 hle
    exact inRange_of_le h1 (by omega)

/-- Before attempt 38 the delay is negative: the product wraps before it meets the cap. -/
theorem not_inRange_thirtyEight :
    ¬ ∀ attempt : Nat, 1 ≤ attempt → (attempt : Int) ≤ (38 : Int64).toInt → InRange attempt := by
  intro h
  have hlow := (h 38 (by decide) (by decide)).1
  have hneg := backoff_wrapped
  omega

theorem drained_drained (req : Request) : drained (drained req) = drained req := by
  unfold drained
  simp only [Option.map_map]
  rfl

theorem drained_eq_iff (req : Request) : drained req = req ↔ req.body = none ∨ req.body = some [] := by
  obtain ⟨method, url, body, credential⟩ := req
  cases body <;> simp [drained, eq_comm]

/-- Only the first request of a run can carry the body. -/
theorem retryLoop_sent (env : CallEnv) (draw : Nat → Draw) (method : Str) :
    ∀ (left attempt : Nat) (lastErr : Option ExecError) (req : Request),
      ∀ r ∈ (retryLoop env draw method left attempt lastErr req).sent, r = req ∨ r = drained req := by
  intro left
  induction left with
  | zero => simp [retryLoop]
  | succ left ih =>
    intro attempt lastErr req r hr
    have hnext {e : Option ExecError}
        (h : r ∈ req :: (retryLoop env draw method left (attempt + 1) e (drained req)).sent) :
        r = req ∨ r = drained req := by
      obtain rfl | h := List.mem_cons.mp h
      · exact .inl rfl
      · have hd := ih (attempt + 1) e (drained req) r h
        rw [drained_drained, or_self] at hd
        exact .inr hd
    unfold retryLoop at hr
    dsimp only at hr
    split at hr
    · cases hr
    · simp only [RetryRun.waited] at hr
      split at hr
      · exact hnext hr
      · exact hnext hr
      · split at hr
        · exact .inl (List.mem_singleton.mp hr)
        · split at hr
          · exact hnext hr
          · exact .inl (List.mem_singleton.mp hr)

/-- The loop sends a second request. -/
def SecondAttempt (env : CallEnv) (maxRetries : Int64) : Prop :=
  0 < maxRetries.toInt ∧ maxRetries ≠ Int64.maxValue ∧ isFinal (env.attempt 0) = false ∧
    env.cancelled 1 = none

theorem drained_mem_iff {env : CallEnv} {draw : Nat → Draw} {maxRetries : Int64}
    {req : Request} {method : Str} (hm : isIdempotent method = true) :
    (∀ r ∈ (doWithRetry env draw maxRetries req method).sent, r = req) ↔
      drained req = req ∨ ¬ SecondAttempt env maxRetries := by
  unfold doWithRetry
  by_cases hover : maxRetries = Int64.maxValue
  · rw [attempts_overflow ⟨hm, hover⟩]
    simp [retryLoop, SecondAttempt, hover]
  have hlast : lastAttempt maxRetries method = maxRetries.toInt.toNat := if_pos hm
  rw [attempts_eq fun h => hover h.2, hlast]
  have hstart : cancelledAt env 0 = none := rfl
  constructor
  · intro h
    refine or_iff_not_imp_right.mpr fun hsecond => ?_
    obtain ⟨hpos, _, hfin, hgo⟩ := not_not.mp hsecond
    obtain ⟨n, hn⟩ := Nat.exists_eq_succ_of_ne_zero (show maxRetries.toInt.toNat ≠ 0 by omega)
    rw [hn, retryLoop_again hm hstart hfin (Nat.succ_ne_zero n)] at h
    -- the second round is not cancelled, so it sends what it was given
    have hnext : cancelledAt env 1 = none := hgo
    refine h (drained req) (List.mem_cons_of_mem _ ?_)
    cases hfin1 : isFinal (env.attempt 1) with
    | true =>
      rw [retryLoop_stop hnext (.inl hfin1)]
      exact List.mem_cons_self
    | false =>
      cases n with
      | zero =>
        rw [retryLoop_stop hnext (.inr rfl)]
        exact List.mem_cons_self
      | succ n =>
        rw [retryLoop_again hm hnext hfin1 (Nat.succ_ne_zero n)]
        exact List.mem_cons_self
  · intro h r hr
    obtain hsame | hsecond := h
    · obtain rfl | rfl := retryLoop_sent env draw method _ 0 none req r hr
      · rfl
      · exact hsame
    · cases hfin : isFinal (env.attempt 0) with
      | true =>
        rw [retryLoop_stop hstart (.inl hfin)] at hr
        exact List.mem_singleton.mp hr
      | false =>
        cases hn : maxRetries.toInt.toNat with
        | zero =>
          rw [hn, retryLoop_stop hstart (.inr rfl)] at hr
          exact List.mem_singleton.mp hr
        | succ n =>
          cases hgo : env.cancelled 1 with
          | none => exact absurd ⟨by omega, hover, hfin, hgo⟩ hsecond
          | some cause =>
            have hcut : cancelledAt env 1 = some cause := hgo
            rw [hn, retryLoop_again hm hstart hfin (Nat.succ_ne_zero n),
              retryLoop_cancelled hcut] at hr
            exact List.mem_singleton.mp hr

theorem marshal_args_ne_nil (args : Option Params) :
    Json.marshal ((args.map Json.obj).getD .null) ≠ [] := by
  cases args <;> simp [Json.marshal, Json.sorted, Json.compact]

/-- The bodies that a drained reader still sends. -/
theorem renderBody_drained_iff {ep : APIEndpoint} {args : Option Params}
    (hm : isIdempotent ep.method = true) :
    (renderBody ep args = none ∨ renderBody ep args = some []) ↔
      ep.method = "GET".toList ∨
        (ep.template ≠ [] ∧ renderTemplate ep.template (args.getD []) = []) := by
  have hdelete : ep.method ≠ "DELETE".toList := by
    intro h
    rw [h] at hm
    exact absurd hm (by decide)
  unfold renderBody
  by_cases hget : ep.method = "GET".toList
  · rw [if_neg (by simp [hget])]
    exact ⟨fun _ => .inl hget, fun _ => .inl rfl⟩
  · rw [if_pos (Bool.and_eq_true_iff.mpr ⟨decide_eq_true hget, decide_eq_true hdelete⟩)]
    simp only [reduceCtorEq, false_or, Option.some.injEq, hget]
    by_cases htemplate : ep.template = []
    · simp [htemplate, marshal_args_ne_nil]
    · simp [htemplate]

/-- All attempts of a call send the same request exactly when it has no body to drain or the
first attempt is the only one. -/
theorem resent_iff {env : CallEnv} {vault : Vault.Provider} {conn : APIConnection}
    {ep : APIEndpoint} {args : Option Params} {c : Client} {req : Request}
    (hsent : (executeCall env vault conn ep args c).request = some req)
    (hm : isIdempotent ep.method = true) (draw : Nat → Draw) (maxRetries : Int64) :
    (∀ r ∈ (doWithRetry env draw maxRetries req ep.method).sent, r = req) ↔
      ep.method = "GET".toList ∨
        (ep.template ≠ [] ∧ renderTemplate ep.template (args.getD []) = []) ∨
        ¬ SecondAttempt env maxRetries := by
  obtain ⟨u, _, _, hbody⟩ := executeCall_request hsent
  rw [drained_mem_iff hm, drained_eq_iff, hbody, renderBody_drained_iff hm, or_assoc]

/-- One transport error, then an answer. -/
def flakyEnv : CallEnv :=
  ⟨0, 0, fun _ => .ok [], none, fun _ => none,
    fun k => if k = 0 then .transportError [] else .reply 200 []⟩

def hostConn : APIConnection := ⟨['c'], ['c'], [], "http://h".toList, "none".toList, [], true, []⟩

def openClient : Client := ⟨⟨[], true⟩, .new 0, .new 0, 2⟩

def endpointOf (method : Str) : APIEndpoint :=
  ⟨['e'], ['c'], ['n'], [], ['/'], method, [], [], [], 0⟩

def requestOf (method : Str) (body : Option Str) : Request :=
  ⟨method, "http://h/".toList, body, .none⟩

theorem executeCall_get :
    (executeCall flakyEnv (.local []) hostConn (endpointOf "GET".toList) none openClient).request =
      some (requestOf "GET".toList none) := by
  decide +kernel

theorem resent_get :
    (executeCall flakyEnv (.local []) hostConn (endpointOf "GET".toList) none openClient).request =
      some (requestOf "GET".toList none) ∧
    ∀ r ∈ (doWithRetry flakyEnv (fun _ => 0) 2 (requestOf "GET".toList none) "GET".toList).sent,
      r = requestOf "GET".toList none :=
  ⟨executeCall_get, (resent_iff executeCall_get (by decide) (fun _ => 0) 2).mpr (.inl rfl)⟩

/-- The second attempt of a HEAD request has lost the body of the first. -/
theorem not_resent_head :
    (executeCall flakyEnv (.local []) hostConn (endpointOf "HEAD".toList)
        (some [(['k'], .str ['v'])]) openClient).request =
      some (requestOf "HEAD".toList (some "\x7b\"k\":\"v\"\x7d".toList)) ∧
    (doWithRetry flakyEnv (fun _ => 0) 2
        (requestOf "HEAD".toList (some "\x7b\"k\":\"v\"\x7d".toList)) "HEAD".toList).sent =
      [requestOf "HEAD".toList (some "\x7b\"k\":\"v\"\x7d".toList),
        requestOf "HEAD".toList (some [])] ∧
    ¬ ∀ r ∈ (doWithRetry flakyEnv (fun _ => 0) 2
        (requestOf "HEAD".toList (some "\x7b\"k\":\"v\"\x7d".toList)) "HEAD".toList).sent,
      r = requestOf "HEAD".toList (some "\x7b\"k\":\"v\"\x7d".toList) := by
  refine ⟨by decide +kernel, by decide +kernel, by decide +kernel⟩

end Janus.Retries
