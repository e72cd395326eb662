import Janus.ClientRoster
import Janus.EgressDial
import Janus.RateLimiter

/-!
# The front of the server

Every request passes the rate limiter, under the address that its headers or its connection
name, before a handler sees it. In every run a request is refused exactly when it would be one
too many in a window that ends with it; any other is answered by the handler in the state that
it has reached on its own events and on the requests that were let through (`front_answers`).
The tokens are numbers here, where the code rounds them to doubles.
-/

namespace Janus.HttpFront

set_option autoImplicit false

open RateLimiter TokenBucket

/-- Where a request comes from. -/
structure Peer where
  /-- The header `X-Forwarded-For`. -/
  forwardedFor : Str
  /-- The header `X-Real-IP`. -/
  realIP : Str
  remoteAddr : Str

def clientIP (peer : Peer) : Str :=
  let forwarded := Text.trimSpace ((Text.splitOn ',' peer.forwardedFor).headD [])
  let real := Text.trimSpace peer.realIP
  if peer.forwardedFor ≠ [] ∧ forwarded ≠ [] then forwarded
  else if real ≠ [] then real
  else
    match Gateway.splitHostPort peer.remoteAddr with
    | .ok (host, _) => host
    | .error _ => peer.remoteAddr

example : clientIP ⟨"203.0.113.9, 10.0.0.1".toList, [], "10.0.0.1:4711".toList⟩ = "203.0.113.9".toList := by
  decide

universe u v w

variable {S : Type u} {R : Type v} {E : Type w}

/-- A request, with its address and time, or an event of the server itself, and what the handler did,
unless the request was refused. -/
structure Entry (R : Type v) (E : Type w) where
  origin : Option (Str × ℚ)
  carried : R
  outcome : Option (List E)

/-- The limiter in front of a handler with its state, and the log of what came. -/
structure Front (S : Type u) (R : Type v) (E : Type w) where
  limiter : IPRateLimiter
  clock : ℚ
  inner : S
  log : List (Entry R E)

inductive Action (R : Type v) where
  | request (peer : Peer) (now : ℚ) (r : R)
  /-- What the server does by itself. -/
  | inside (r : R)
  | sweep (now : ℚ)

def Action.arrival : Action R → Option (Option (Str × ℚ) × R)
  | .request peer now r => some (some (clientIP peer, now), r)
  | .inside r => some (none, r)
  | .sweep _ => none

section Step

variable (next : S → R → S × List E)

def Front.handle (f : Front S R E) (origin : Option (Str × ℚ)) (r : R) : Front S R E :=
  { f with inner := (next f.inner r).1, log := f.log ++ [⟨origin, r, some (next f.inner r).2⟩] }

/-- The status 429. -/
def Front.refuse (f : Front S R E) (origin : Option (Str × ℚ)) (r : R) : Front S R E :=
  { f with log := f.log ++ [⟨origin, r, none⟩] }

def Front.charge (f : Front S R E) (ip : Str) (now : ℚ) : Front S R E :=
  { f with limiter := (f.limiter.allow ip now).2, clock := max f.clock now }

def rateLimit (f : Front S R E) (peer : Peer) (now : ℚ) (r : R) : Front S R E :=
  let ip := clientIP peer
  if (f.limiter.allow ip now).1 then (f.charge ip now).handle next (some (ip, now)) r
  else (f.charge ip now).refuse (some (ip, now)) r

def step (f : Front S R E) : Action R → Front S R E × List Unit
  | .request peer now r => (rateLimit next f peer now r, [])
  | .inside r => (f.handle next none r, [])
  | .sweep now => ({ f with limiter := f.limiter.sweep visitorTTL now, clock := max f.clock now }, [])

end Step

def fresh (start : ℚ) (s : S) : Front S R E := ⟨globalLimiter, start, s, []⟩

/-- A request reads the clock no earlier than anything before it. -/
def OnTime (f : Front S R E) : Action R → Prop
  | .request _ now _ => f.clock ≤ now
  | .inside _ | .sweep _ => True

/-- When a request of the address was let through. -/
def Entry.passed (ip : Str) (e : Entry R E) : Option ℚ :=
  e.origin.bind fun o => if o.1 = ip ∧ e.outcome.isSome = true then some o.2 else none

def letThrough (ip : Str) (log : List (Entry R E)) : List ℚ := log.filterMap (Entry.passed ip)

/-- How many requests of the address were let through from a time on. -/
def countFrom (ip : Str) (start : ℚ) (log : List (Entry R E)) : Nat := taken start (letThrough ip log)

/-- What the handler was given. -/
def handled (log : List (Entry R E)) : List R :=
  log.filterMap fun e => if e.outcome.isSome then some e.carried else none

/-- What has to become of an entry behind those before it. -/
structure Due (next : S → R → S × List E) (s : S) (before : List (Entry R E)) (e : Entry R E) : Prop where
  refused : e.outcome = none ↔ ∃ ip now, e.origin = some (ip, now) ∧ ∃ start, start ≤ now ∧
    100 + (now - start) * 50 < (countFrom ip start before : ℚ) + 1
  answered : ∀ es, e.outcome = some es → es = (next (Run.final next s (handled before)) e.carried).2

variable {next : S → R → S × List E} {s : S} {f : Front S R E}

theorem letThrough_concat (ip : Str) (es : List (Entry R E)) (e : Entry R E) :
    letThrough ip (es ++ [e]) = letThrough ip es ++ (e.passed ip).toList := by
  unfold letThrough
  rw [List.filterMap_append, List.filterMap_cons]
  cases e.passed ip with
  | none => rfl
  | some t => rfl

theorem handled_concat (es : List (Entry R E)) (e : Entry R E) :
    handled (es ++ [e]) = handled es ++ if e.outcome.isSome then [e.carried] else [] := by
  unfold handled
  rw [List.filterMap_append, List.filterMap_cons]
  cases e.outcome with
  | none => rfl
  | some es => rfl

/-- The buckets stand for the requests that were let through, the handler has run on what it was
given, and every entry is as it has to be. -/
structure Accounted (next : S → R → S × List E) (s : S) (f : Front S R E) : Prop where
  sound : RateLimiter.Sound ⟨f.limiter, f.clock⟩
  account : ∀ ip, Account globalParams f.clock (f.limiter.visitors ip) (letThrough ip f.log)
  inner : f.inner = Run.final next s (handled f.log)
  due : ∀ before e after, f.log = before ++ e :: after → Due next s before e

theorem accounted_fresh (start : ℚ) : Accounted next s (fresh start s : Front S R E) where
  sound := ⟨rfl, rfl, fun _ _ hb => by cases hb⟩
  account _ := account_none _ _
  inner := rfl
  due before e after h := by
    have hlen := congrArg List.length h
    simp [fresh] at hlen

/-- With one entry more the entries are as they have to be if that one is. -/
theorem due_concat {log : List (Entry R E)}
    (h : ∀ before e after, log = before ++ e :: after → Due next s before e) {e : Entry R E}
    (he : Due next s log e) :
    ∀ before d after, log ++ [e] = before ++ d :: after → Due next s before d := by
  intro before d after hsplit
  rcases List.eq_nil_or_concat after with rfl | ⟨after, x, rfl⟩
  · obtain ⟨rfl, hd⟩ := List.append_inj' hsplit rfl
    cases hd
    exact he
  · rw [List.concat_eq_append] at hsplit
    have hassoc : before ++ d :: (after ++ [x]) = (before ++ d :: after) ++ [x] := by simp
    rw [hassoc] at hsplit
    exact h before d after (List.append_inj' hsplit rfl).1

/-- What is let through is answered in the state that the handler has reached. -/
theorem Accounted.inside (h : Accounted next s f) (r : R) : Accounted next s (f.handle next none r) where
  sound := h.sound
  account ip := by
    have hnone : letThrough ip (f.handle next none r).log = letThrough ip f.log := by
      rw [Front.handle, letThrough_concat]
      exact List.append_nil _
    rw [hnone]
    exact h.account ip
  inner := by
    rw [Front.handle]
    dsimp only
    rw [handled_concat, Option.isSome_some, if_pos rfl, Run.final_append, ← h.inner]
    rfl
  due := by
    refine due_concat h.due ⟨?_, ?_⟩
    · constructor
      · intro hnone
        cases hnone
      · rintro ⟨_, _, horigin, _⟩
        cases horigin
    · intro es hes
      rw [← h.inner]
      exact (Option.some.inj hes).symm

/-- A request is let through exactly when it is not one too many. -/
theorem Accounted.refused_iff (h : Accounted next s f) (ip : Str) {now : ℚ} (htime : f.clock ≤ now) :
    (f.limiter.allow ip now).1 = false ↔ ∃ start, start ≤ now ∧
      100 + (now - start) * 50 < (countFrom ip start f.log : ℚ) + 1 := by
  have hallow : f.limiter.allow ip now = _ := allow_eq h.sound ip now
  have hwindows := (h.account ip).allowed_iff htime
  rw [hallow, ← Bool.not_eq_true, hwindows]
  push Not
  exact Iff.rfl

theorem Accounted.request (h : Accounted next s f) (peer : Peer) {now : ℚ} (r : R) (htime : f.clock ≤ now) :
    Accounted next s (rateLimit next f peer now r) := by
  have hallow : f.limiter.allow (clientIP peer) now = _ := allow_eq h.sound (clientIP peer) now
  have hrefused := h.refused_iff (clientIP peer) htime
  have hsound : RateLimiter.Sound ⟨(f.limiter.allow (clientIP peer) now).2, max f.clock now⟩ :=
    h.sound.allow (clientIP peer) now htime
  have haccount (outcome : Option (List E))
      (hsome : outcome.isSome = (f.limiter.allow (clientIP peer) now).1) (ip : Str) :
      Account globalParams (max f.clock now) ((f.limiter.allow (clientIP peer) now).2.visitors ip)
        (letThrough ip (f.log ++ [⟨some (clientIP peer, now), r, outcome⟩])) := by
    rw [letThrough_concat, Entry.passed, max_eq_right htime]
    simp only [hsome, hallow, IPRateLimiter.setVisitor]
    by_cases hip : ip = clientIP peer
    · subst hip
      have hcall := (h.account (clientIP peer)).call htime
      rw [if_pos rfl]
      cases hone : (call globalParams now (f.limiter.visitors (clientIP peer))).1 with
      | true => simpa [hone] using hcall
      | false => simpa [hone] using hcall
    · have hne : ¬ clientIP peer = ip := fun hsame => hip hsame.symm
      rw [if_neg hip]
      simpa [hne] using (h.account ip).alike htime fun _ _ => rfl
  unfold rateLimit
  dsimp only
  split
  · rename_i hallowed
    refine ⟨hsound, haccount _ hallowed.symm, ?_, due_concat h.due ⟨?_, ?_⟩⟩
    · rw [Front.handle]
      dsimp only
      rw [Front.charge, handled_concat, Option.isSome_some, if_pos rfl, Run.final_append, ← h.inner]
      rfl
    · constructor
      · intro hnone
        cases hnone
      · rintro ⟨ip, t, horigin, hwindow⟩
        cases horigin
        rw [hrefused.mpr hwindow] at hallowed
        cases hallowed
    · intro es hes
      rw [← h.inner]
      exact (Option.some.inj hes).symm
  · rename_i hallowed
    have hfalse : (f.limiter.allow (clientIP peer) now).1 = false := Bool.eq_false_iff.mpr hallowed
    refine ⟨hsound, haccount none hfalse.symm, ?_, due_concat h.due ⟨?_, ?_⟩⟩
    · rw [Front.refuse, Front.charge]
      dsimp only
      rw [handled_concat, Option.isSome_none, if_neg Bool.false_ne_true, List.append_nil]
      exact h.inner
    · exact iff_of_true rfl ⟨_, _, rfl, hrefused.mp hfalse⟩
    · intro es hes
      cases hes

theorem Accounted.sweep (h : Accounted next s f) (now : ℚ) :
    Accounted next s (step next f (.sweep now)).1 where
  sound := h.sound.sweep now
  account ip := (h.account ip).alike (le_max_left _ _) (alike_sweep h.sound now ip)
  inner := h.inner
  due := h.due

theorem Accounted.step (h : Accounted next s f) (a : Action R) (htime : OnTime f a) :
    Accounted next s (step next f a).1 := by
  cases a with
  | request peer now r => exact h.request peer r htime
  | inside r => exact h.inside r
  | sweep now => exact h.sweep now

theorem log_step (next : S → R → S × List E) (f : Front S R E) (a : Action R) :
    (step next f a).1.log.map (fun e => (e.origin, e.carried)) =
      f.log.map (fun e => (e.origin, e.carried)) ++ a.arrival.toList := by
  cases a with
  | request peer now r =>
    simp only [HttpFront.step, rateLimit]
    split
    · exact List.map_append
    · exact List.map_append
  | inside r => exact List.map_append
  | sweep now => exact (List.append_nil _).symm

theorem log_final (next : S → R → S × List E) (as : List (Action R)) (f : Front S R E) :
    (Run.final (step next) f as).log.map (fun e => (e.origin, e.carried)) =
      f.log.map (fun e => (e.origin, e.carried)) ++ as.filterMap Action.arrival := by
  induction as generalizing f with
  | nil => exact (List.append_nil _).symm
  | cons a as ih =>
    rw [Run.final, ih, log_step, List.append_assoc, List.filterMap_cons]
    cases a.arrival with
    | none => rfl
    | some x => rfl

/-- In every run all requests and events are logged in their order; a request is refused exactly when
it would be one too many in a window that ends with it, and anything else is answered by the handler
on what it was given before, which is without the requests that were refused. -/
theorem front_answers (next : S → R → S × List E) (s : S) (start : ℚ) (as : List (Action R))
    (htime : Run.Along (step next) OnTime (fresh start s) as) :
    (Run.final (step next) (fresh start s) as).log.map (fun e => (e.origin, e.carried)) =
        as.filterMap Action.arrival ∧
      (∀ before e after, (Run.final (step next) (fresh start s) as).log = before ++ e :: after →
        Due next s before e) ∧
      (Run.final (step next) (fresh start s) as).inner =
        Run.final next s (handled (Run.final (step next) (fresh start s) as).log) := by
  have haccounted : Accounted next s (Run.final (step next) (fresh start s) as) :=
    Run.inv_final (fun _ a h ha => h.step a ha) as _ (accounted_fresh start) htime
  exact ⟨log_final next as (fresh start s), haccounted.due, haccounted.inner⟩

open GatewayProcess (Process booted newWorld)
open PortalServer (localPortal loginAction)

/-- A client that sends no headers. -/
def laptop : Peer := ⟨[], [], "10.0.0.7:4711".toList⟩

/-- Two logins with a sweep between them, long after the first. -/
def loginsAndSweep : List (Action GatewayProcess.Event) :=
  [.request laptop 0 (.portal loginAction), .sweep 700, .request laptop 700 (.portal loginAction)]

theorem front_answers_loginsAndSweep :
    (Run.final (step (Process.act localPortal)) (fresh 0 (booted newWorld)) loginsAndSweep).log.map
          (fun e => (e.origin, e.carried)) = loginsAndSweep.filterMap Action.arrival ∧
      (∀ before e after,
        (Run.final (step (Process.act localPortal)) (fresh 0 (booted newWorld)) loginsAndSweep).log =
          before ++ e :: after → Due (Process.act localPortal) (booted newWorld) before e) ∧
      (Run.final (step (Process.act localPortal)) (fresh 0 (booted newWorld)) loginsAndSweep).inner =
        Run.final (Process.act localPortal) (booted newWorld)
          (handled (Run.final (step (Process.act localPortal)) (fresh 0 (booted newWorld))
            loginsAndSweep).log) := by
  refine front_answers (Process.act localPortal) (booted newWorld) 0 loginsAndSweep
    ⟨le_refl _, trivial, ?_, trivial⟩
  have hclock : (rateLimit (Process.act localPortal) (fresh 0 (booted newWorld)) laptop 0
      (.portal loginAction)).clock = 0 := by
    unfold rateLimit
    dsimp only
    split
    · rfl
    · rfl
  show max (rateLimit _ _ _ _ _).clock 700 ≤ 700
  rw [hclock]
  norm_num

end Janus.HttpFront
