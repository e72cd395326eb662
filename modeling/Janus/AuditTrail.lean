import Janus.Lib.Channel
import Janus.ResultMasking

/-!
# The audit trail

A call that has run queues its entry for the one worker that writes the rows. `AuditHub.act`
lets calls, the worker and the end of the process take their steps in any order. The process
ends when no handler is at work: the loop over stdio has read the end of its input, or the
shutdown has waited for the handlers. Nothing waits for the worker.
-/

namespace Janus.Server

set_option autoImplicit false

open Storage Redaction

/-- A row of `audit_logs`, without its time. -/
structure AuditLog where
  id : Str
  clientIdentity : Str
  toolName : Str
  status : Str
  durationMS : Nat
  errorMessage : Option Str
  deriving Repr, DecidableEq

/-- The summary of the redaction goes into the message. -/
def auditMessage (e : AuditLogEntry) : Str :=
  if e.redaction ≠ [] then
    if e.errMsg ≠ [] then e.errMsg ++ "; redacted: ".toList ++ e.redaction
    else "redacted: ".toList ++ e.redaction
  else e.errMsg

/-- The row that `LogAudit` inserts for an entry. -/
def auditRow (e : AuditLogEntry) : AuditLog where
  id := e.id
  clientIdentity := e.identity
  toolName := e.tool
  status := e.status
  durationMS := e.duration
  errorMessage := if auditMessage e = [] then none else some (auditMessage e)

/-- A call whose `callTool` has returned. -/
structure ExecutedCall where
  number : Nat
  identity : Str
  tool : Str
  outcome : Except CallError Str
  entry : AuditLogEntry

/-- The server with its worker, and what has become of the calls so far. -/
structure AuditHub where
  srv : MCPServer
  /-- The entry that the worker has taken. -/
  hand : Option AuditLogEntry
  rows : List AuditLog
  exited : Bool
  executed : List ExecutedCall
  /-- Calls between `callTool` and `logAuditAsync`. -/
  pending : List ExecutedCall
  queued : List ExecutedCall
  dropped : List ExecutedCall

def newAuditHub (srv : MCPServer) : AuditHub := ⟨{ srv with auditCh := [] }, none, [], false, [], [], [], []⟩

inductive AuditAction where
  | execute (k : Nat) (env : Env) (identity role : Str) (scopes : List Str) (req : JSONRPCRequest)
  | log (k : Nat)
  | take
  | persist
  | exit

/-- A request handled up to the return of `callTool`. -/
def AuditHub.execute (h : AuditHub) (k : Nat) (env : Env) (identity role : Str) (scopes : List Str)
    (req : JSONRPCRequest) : AuditHub :=
  if h.executed.any fun x => x.number = k then h
  else
    match reachedCall env role scopes req h.srv with
    | none => { h with srv := (handleRequest env identity role scopes req h.srv).2 }
    | some call =>
      let args := redactArgs h.srv.redactor call.arguments
      let out := callTool env call.name args.1 h.srv
      let x : ExecutedCall :=
        ⟨k, identity, call.name, out.1, auditEntry env identity call.name args.2 h.srv.redactor out.1⟩
      { h with srv := out.2, executed := h.executed ++ [x], pending := h.pending ++ [x] }

def AuditHub.log (h : AuditHub) (k : Nat) : AuditHub × List ExecutedCall :=
  match h.pending.find? fun x => x.number = k with
  | none => (h, [])
  | some x =>
    let h' := { h with
      srv := logAuditAsync x.entry h.srv
      pending := h.pending.eraseP fun x => x.number = k }
    if h.srv.auditCh.length < 1000 then ({ h' with queued := h.queued ++ [x] }, [])
    else ({ h' with dropped := h.dropped ++ [x] }, [x])

def AuditHub.take (h : AuditHub) : AuditHub :=
  match h.hand, h.srv.auditCh with
  | none, e :: rest => { h with srv := { h.srv with auditCh := rest }, hand := some e }
  | _, _ => h

def AuditHub.persist (h : AuditHub) : AuditHub :=
  match h.hand with
  | some e => { h with hand := none, rows := h.rows ++ [auditRow e] }
  | none => h

/-- A step of the process. What it emits are the calls whose entries it drops. -/
def AuditHub.act (h : AuditHub) (a : AuditAction) : AuditHub × List ExecutedCall :=
  if h.exited then (h, [])
  else
    match a with
    | .execute k env identity role scopes req => (h.execute k env identity role scopes req, [])
    | .log k => h.log k
    | .take => (h.take, [])
    | .persist => (h.persist, [])
    | .exit => if h.pending.isEmpty then ({ h with exited := true }, []) else (h, [])

def AuditHub.channel (h : AuditHub) : Channel AuditLogEntry AuditLog := ⟨h.srv.auditCh, h.hand, h.rows⟩

theorem channel_log (h : AuditHub) (e : AuditLogEntry) :
    { h with srv := logAuditAsync e h.srv }.channel = h.channel.send 1000 e := by
  by_cases hroom : h.srv.auditCh.length < 1000
  · simp only [AuditHub.channel, Channel.send, logAuditAsync, if_pos hroom]
    exact (if_pos hroom).symm
  · simp only [AuditHub.channel, Channel.send, logAuditAsync, if_neg hroom]
    exact (if_neg hroom).symm

theorem channel_take (h : AuditHub) : h.take.channel = h.channel.receive := by
  simp only [AuditHub.take, Channel.receive, AuditHub.channel]
  split <;> simp_all

theorem channel_persist (h : AuditHub) : h.persist.channel = h.channel.finish auditRow := by
  simp only [AuditHub.persist, Channel.finish, AuditHub.channel]
  split <;> simp_all

def statusOf : Except CallError Str → Str
  | .error _ => "failure".toList
  | .ok _ => "success".toList

/-- The row tells who called what, and whether it failed. -/
structure RowOf (x : ExecutedCall) (row : AuditLog) : Prop where
  identity : row.clientIdentity = x.identity
  tool : row.toolName = x.tool
  status : row.status = statusOf x.outcome

theorem rowOf_auditEntry (k : Nat) (env : Env) (identity tool : Str) (findings : List Finding)
    (redactor : Option Redactor) (outcome : Except CallError Str) :
    RowOf ⟨k, identity, tool, outcome, auditEntry env identity tool findings redactor outcome⟩
      (auditRow (auditEntry env identity tool findings redactor outcome)) := by
  cases outcome <;> exact ⟨rfl, rfl, rfl⟩

def ExecutedCall.row (x : ExecutedCall) : AuditLog := auditRow x.entry

structure Accounted (h : AuditHub) : Prop where
  numbers : (h.executed.map ExecutedCall.number).Nodup
  recorded : ∀ x ∈ h.executed, RowOf x x.row
  fate : h.executed.Perm (h.queued ++ h.dropped ++ h.pending)
  contents : h.channel.contents auditRow = h.queued.map ExecutedCall.row
  finished : h.exited = true → h.pending = []

theorem perm_eraseP {α : Type} {p : α → Bool} {l : List α} {x : α} (h : l.find? p = some x) :
    l.Perm (x :: l.eraseP p) := by
  obtain ⟨hx, before, after, rfl, hbefore⟩ := List.find?_eq_some_iff_append.mp h
  have herase : (before ++ x :: after).eraseP p = before ++ after := by
    rw [List.eraseP_append_right]
    · rw [List.eraseP_cons_of_pos hx]
    · intro a ha
      simpa using hbefore a ha
  rw [herase]
  exact List.perm_middle

theorem Accounted.execute {h : AuditHub} (ha : Accounted h) (hrun : h.exited = false) (k : Nat) (env : Env)
    (identity role : Str) (scopes : List Str) (req : JSONRPCRequest) :
    Accounted (h.execute k env identity role scopes req) := by
  unfold AuditHub.execute
  split
  · exact ha
  · rename_i hfresh
    have hfresh : ∀ x ∈ h.executed, x.number ≠ k := by simpa using hfresh
    cases hcall : reachedCall env role scopes req h.srv with
    | none =>
      simp only [(handleRequest_not_reached hcall).1]
      exact ha
    | some call =>
      dsimp only
      refine ⟨?_, ?_, ?_, ?_, fun he => by simp [hrun] at he⟩
      · rw [List.map_append, List.nodup_append]
        refine ⟨ha.numbers, List.nodup_singleton _, ?_⟩
        intro a hin b hb hab
        obtain ⟨x, hx, rfl⟩ := List.mem_map.mp hin
        exact hfresh x hx (hab.trans (List.mem_singleton.mp hb))
      · intro x hx
        rcases List.mem_append.mp hx with hx | hx
        · exact ha.recorded x hx
        · rw [List.mem_singleton.mp hx]
          exact rowOf_auditEntry ..
      · rw [← List.append_assoc]
        exact ha.fate.append_right _
      · refine Eq.trans ?_ ha.contents
        simp only [AuditHub.channel, auditCh_callTool]

/-- A call that nothing comes between is the handling of its request. -/
theorem Accounted.handleRequest {h : AuditHub} (ha : Accounted h) {k : Nat}
    (hfresh : ∀ x ∈ h.executed, x.number ≠ k) (env : Env) (identity role : Str) (scopes : List Str)
    (req : JSONRPCRequest) :
    ((h.execute k env identity role scopes req).log k).1.srv =
      (handleRequest env identity role scopes req h.srv).2 := by
  have hany : (h.executed.any fun x => x.number = k) = false := by
    rw [List.any_eq_false]
    intro x hx
    simpa using hfresh x hx
  have hnone : h.pending.find? (fun x => x.number = k) = none := by
    refine List.find?_eq_none.mpr fun x hx => ?_
    have hmem : x ∈ h.executed := ha.fate.mem_iff.mpr (List.mem_append_right _ hx)
    simpa using hfresh x hmem
  unfold AuditHub.execute
  rw [hany]
  cases hcall : reachedCall env role scopes req h.srv with
  | none => simp [AuditHub.log, hnone]
  | some call =>
    rw [handleRequest_reached hcall]
    simp only [Bool.false_eq_true, if_false, AuditHub.log, List.find?_append, hnone]
    simp only [List.find?_cons, decide_true, Option.none_or]
    split <;> rfl

theorem Accounted.log {h : AuditHub} (ha : Accounted h) (hrun : h.exited = false) (k : Nat) :
    Accounted (h.log k).1 := by
  unfold AuditHub.log
  split
  · exact ha
  · rename_i x hx
    have hperm := perm_eraseP hx
    dsimp only
    split
    · rename_i hroom
      refine ⟨ha.numbers, ha.recorded, ?_, ?_, fun he => by simp [hrun] at he⟩
      · -- The call moves from the pending ones to the queued ones.
        refine ha.fate.trans ((hperm.append_left _).trans ?_)
        simp only [List.append_assoc]
        refine List.Perm.append_left _ ?_
        exact List.perm_middle
      · have hsend := Channel.contents_send auditRow x.entry (c := h.channel) hroom
        rw [← channel_log, ha.contents] at hsend
        simpa [ExecutedCall.row, AuditHub.channel] using hsend
    · rename_i hfull
      refine ⟨ha.numbers, ha.recorded, ?_, ?_, fun he => by simp [hrun] at he⟩
      · refine ha.fate.trans ((hperm.append_left _).trans ?_)
        simp only [List.append_assoc]
        exact List.Perm.refl _
      · have hsend := Channel.send_of_full x.entry (c := h.channel) hfull
        rw [← channel_log] at hsend
        exact (congrArg (Channel.contents auditRow) hsend).trans ha.contents

theorem Accounted.take {h : AuditHub} (ha : Accounted h) : Accounted h.take := by
  have hcontents : h.take.channel.contents auditRow = h.queued.map ExecutedCall.row := by
    rw [channel_take, Channel.contents_receive]
    exact ha.contents
  unfold AuditHub.take at *
  split at hcontents
  · rename_i e rest hhand hqueue
    exact ⟨ha.numbers, ha.recorded, ha.fate, hcontents, ha.finished⟩
  · exact ha

theorem Accounted.persist {h : AuditHub} (ha : Accounted h) : Accounted h.persist := by
  have hcontents : h.persist.channel.contents auditRow = h.queued.map ExecutedCall.row := by
    rw [channel_persist, Channel.contents_finish]
    exact ha.contents
  unfold AuditHub.persist at *
  split at hcontents
  · exact ⟨ha.numbers, ha.recorded, ha.fate, hcontents, ha.finished⟩
  · exact ha

theorem Accounted.act {h : AuditHub} (ha : Accounted h) (a : AuditAction) : Accounted (h.act a).1 := by
  unfold AuditHub.act
  split
  · exact ha
  · rename_i hrun
    have hrun : h.exited = false := by simpa using hrun
    cases a with
    | execute k env identity role scopes req => exact ha.execute hrun k env identity role scopes req
    | log k => exact ha.log hrun k
    | take => exact ha.take
    | persist => exact ha.persist
    | exit =>
      dsimp only
      split
      · rename_i hpending
        exact ⟨ha.numbers, ha.recorded, ha.fate, ha.contents, fun _ => List.isEmpty_iff.mp hpending⟩
      · exact ha

def Full (h : AuditHub) (_ : ExecutedCall) : Prop := 1000 ≤ h.srv.auditCh.length

/-- An entry is dropped only when a thousand wait. -/
theorem full_of_dropped (h : AuditHub) (a : AuditAction) : ∀ x ∈ (h.act a).2, Full h x := by
  intro x hx
  unfold AuditHub.act at hx
  split at hx
  · cases hx
  · cases a with
    | log k =>
      simp only [AuditHub.log] at hx
      split at hx
      · cases hx
      · split at hx
        · cases hx
        · rename_i hfull
          exact Nat.le_of_not_lt hfull
    | exit =>
      dsimp only at hx
      split at hx <;> cases hx
    | execute k env identity role scopes req => cases hx
    | take => cases hx
    | persist => cases hx

theorem dropped_act (h : AuditHub) (a : AuditAction) : (h.act a).1.dropped = h.dropped ++ (h.act a).2 := by
  unfold AuditHub.act
  split
  · exact (List.append_nil _).symm
  · cases a with
    | execute k env identity role scopes req =>
      dsimp only [AuditHub.execute]
      split
      · exact (List.append_nil _).symm
      · split <;> exact (List.append_nil _).symm
    | log k =>
      dsimp only [AuditHub.log]
      split
      · exact (List.append_nil _).symm
      · split
        · exact (List.append_nil _).symm
        · rfl
    | take =>
      dsimp only [AuditHub.take]
      split <;> exact (List.append_nil _).symm
    | persist =>
      dsimp only [AuditHub.persist]
      split <;> exact (List.append_nil _).symm
    | exit =>
      dsimp only
      split <;> exact (List.append_nil _).symm

theorem dropped_final (actions : List AuditAction) (h : AuditHub) :
    (Run.final AuditHub.act h actions).dropped = h.dropped ++ Run.events AuditHub.act h actions := by
  induction actions generalizing h with
  | nil => exact (List.append_nil _).symm
  | cons a actions ih =>
    rw [Run.final, ih, dropped_act, Run.events_cons, List.append_assoc]

/-- Every call that has run has a row of its own, and there are no other rows. -/
def AllAudited (h : AuditHub) : Prop := h.rows.Perm (h.executed.map ExecutedCall.row)

/-- Nothing is left for the worker. -/
def Drained (h : AuditHub) : Prop := h.hand = none ∧ h.srv.auditCh = []

/-- What is known of the rows after a run in which the entries of the calls `lost` were dropped. -/
structure Trail (h : AuditHub) (lost : List ExecutedCall) : Prop where
  numbers : (h.executed.map ExecutedCall.number).Nodup
  recorded : ∀ x ∈ h.executed, RowOf x x.row
  /-- The rows are those of the first entries that were queued. -/
  rows : h.rows <+: h.queued.map ExecutedCall.row
  /-- What has been queued is written, in the worker's hand or waiting. -/
  contents : h.queued.map ExecutedCall.row = h.rows ++ (h.hand.toList ++ h.srv.auditCh).map auditRow
  drained : Drained h → h.rows = h.queued.map ExecutedCall.row
  /-- Each call that has run is queued, dropped or on its way to the queue. -/
  fate : h.executed.Perm (h.queued ++ lost ++ h.pending)
  finished : h.exited = true → h.pending = []
  complete : h.exited = true → (AllAudited h ↔ lost = [] ∧ Drained h)

theorem Accounted.trail {h : AuditHub} (ha : Accounted h) : Trail h h.dropped := by
  have hdrained : Drained h → h.rows = h.queued.map ExecutedCall.row := fun hd =>
    (Channel.results_of_idle auditRow (c := h.channel) hd.2 hd.1).trans ha.contents
  have hfate : h.exited = true → h.executed.Perm (h.queued ++ h.dropped) := by
    intro hexit
    simpa [ha.finished hexit] using ha.fate
  refine ⟨ha.numbers, ha.recorded, ?_, ha.contents.symm, hdrained, ha.fate, ha.finished, ?_⟩
  · rw [← ha.contents]
    exact Channel.results_prefix auditRow h.channel
  · intro hexit
    constructor
    · intro hall
      have hrows : h.rows.length = h.executed.length := by simpa using hall.length_eq
      have hcalls : h.executed.length = h.queued.length + h.dropped.length := by
        simpa using (hfate hexit).length_eq
      have hcontents : h.rows.length + (h.hand.toList.length + h.srv.auditCh.length) =
          h.queued.length := by
        simpa [Channel.contents, AuditHub.channel] using congrArg List.length ha.contents
      refine ⟨List.length_eq_zero_iff.mp (by omega), ?_, List.length_eq_zero_iff.mp (by omega)⟩
      exact Option.toList_eq_nil_iff.mp (List.length_eq_zero_iff.mp (by omega))
    · rintro ⟨hlost, hd⟩
      have hperm := hfate hexit
      rw [hlost, List.append_nil] at hperm
      rw [AllAudited, hdrained hd]
      exact (hperm.map _).symm

/-- In every run the rows are those of calls that have run, in the order in which their entries
were queued. A call is left without a row when its entry is dropped, because a thousand were
waiting, or when the process ends before the worker has come to it; in no other case. -/
theorem audit_trail (srv : MCPServer) (actions : List AuditAction) :
    Trail (Run.final AuditHub.act (newAuditHub srv) actions)
        (Run.events AuditHub.act (newAuditHub srv) actions) ∧
      ∀ e ∈ Run.trace AuditHub.act (newAuditHub srv) actions, Full e.1 e.2 := by
  have hstart : Accounted (newAuditHub srv) :=
    ⟨List.nodup_nil, fun x hx => absurd hx List.not_mem_nil, List.Perm.refl _, rfl, fun _ => rfl⟩
  have htrue : Run.Along AuditHub.act (fun _ _ => True) (newAuditHub srv) actions :=
    Run.along_of_forall (fun _ _ => trivial) actions (newAuditHub srv)
  constructor
  · have hfinal : Accounted (Run.final AuditHub.act (newAuditHub srv) actions) :=
      Run.inv_final (fun _ a ha _ => ha.act a) actions _ hstart htrue
    have hdropped := dropped_final actions (newAuditHub srv)
    simp only [newAuditHub, List.nil_append] at hdropped
    have htrail := hfinal.trail
    rw [newAuditHub, hdropped] at htrail
    exact htrail
  · exact Run.good_trace (fun h a (ha : Accounted h) _ => ha.act a) (fun h a _ _ => full_of_dropped h a)
      actions _ hstart htrue

def mailExecute (k : Nat) : AuditAction :=
  .execute k (mailEnv 200) ['u'] "user".toList [['*']] mailRequest

/-- The call is made and its entry is queued; the input ends before the worker runs. -/
def earlyExit : List AuditAction := [mailExecute 0, .log 0, .exit]

theorem earlyExit_not_audited :
    ¬ ∀ actions, (Run.final AuditHub.act (newAuditHub mailServer) actions).exited = true →
      AllAudited (Run.final AuditHub.act (newAuditHub mailServer) actions) := by
  intro h
  have hexit : (Run.final AuditHub.act (newAuditHub mailServer) earlyExit).exited = true := by
    decide +kernel
  have hrows : (Run.final AuditHub.act (newAuditHub mailServer) earlyExit).rows.length = 0 := by
    decide +kernel
  have hcalls : (Run.final AuditHub.act (newAuditHub mailServer) earlyExit).executed.length = 1 := by
    decide +kernel
  have hlength := (h earlyExit hexit).length_eq
  rw [hrows, List.length_map, hcalls] at hlength
  cases hlength

end Janus.Server
