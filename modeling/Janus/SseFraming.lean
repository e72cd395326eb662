import Janus.Lib.EventStream
import Janus.Lib.Run

/-!
# The stream of an SSE session

Embedding of `Session.writeEvent` and its callers: the handler of the stream, which writes
the endpoint event and the keepalives, and the handlers of the POST requests, which write
responses. They run at the same time, a write takes the lock of the session and goes out
piece by piece. Whatever has been written is read as the endpoint and the responses
(`parse_stream`).
-/

namespace Janus.SseFraming

set_option autoImplicit false

open EventStream

/-- A text without an end of line, as a session id and an encoded response are. -/
abbrev LineText := { s : Str // OneLine s }

/-- What `writeEvent` is called with. -/
inductive Event where
  | endpoint (sessionID : LineText)
  | message (payload : LineText)
  | keepalive

def Event.text : Event → Str
  | .endpoint sessionID =>
    "event: endpoint\ndata: /messages?sessionId=".toList ++ sessionID.1 ++ "\n\n".toList
  | .message payload => "event: message\ndata: ".toList ++ payload.1 ++ "\n\n".toList
  | .keepalive => ": keepalive\n\n".toList

def endpointMessage (sessionID : LineText) : Message :=
  ⟨"endpoint".toList, "/messages?sessionId=".toList ++ sessionID.1⟩

def responseMessage (payload : LineText) : Message := ⟨"message".toList, payload.1⟩

/-- What a client is to read of an event. -/
def Event.read : Event → List Message
  | .endpoint sessionID => [endpointMessage sessionID]
  | .message payload => [responseMessage payload]
  | .keepalive => []

def Event.lines : Event → List Str
  | .endpoint sessionID =>
    ["event: endpoint".toList, "data: /messages?sessionId=".toList ++ sessionID.1]
  | .message payload => ["event: message".toList, "data: ".toList ++ payload.1]
  | .keepalive => [": keepalive".toList]

theorem lines_proper (e : Event) : ∀ l ∈ e.lines, l ≠ [] ∧ OneLine l := by
  have hdata (name : Str) (hne : name ≠ []) (hname : OneLine name) (value : LineText) :
      name ++ value.1 ≠ [] ∧ OneLine (name ++ value.1) :=
    ⟨List.append_ne_nil_of_left_ne_nil hne value.1, oneLine_append.mpr ⟨hname, value.2⟩⟩
  intro l hl
  cases e with
  | endpoint sessionID =>
    rcases List.mem_cons.mp hl with rfl | hl
    · exact ⟨by decide, by decide⟩
    · obtain rfl := List.mem_singleton.mp hl
      exact hdata "data: /messages?sessionId=".toList (by decide) (by decide) sessionID
  | message payload =>
    rcases List.mem_cons.mp hl with rfl | hl
    · exact ⟨by decide, by decide⟩
    · obtain rfl := List.mem_singleton.mp hl
      exact hdata "data: ".toList (by decide) (by decide) payload
  | keepalive =>
    obtain rfl := List.mem_singleton.mp hl
    exact ⟨by decide, by decide⟩

def Event.frame (e : Event) : Frame := ⟨e.lines, lines_proper e⟩

/-- The two lines of an event with data, as the formats of the code write them. -/
theorem text_pair {start first second : Str} (hstart : start = first ++ '\n' :: second) (value : Str) :
    linesText [first, second ++ value] ++ ['\n'] = start ++ value ++ "\n\n".toList := by
  have hend : "\n\n".toList = ['\n', '\n'] := by decide
  rw [hstart, hend]
  simp only [linesText, List.flatMap_cons, List.flatMap_nil, List.append_nil, List.append_assoc,
    List.cons_append, List.nil_append]

theorem text_frame (e : Event) : e.frame.text = e.text := by
  cases e with
  | endpoint sessionID =>
    have hstart : "event: endpoint\ndata: /messages?sessionId=".toList =
        "event: endpoint".toList ++ '\n' :: "data: /messages?sessionId=".toList := by decide
    exact text_pair hstart sessionID.1
  | message payload =>
    have hstart : "event: message\ndata: ".toList =
        "event: message".toList ++ '\n' :: "data: ".toList := by decide
    exact text_pair hstart payload.1
  | keepalive => decide

/-- The data of an event are one line that is kept as it is, a leading space too. -/
theorem dispatch_data (name value : Str) (hne : name ≠ [])
    (hname : (Buffers.empty.line ("event: ".toList ++ name)).1 = ⟨name, []⟩) :
    (afterLines .empty ["event: ".toList ++ name, "data: ".toList ++ value]).dispatch =
      [⟨name, value⟩] := by
  have hline : ((⟨name, []⟩ : Buffers).line ("data: ".toList ++ value)).1 = ⟨name, value ++ ['\n']⟩ := rfl
  have hdata : value ++ ['\n'] ≠ [] := List.append_ne_nil_of_right_ne_nil value (List.cons_ne_nil _ _)
  simp only [afterLines, List.foldl_cons, List.foldl_nil, hname, hline]
  rw [Buffers.dispatch, if_neg hdata, if_neg hne, Text.trimSuffix_append]

theorem messages_frame (e : Event) : e.frame.messages = e.read := by
  cases e with
  | endpoint sessionID =>
    exact dispatch_data "endpoint".toList ("/messages?sessionId=".toList ++ sessionID.1) (by decide)
      (by decide)
  | message payload => exact dispatch_data "message".toList payload.1 (by decide) (by decide)
  | keepalive => decide

/-- A `writeEvent` that holds the lock, with what it has sent of its event. -/
structure Writer where
  caller : Nat
  event : Event
  sent : Str
  rest : Str
  whole : sent ++ rest = event.text

inductive Call where
  | waiting (e : Event)
  | writing
  | returned

/-- The stream as the client has it, the lock and the calls. The handler of the stream is
caller 0, the POST handlers are the others. -/
structure Session where
  stream : Str
  writeMu : Option Writer
  calls : Nat → Option Call

inductive Action where
  | tick
  | respond (post : Nat) (payload : LineText)
  | lock (caller : Nat)
  | write
  | unlock

def Session.setCall (s : Session) (i : Nat) (c : Call) : Session :=
  { s with calls := fun j => if j = i then some c else s.calls j }

/-- The session as `ServeSSE` enters it in the map, about to send the endpoint event. -/
def opened (sessionID : LineText) : Session where
  stream := []
  writeMu := none
  calls := fun i => if i = 0 then some (.waiting (.endpoint sessionID)) else none

/-- One step of one caller, with the event that it completes. The stream is the only place that
tells a session id, so a POST finds the session only when some of it has been sent. -/
def step (s : Session) : Action → Session × List Event
  | .tick =>
    match s.calls 0 with
    | some .returned => (s.setCall 0 (.waiting .keepalive), [])
    | _ => (s, [])
  | .respond post payload =>
    if s.stream = [] then (s, [])
    else
      match s.calls (post + 1) with
      | none => (s.setCall (post + 1) (.waiting (.message payload)), [])
      | some _ => (s, [])
  | .lock caller =>
    match s.writeMu, s.calls caller with
    | none, some (.waiting e) =>
      ({ s.setCall caller .writing with writeMu := some ⟨caller, e, [], e.text, rfl⟩ }, [])
    | _, _ => (s, [])
  | .write =>
    match s.writeMu with
    | some ⟨caller, e, sent, c :: rest, hwhole⟩ =>
      ({ s with
          stream := s.stream ++ [c]
          writeMu := some ⟨caller, e, sent ++ [c], rest, by rw [List.append_assoc]; exact hwhole⟩ },
        if rest = [] then [e] else [])
    | _ => (s, [])
  | .unlock =>
    match s.writeMu with
    | some ⟨caller, _, _, [], _⟩ => ({ s.setCall caller .returned with writeMu := none }, [])
    | _ => (s, [])

/-- All events but the first. -/
def Event.Later : Event → Prop
  | .endpoint _ => False
  | _ => True

def Session.Later (s : Session) : Prop := ∀ i e, s.calls i = some (.waiting e) → e.Later

theorem later_setCall {s : Session} (h : s.Later) {c : Call} (hc : ∀ e, c = .waiting e → e.Later)
    (i : Nat) : (s.setCall i c).Later := by
  intro j e hj
  by_cases hij : j = i
  · simp only [Session.setCall, if_pos hij, Option.some.injEq] at hj
    exact hc e hj
  · simp only [Session.setCall, if_neg hij] at hj
    exact h j e hj

theorem step_cases (s : Session) (a : Action) :
    step s a = (s, []) ∨
    (∃ i e, e.Later ∧ (s.calls 0 = some .returned ∨ s.stream ≠ []) ∧
      step s a = (s.setCall i (.waiting e), [])) ∨
    (∃ i e, s.writeMu = none ∧ s.calls i = some (.waiting e) ∧
      step s a = ({ s.setCall i .writing with writeMu := some ⟨i, e, [], e.text, rfl⟩ }, [])) ∨
    (∃ w w' c, s.writeMu = some w ∧ w.rest = c :: w'.rest ∧ w'.sent = w.sent ++ [c] ∧
      w'.event = w.event ∧
      step s a = ({ s with stream := s.stream ++ [c], writeMu := some w' },
        if w'.rest = [] then [w.event] else [])) ∨
    ∃ w, s.writeMu = some w ∧ w.rest = [] ∧
      step s a = ({ s.setCall w.caller .returned with writeMu := none }, []) := by
  cases a with
  | tick =>
    simp only [step]
    split
    · next h0 =>
      right; left
      exact ⟨0, .keepalive, trivial, Or.inl h0, rfl⟩
    · exact Or.inl rfl
  | respond post payload =>
    simp only [step]
    split
    · exact Or.inl rfl
    · next hne =>
      split
      · right; left
        exact ⟨post + 1, .message payload, trivial, Or.inr hne, rfl⟩
      · exact Or.inl rfl
  | lock caller =>
    simp only [step]
    split
    · next e hmu hcall =>
      right; right; left
      exact ⟨caller, e, hmu, hcall, rfl⟩
    · exact Or.inl rfl
  | write =>
    simp only [step]
    split
    · next caller e sent c rest hwhole hmu =>
      right; right; right; left
      exact ⟨_, ⟨caller, e, sent ++ [c], rest, by rw [List.append_assoc]; exact hwhole⟩, c, hmu, rfl,
        rfl, rfl, rfl⟩
    · exact Or.inl rfl
  | unlock =>
    simp only [step]
    split
    · next hmu =>
      right; right; right; right
      exact ⟨_, hmu, rfl, rfl⟩
    · exact Or.inl rfl

/-- What has been sent of an event that is not yet complete. -/
def Session.part (s : Session) : Str :=
  match s.writeMu with
  | none => []
  | some w => if w.rest = [] then [] else w.sent

def Sent (es : List Event) (s : Session) : Prop := s.stream = es.flatMap Event.text ++ s.part

theorem sent_step {es : List Event} {s : Session} (h : Sent es s) (a : Action) :
    Sent (es ++ (step s a).2) (step s a).1 := by
  rcases step_cases s a with he | ⟨i, e, _, _, he⟩ | ⟨i, e, hmu, _, he⟩ |
    ⟨w, w', c, hmu, hrest, hsent, hevent, he⟩ | ⟨w, hmu, hrest, he⟩
  · rw [he, List.append_nil]
    exact h
  · rw [he, List.append_nil]
    exact h
  · have hpart : s.part = [] := by rw [Session.part, hmu]
    rw [he, List.append_nil]
    unfold Sent at h ⊢
    rw [hpart] at h
    simp only [Session.part, ite_self]
    exact h
  · have hpart : s.part = w.sent := by
      simp only [Session.part, hmu, hrest, reduceCtorEq, if_false]
    unfold Sent at h ⊢
    rw [he]
    dsimp only
    rw [h, hpart, List.append_assoc, ← hsent]
    by_cases hend : w'.rest = []
    · have htext : w'.sent = w.event.text := by
        rw [← hevent, ← w'.whole, hend, List.append_nil]
      simp only [Session.part, if_pos hend, htext, List.flatMap_append, List.flatMap_cons,
        List.flatMap_nil, List.append_nil]
    · simp only [Session.part, if_neg hend, List.append_nil]
  · have hpart : s.part = [] := by
      simp only [Session.part, hmu, hrest, if_true]
    rw [he, List.append_nil]
    unfold Sent at h ⊢
    rw [hpart] at h
    exact h

/-- The session after the events `es`. -/
inductive Phase (sessionID : LineText) : List Event → Session → Prop where
  | fresh : Phase sessionID [] (opened sessionID)
  | opening {s : Session} {w : Writer} (hmu : s.writeMu = some w)
      (hevent : w.event = .endpoint sessionID) (hrest : w.rest ≠ []) (hlater : s.Later) :
      Phase sessionID [] s
  | running {s : Session} {es : List Event} (hes : ∀ e ∈ es, e.Later)
      (hmu : ∀ w, s.writeMu = some w → w.rest ≠ [] → w.event.Later) (hlater : s.Later) :
      Phase sessionID (.endpoint sessionID :: es) s

theorem later_opened (sessionID : LineText) : ((opened sessionID).setCall 0 .writing).Later := by
  intro i e hi
  by_cases h0 : i = 0
  · simp [Session.setCall, h0] at hi
  · simp [Session.setCall, opened, h0] at hi

theorem text_ne_nil (e : Event) : e.text ≠ [] := by
  have hend : "\n\n".toList ≠ [] := by decide
  cases e with
  | endpoint sessionID => exact List.append_ne_nil_of_right_ne_nil _ hend
  | message payload => exact List.append_ne_nil_of_right_ne_nil _ hend
  | keepalive => decide

/-- Nobody but the handler of the stream has anything to write. -/
theorem phase_opened (sessionID : LineText) (a : Action) :
    Phase sessionID (step (opened sessionID) a).2 (step (opened sessionID) a).1 := by
  rcases step_cases (opened sessionID) a with he | ⟨i, e, _, hstart, he⟩ | ⟨i, e, _, hcall, he⟩ |
    ⟨w, w', c, hmu, _, _, _, _⟩ | ⟨w, hmu, _, _⟩
  · rw [he]
    exact Phase.fresh
  · rcases hstart with h0 | hne
    · simp [opened] at h0
    · exact absurd rfl hne
  · rw [he]
    by_cases h0 : i = 0
    · subst h0
      have hevent : e = .endpoint sessionID := by simpa [opened] using hcall.symm
      exact Phase.opening rfl hevent (text_ne_nil e) (later_opened sessionID)
    · simp [opened, h0] at hcall
  · cases hmu
  · cases hmu

theorem phase_step {sessionID : LineText} {es : List Event} {s : Session} (h : Phase sessionID es s)
    (a : Action) : Phase sessionID (es ++ (step s a).2) (step s a).1 := by
  cases h with
  | fresh => exact phase_opened sessionID a
  | @opening s w hmu hevent hrest hlater =>
    rcases step_cases s a with he | ⟨i, e, hl, _, he⟩ | ⟨i, e, hfree, _, _⟩ |
      ⟨v, w', c, hv, _, _, hsame, he⟩ | ⟨v, hv, hdone, _⟩
    · rw [he]
      exact Phase.opening hmu hevent hrest hlater
    · rw [he]
      have hlater' : (s.setCall i (.waiting e)).Later := by
        apply later_setCall hlater
        rintro e' ⟨rfl⟩
        exact hl
      exact Phase.opening hmu hevent hrest hlater'
    · rw [hmu] at hfree
      cases hfree
    · obtain rfl : w = v := Option.some.inj (hmu.symm.trans hv)
      rw [he]
      by_cases hend : w'.rest = []
      · rw [if_pos hend, hevent]
        apply Phase.running
        · simp
        · rintro v ⟨rfl⟩ hne
          exact absurd hend hne
        · exact hlater
      · rw [if_neg hend]
        exact Phase.opening rfl (hsame.trans hevent) hend hlater
    · obtain rfl : w = v := Option.some.inj (hmu.symm.trans hv)
      exact absurd hdone hrest
  | @running s es hes hmu hlater =>
    rw [List.cons_append]
    rcases step_cases s a with he | ⟨i, e, hl, _, he⟩ | ⟨i, e, _, hcall, he⟩ |
      ⟨w, w', c, hw, hrest, _, hsame, he⟩ | ⟨w, hw, _, he⟩
    · rw [he, List.append_nil]
      exact Phase.running hes hmu hlater
    · rw [he, List.append_nil]
      have hlater' : (s.setCall i (.waiting e)).Later := by
        apply later_setCall hlater
        rintro e' ⟨rfl⟩
        exact hl
      exact Phase.running hes hmu hlater'
    · rw [he, List.append_nil]
      apply Phase.running hes
      · rintro w ⟨rfl⟩ _
        exact hlater i e hcall
      · apply later_setCall hlater
        rintro e' ⟨⟩
    · have hl : w.event.Later := hmu w hw (by simp [hrest])
      rw [he]
      apply Phase.running
      · intro e hmem
        rcases List.mem_append.mp hmem with hmem | hmem
        · exact hes e hmem
        · split at hmem
          · obtain rfl := List.mem_singleton.mp hmem
            exact hl
          · cases hmem
      · rintro v ⟨rfl⟩ _
        rw [hsame]
        exact hl
      · exact hlater
    · rw [he, List.append_nil]
      apply Phase.running hes
      · rintro v ⟨⟩
      · apply later_setCall hlater
        rintro e' ⟨⟩

theorem parse_sent {es : List Event} {s : Session} (h : Sent es s) :
    parse s.stream = es.flatMap Event.read := by
  have htexts : es.flatMap Event.text = (es.map Event.frame).flatMap Frame.text := by
    simp only [List.flatMap_map, text_frame]
  have hreads : es.flatMap Event.read = (es.map Event.frame).flatMap Frame.messages := by
    simp only [List.flatMap_map, messages_frame]
  rw [h, htexts, hreads]
  unfold Session.part
  cases s.writeMu with
  | none => exact parse_frames _ Event.keepalive.frame (text_ne_nil .keepalive) (text_frame .keepalive).symm
  | some w =>
    dsimp only
    split
    · exact parse_frames _ Event.keepalive.frame (text_ne_nil .keepalive) (text_frame .keepalive).symm
    · next hne => exact parse_frames _ w.event.frame hne (w.whole.trans (text_frame w.event).symm)

def Event.payload : Event → Option LineText
  | .message payload => some payload
  | _ => none

theorem read_later {es : List Event} (h : ∀ e ∈ es, e.Later) :
    es.flatMap Event.read = (es.filterMap Event.payload).map responseMessage := by
  induction es with
  | nil => rfl
  | cons e es ih =>
    obtain ⟨he, hes⟩ := List.forall_mem_cons.mp h
    rw [List.flatMap_cons, ih hes]
    cases e with
    | endpoint sessionID => exact he.elim
    | message payload => rfl
    | keepalive => rfl

end Janus.SseFraming
