import Janus.AuditTrail
import Janus.HealthCheck
import Janus.Lib.Decode
import Janus.Lib.NumberIntegers

/-!
# The records of the portal as JSON

What the handlers of the portal encode and decode. A record that is encoded and decoded
again is as it was, apart from the columns that the database computes itself.
-/

namespace Janus.Storage

set_option autoImplicit false

open Text (equalFold)

/-- A slice that was never appended to is encoded as `null`. -/
def listJson {α : Type} (encode : α → Json) (xs : List α) : Json :=
  if xs = [] then .null else .arr (xs.map encode)

def APIConnection.json (c : APIConnection) : Json := .obj
  [("id".toList, .str c.id), ("name".toList, .str c.name), ("description".toList, .str c.description),
    ("base_url".toList, .str c.baseURL), ("auth_type".toList, .str c.authType),
    ("auth_secret_ref".toList, .str c.authSecretRef), ("enabled".toList, .bool c.enabled),
    ("tool_prefix".toList, .str c.toolPrefix)]

def APIConnection.zero : APIConnection := ⟨[], [], [], [], [], [], false, []⟩

def APIConnection.assign (c : APIConnection) (k : Str) (v : Json) : Option APIConnection :=
  if equalFold k "id".toList then (Decode.str c.id v).map fun x => { c with id := x }
  else if equalFold k "name".toList then (Decode.str c.name v).map fun x => { c with name := x }
  else if equalFold k "description".toList then
    (Decode.str c.description v).map fun x => { c with description := x }
  else if equalFold k "base_url".toList then
    (Decode.str c.baseURL v).map fun x => { c with baseURL := x }
  else if equalFold k "auth_type".toList then
    (Decode.str c.authType v).map fun x => { c with authType := x }
  else if equalFold k "auth_secret_ref".toList then
    (Decode.str c.authSecretRef v).map fun x => { c with authSecretRef := x }
  else if equalFold k "enabled".toList then
    (Decode.bool c.enabled v).map fun x => { c with enabled := x }
  else if equalFold k "tool_prefix".toList then
    (Decode.str c.toolPrefix v).map fun x => { c with toolPrefix := x }
  else some c

def decodeConnection : Json → Option APIConnection := Decode.record APIConnection.assign .zero

theorem decodeConnection_json (c : APIConnection) : decodeConnection c.json = some c := rfl

def APIEndpoint.json (e : APIEndpoint) : Json := .obj
  [("id".toList, .str e.id), ("connection_id".toList, .str e.connectionID),
    ("tool_name".toList, .str e.toolName), ("tool_description".toList, .str e.toolDescription),
    ("path".toList, .str e.path), ("method".toList, .str e.method),
    ("parameters_schema".toList, .str e.parametersSchema), ("template".toList, .str e.template),
    ("definition_hash".toList, .str e.definitionHash), ("version".toList, .num (intLit e.version))]

def APIEndpoint.zero : APIEndpoint := ⟨[], [], [], [], [], [], [], [], [], 0⟩

/-- Whether a number is read into an `int`. -/
def isInt (n : NumLit) : Bool :=
  let digits := if Text.hasPrefix n.text ['-'] then n.text.drop 1 else n.text
  digits.all Char.isDigit &&
    digitsVal digits ≤ if Text.hasPrefix n.text ['-'] then 2 ^ 63 else 2 ^ 63 - 1

/-- The hash and the version are read and then replaced by `SaveEndpoint`. -/
def APIEndpoint.assign (e : APIEndpoint) (k : Str) (v : Json) : Option APIEndpoint :=
  if equalFold k "id".toList then (Decode.str e.id v).map fun x => { e with id := x }
  else if equalFold k "connection_id".toList then
    (Decode.str e.connectionID v).map fun x => { e with connectionID := x }
  else if equalFold k "tool_name".toList then
    (Decode.str e.toolName v).map fun x => { e with toolName := x }
  else if equalFold k "tool_description".toList then
    (Decode.str e.toolDescription v).map fun x => { e with toolDescription := x }
  else if equalFold k "path".toList then (Decode.str e.path v).map fun x => { e with path := x }
  else if equalFold k "method".toList then (Decode.str e.method v).map fun x => { e with method := x }
  else if equalFold k "parameters_schema".toList then
    (Decode.str e.parametersSchema v).map fun x => { e with parametersSchema := x }
  else if equalFold k "template".toList then
    (Decode.str e.template v).map fun x => { e with template := x }
  else if equalFold k "definition_hash".toList then (Decode.str [] v).map fun _ => e
  else if equalFold k "version".toList then
    match v with
    | .num n => if isInt n then some e else none
    | .null => some e
    | _ => none
  else some e

def decodeEndpoint : Json → Option APIEndpoint := Decode.record APIEndpoint.assign .zero

/-- An endpoint without what the database computes. -/
def APIEndpoint.posted (e : APIEndpoint) : APIEndpoint := { e with definitionHash := [], version := 0 }

theorem isInt_intLit {n : Nat} (h : n < 2 ^ 63) : isInt (intLit n) = true := by
  have hneg : ¬ (n : Int) < 0 := Int.not_lt.mpr (Int.natCast_nonneg n)
  have htext : (intLit (n : Int)).text = natDigits n := by
    simp [intLit, intText, sign, hneg]
  have hdigits : AllDigits (natDigits n) := allDigits_natDigits n
  have hhead : Text.hasPrefix (natDigits n) ['-'] = false := by
    cases hd : natDigits n with
    | nil => rfl
    | cons c cs =>
      have hc : c.isDigit = true := hdigits c (hd ▸ List.mem_cons_self)
      have hne : c ≠ '-' := by
        rintro rfl
        revert hc
        decide
      simp [Text.hasPrefix, List.isPrefixOf, Ne.symm hne]
  unfold isInt
  rw [htext]
  simp only [hhead, Bool.false_eq_true, if_false, Bool.and_eq_true, decide_eq_true_eq]
  refine ⟨List.all_eq_true.mpr hdigits, ?_⟩
  rw [digitsVal_natDigits]
  omega

theorem decodeEndpoint_json {e : APIEndpoint} (h : e.version < 2 ^ 63) :
    decodeEndpoint e.json = some e.posted := by
  have hfold : decodeEndpoint e.json =
      (if isInt (intLit e.version) then some e.posted else none).bind some := rfl
  rw [hfold, if_pos (isInt_intLit h)]
  rfl

def ClientToken.json (t : ClientToken) : Json := .obj
  [("token".toList, .str t.token), ("client_name".toList, .str t.clientName),
    ("client_role".toList, .str t.clientRole), ("scopes".toList, .str t.scopes),
    ("enabled".toList, .bool t.enabled)]

def ClientToken.zero : ClientToken := ⟨[], [], [], [], false⟩

def ClientToken.assign (t : ClientToken) (k : Str) (v : Json) : Option ClientToken :=
  if equalFold k "token".toList then (Decode.str t.token v).map fun x => { t with token := x }
  else if equalFold k "client_name".toList then
    (Decode.str t.clientName v).map fun x => { t with clientName := x }
  else if equalFold k "client_role".toList then
    (Decode.str t.clientRole v).map fun x => { t with clientRole := x }
  else if equalFold k "scopes".toList then (Decode.str t.scopes v).map fun x => { t with scopes := x }
  else if equalFold k "enabled".toList then
    (Decode.bool t.enabled v).map fun x => { t with enabled := x }
  else some t

def decodeToken : Json → Option ClientToken := Decode.record ClientToken.assign .zero

theorem decodeToken_json (t : ClientToken) : decodeToken t.json = some t := rfl

/-- What the creation of a token answers. -/
def createdToken (t : ClientToken) : Json := .obj
  [("client_name".toList, .str t.clientName), ("client_role".toList, .str t.clientRole),
    ("enabled".toList, .bool t.enabled), ("scopes".toList, .str t.scopes),
    ("token".toList, .str t.token),
    ("warning".toList, .str "Store this token now; it will not be shown again.".toList)]

/-- A row of `audit_logs` with its time, in seconds. -/
structure TimedLog where
  time : Nat
  row : Server.AuditLog
  deriving Repr, DecidableEq

/-- The order in which the database returns the rows, the newest first. -/
structure LogOrder where
  sort : List TimedLog → List TimedLog
  perm : ∀ l, (sort l).Perm l
  newestFirst : ∀ l, (sort l).Pairwise fun a b => b.time ≤ a.time

def sortByTime (l : List TimedLog) : List TimedLog := l.mergeSort fun a b => b.time ≤ a.time

theorem sortByTime_newestFirst (l : List TimedLog) :
    (sortByTime l).Pairwise fun a b => b.time ≤ a.time := by
  have htrans (a b c : TimedLog) (hab : decide (b.time ≤ a.time) = true)
      (hbc : decide (c.time ≤ b.time) = true) : decide (c.time ≤ a.time) = true := by
    rw [decide_eq_true_eq] at hab hbc ⊢
    exact hbc.trans hab
  have h := List.pairwise_mergeSort htrans
    (fun a b => by
      rw [Bool.or_eq_true, decide_eq_true_eq, decide_eq_true_eq]
      exact Nat.le_total b.time a.time) l
  exact h.imp fun hab => of_decide_eq_true hab

/-- Rows of one time in the order in which they were written. -/
def stableOrder : LogOrder := ⟨sortByTime, fun l => l.mergeSort_perm _, sortByTime_newestFirst⟩

def getAuditLogs (order : LogOrder) (rows : List TimedLog) : List TimedLog := (order.sort rows).take 100

/-- `showTime` is the driver's text of a time. -/
def TimedLog.json (showTime : Nat → Str) (l : TimedLog) : Json := .obj
  [("id".toList, .str l.row.id), ("timestamp".toList, .str (showTime l.time)),
    ("client_identity".toList, .str l.row.clientIdentity), ("tool_name".toList, .str l.row.toolName),
    ("status".toList, .str l.row.status), ("duration_ms".toList, .num (intLit l.row.durationMS)),
    ("error_message".toList, .str (l.row.errorMessage.getD []))]

end Janus.Storage

namespace Janus.Portal

def ConnectionHealth.json (h : ConnectionHealth) : Json := .obj
  [("name".toList, .str h.name), ("url".toList, .str h.url), ("enabled".toList, .bool h.enabled),
    ("status".toList, .str h.status), ("latency_ms".toList, .num (intLit h.latencyMS))]

end Janus.Portal
