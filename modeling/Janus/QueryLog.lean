import Janus.Lib.ByteQuery
import Janus.OpenApi

/-!
# The query that is logged

Embedding of `redactQuery` of `main.go`. The logged query is the same for any two
queries that differ in the values of credential keys only, and every other value can
be read from it (`redactQuery_reveals`).
-/

namespace Janus.QueryLog

set_option autoImplicit false

open ByteQuery

def credentialWords : List Str :=
  ["token".toList, "session".toList, "secret".toList, "auth".toList, "key".toList,
    "password".toList]

/-- The lower-cased key contains a word for a credential. -/
def isCredential (key : GoString) : Bool :=
  credentialWords.any fun w => Text.containsSub (key.text.map OpenApi.lowerChar) w

def redacted : GoString := GoString.ofText "REDACTED".toList

def redactValues (values : Values) : Values :=
  values.map fun p => (p.1, if isCredential p.1 then redacted else p.2)

def redactQuery (rawQuery : GoString) : GoString :=
  if rawQuery = [] then []
  else
    match parseQuery rawQuery with
    | none => GoString.ofText "[unparseable query redacted]".toList
    | some values => (redactValues values).encode

theorem get_redactValues (values : Values) (k : GoString) :
    (redactValues values).get k =
      if isCredential k then (values.get k).map fun _ => redacted else values.get k := by
  induction values with
  | nil => simp [redactValues, Values.get]
  | cons p values ih =>
    unfold redactValues Values.get at ih ⊢
    rw [List.map_cons, List.filterMap_cons, List.filterMap_cons, ih]
    by_cases hk : p.1 = k
    · subst hk
      simp only [if_true]
      split
      · rfl
      · rfl
    · simp only [if_neg hk]

/-- An accepted query is logged as its redacted values, the empty one too. -/
theorem redactQuery_of_accepted {q : GoString} {values : Values} (h : parseQuery q = some values) :
    redactQuery q = (redactValues values).encode := by
  unfold redactQuery
  split
  · rename_i hq
    subst hq
    have hnil : some [] = some values := h
    cases hnil
    rfl
  · rw [h]

/-- Queries that agree but for the values of credential keys are logged alike. -/
theorem redactQuery_congr {q r : GoString} {vs ws : Values} (hq : parseQuery q = some vs)
    (hr : parseQuery r = some ws) (hcount : ∀ k, (vs.get k).length = (ws.get k).length)
    (hother : ∀ k, ¬ isCredential k → vs.get k = ws.get k) : redactQuery q = redactQuery r := by
  rw [redactQuery_of_accepted hq, redactQuery_of_accepted hr]
  apply encode_congr
  intro k
  rw [get_redactValues, get_redactValues]
  split
  · rw [List.map_const', List.map_const', hcount]
  · rename_i hk
    exact hother k hk

/-- The logged query is read back into the redacted values. -/
theorem parseQuery_redactQuery {q : GoString} {vs : Values} (hq : parseQuery q = some vs) :
    ∃ ws, parseQuery (redactQuery q) = some ws ∧ ∀ k, ws.get k =
      if isCredential k then (vs.get k).map fun _ => redacted else vs.get k := by
  refine ⟨(redactValues vs).sorted, ?_, ?_⟩
  · rw [redactQuery_of_accepted hq, parseQuery_encode]
  · intro k
    rw [get_sorted, get_redactValues]

/-- What the log reveals of a query. -/
theorem redactQuery_reveals :
    (∀ q r vs ws, parseQuery q = some vs → parseQuery r = some ws →
      (∀ k, (vs.get k).length = (ws.get k).length) →
      (∀ k, ¬ isCredential k → vs.get k = ws.get k) → redactQuery q = redactQuery r) ∧
    ∀ q vs, parseQuery q = some vs → ∃ ws, parseQuery (redactQuery q) = some ws ∧
      ∀ k, ¬ isCredential k → ws.get k = vs.get k := by
  constructor
  · intro q r vs ws hq hr hcount hother
    exact redactQuery_congr hq hr hcount hother
  · intro q vs hq
    obtain ⟨ws, hws, hget⟩ := parseQuery_redactQuery hq
    refine ⟨ws, hws, ?_⟩
    intro k hk
    rw [hget, if_neg hk]

def query (s : String) : GoString := GoString.ofText s.toList

theorem credential_token : isCredential (query "Token") = true := by decide +kernel

/-- Two tokens, one under an encoded key name, beside a value of another key. -/
theorem redactQuery_reveals_token :
    redactQuery (query "%54oken=a&page=1+2") = redactQuery (query "page=1%202&Token=%62") := by
  refine redactQuery_reveals.1 _ _ [(query "Token", query "a"), (query "page", query "1 2")]
    [(query "page", query "1 2"), (query "Token", query "b")] (by decide +kernel) (by decide +kernel)
    ?_ ?_
  · intro k
    by_cases ht : query "Token" = k
    · by_cases hp : query "page" = k <;> simp [Values.get, ht, hp]
    · by_cases hp : query "page" = k <;> simp [Values.get, ht, hp]
  · intro k hk
    have ht : query "Token" ≠ k := fun he => hk (he ▸ credential_token)
    by_cases hp : query "page" = k <;> simp [Values.get, ht, hp]

example : redactQuery (query "%54oken=a&page=1+2") = query "Token=REDACTED&page=1+2" := by
  decide +kernel

end Janus.QueryLog
