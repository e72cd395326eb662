import Janus.ToolIntegrity
import Janus.Lib.JsonSame

/-!
# What a definition hash tells apart

The hash of a definition covers its name, description, method and path as they are
written, and of its schema the decoded value. A schema that is not decoded counts as
text, and no such text is the canonical form of a decoded schema.
-/

namespace Janus.ToolIntegrity

set_option autoImplicit false

/-- The value that a schema is decoded into, if it is accepted. A number is its double,
the sign of zero included. -/
def decodedSchema (schema : Str) : Option Json := (JsonText.parse schema).bind Json.toAny

/-- Both schemas are accepted and decoded into one value, or both are refused and are the
same text. -/
def SameSchema (s s' : Str) : Prop :=
  (∃ v v', decodedSchema s = some v ∧ decodedSchema s' = some v' ∧ v.Same v') ∨
    (decodedSchema s = none ∧ decodedSchema s' = none ∧ s = s')

theorem canonicalizeSchema_of_some {s : Str} {v : Json} (h : decodedSchema s = some v) :
    canonicalizeSchema s = v.marshal := by
  unfold decodedSchema at h
  simp only [canonicalizeSchema, h]

theorem canonicalizeSchema_of_none {s : Str} (h : decodedSchema s = none) :
    canonicalizeSchema s = s := by
  unfold decodedSchema at h
  simp only [canonicalizeSchema, h]

theorem distinct_of_decodedSchema {s : Str} {v : Json} (h : decodedSchema s = some v) :
    v.Distinct := by
  obtain ⟨x, _, hx⟩ := Option.bind_eq_some_iff.mp h
  exact Json.distinct_of_toAny x v hx

/-- The canonical form of an accepted schema is accepted. -/
theorem decodedSchema_marshal {s : Str} {v : Json} (h : decodedSchema s = some v) :
    (decodedSchema v.marshal).isSome = true := by
  obtain ⟨x, _, hx⟩ := Option.bind_eq_some_iff.mp h
  exact Json.decode_marshal hx

theorem marshal_ne_refused {s s' : Str} {v : Json} (h : decodedSchema s = some v)
    (h' : decodedSchema s' = none) : v.marshal ≠ s' := by
  intro he
  have hsome := decodedSchema_marshal h
  rw [he, h'] at hsome
  cases hsome

/-- Two schemas have one canonical form exactly when they are the same. -/
theorem canonicalizeSchema_eq_iff (s s' : Str) :
    canonicalizeSchema s = canonicalizeSchema s' ↔ SameSchema s s' := by
  unfold SameSchema
  cases h : decodedSchema s with
  | none =>
    cases h' : decodedSchema s' with
    | none =>
      rw [canonicalizeSchema_of_none h, canonicalizeSchema_of_none h']
      simp
    | some v' =>
      rw [canonicalizeSchema_of_none h, canonicalizeSchema_of_some h']
      simpa using (marshal_ne_refused h' h).symm
  | some v =>
    cases h' : decodedSchema s' with
    | none =>
      rw [canonicalizeSchema_of_some h, canonicalizeSchema_of_none h']
      simpa using marshal_ne_refused h h'
    | some v' =>
      rw [canonicalizeSchema_of_some h, canonicalizeSchema_of_some h',
        Json.marshal_eq_iff (distinct_of_decodedSchema h) (distinct_of_decodedSchema h')]
      simp

/-- A definition counts as unchanged exactly when its name, description, method and path
are the pinned ones and its schema is the same. -/
theorem changed_hash_eq_false_iff (d d' : ToolDef) (h : ¬ Collide d d') :
    changed (hash d) d' = false ↔
      d.name = d'.name ∧ d.description = d'.description ∧ d.method = d'.method ∧
        d.path = d'.path ∧ SameSchema d.parametersSchema d'.parametersSchema := by
  rw [changed_hash_eq_false, eq_comm, hash_eq_iff_text h, text_eq_iff, canonicalizeSchema_eq_iff]

def schemaDef (schema : String) : ToolDef :=
  ⟨['t'], [], "GET".toList, ['/'], schema.toList⟩

def plainDef : ToolDef := schemaDef "\x7b\"a\":1,\"b\":[2,true]\x7d"

/-- The same schema with its members in another order and its numbers spelled otherwise. -/
def shuffledDef : ToolDef := schemaDef " \x7b\"b\": [2.0, true], \"a\": 1e0\x7d"

theorem text_shuffledDef : plainDef.text = shuffledDef.text := by
  decide +kernel

theorem shuffledDef_unchanged :
    changed (hash plainDef) shuffledDef = false ∧
      SameSchema plainDef.parametersSchema shuffledDef.parametersSchema := by
  have hfree : ¬ Collide plainDef shuffledDef := fun hc => hc.1 text_shuffledDef
  have hchanged : changed (hash plainDef) shuffledDef = false := by
    exact (changed_hash_eq_false plainDef shuffledDef).mpr
      ((hash_eq_iff_text hfree).mpr text_shuffledDef).symm
  exact ⟨hchanged, ((changed_hash_eq_false_iff plainDef shuffledDef hfree).mp hchanged).2.2.2.2⟩

end Janus.ToolIntegrity
