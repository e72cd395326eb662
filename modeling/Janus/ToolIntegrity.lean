import Janus.Lib.JsonCompact
import Janus.Lib.Sha256

/-!
# Tool definition hashes

Embedding of `pkg/toolintegrity`: a tool definition is written in a canonical form
and the digest of that text is its hash.
-/

namespace Janus.ToolIntegrity

set_option autoImplicit false

structure ToolDef where
  name : Str
  description : Str
  method : Str
  path : Str
  parametersSchema : Str
  deriving Repr, DecidableEq

/-- Schemas that differ in member order or white space only have one text. -/
def canonicalizeSchema (schema : Str) : Str :=
  match (JsonText.parse schema).bind Json.toAny with
  | none => schema
  | some v => v.marshal

def canonicalForm (d : ToolDef) : Json :=
  .obj [("name".toList, .str d.name), ("description".toList, .str d.description),
    ("method".toList, .str d.method), ("path".toList, .str d.path),
    ("parameters_schema".toList, .str (canonicalizeSchema d.parametersSchema))]

def ToolDef.text (d : ToolDef) : Str := (canonicalForm d).compact

def hash (d : ToolDef) : Str := Sha256.sha256 d.text

/-- An empty prior hash is no baseline. -/
def changed (priorHash : Str) (d : ToolDef) : Bool :=
  priorHash ≠ [] && hash d ≠ priorHash

/-- SHA-256 does not tell the texts of two definitions apart. -/
def Collide (d d' : ToolDef) : Prop :=
  d.text ≠ d'.text ∧ Sha256.sha256 d.text = Sha256.sha256 d'.text

/-- The hashed text determines the fields, the schema up to its canonical form. -/
theorem text_eq_iff {d d' : ToolDef} :
    d.text = d'.text ↔ d.name = d'.name ∧ d.description = d'.description ∧ d.method = d'.method ∧
      d.path = d'.path ∧
      canonicalizeSchema d.parametersSchema = canonicalizeSchema d'.parametersSchema := by
  constructor
  · intro h
    have hread := congrArg JsonText.parse h
    simp only [ToolDef.text, JsonText.parse_compact, Option.some.injEq] at hread
    simpa [canonicalForm] using hread
  · rintro ⟨hname, hdescription, hmethod, hpath, hschema⟩
    simp only [ToolDef.text, canonicalForm, hname, hdescription, hmethod, hpath, hschema]

theorem name_eq_of_text_eq {d d' : ToolDef} (h : d.text = d'.text) : d.name = d'.name :=
  (text_eq_iff.mp h).1

/-- Equal hashes come from equal texts, collisions apart. -/
theorem hash_eq_iff_text {d d' : ToolDef} (h : ¬ Collide d d') : hash d = hash d' ↔ d.text = d'.text := by
  constructor
  · intro he
    by_contra ht
    exact h ⟨ht, he⟩
  · intro ht
    rw [hash, hash, ht]

theorem hash_ne_nil (d : ToolDef) : hash d ≠ [] := by
  intro h
  have hlen := Sha256.length_sha256 d.text
  rw [hash] at h
  rw [h] at hlen
  cases hlen

theorem changed_hash_eq_false (d d' : ToolDef) : changed (hash d) d' = false ↔ hash d' = hash d := by
  simp [changed, hash_ne_nil d]

/-- Definitions of different names have different hashes, collisions apart. -/
theorem hash_eq_iff_of_name_ne {d d' : ToolDef} (h : d.name ≠ d'.name) :
    hash d = hash d' ↔ Collide d d' := by
  constructor
  · intro he
    exact ⟨fun ht => h (name_eq_of_text_eq ht), he⟩
  · intro hc
    exact hc.2

end Janus.ToolIntegrity
