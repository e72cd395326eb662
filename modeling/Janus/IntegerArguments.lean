import Janus.Lib.NumberIntegers
import Janus.PathParams

/-!
# Integers in paths, queries and bodies

A number that was decoded from JSON is a double. The body has it as the encoder writes
it, the path and the query as the general format does, which turns to exponent notation
at a million. Up to 2^53 no digit of an integer is lost in between.
-/

namespace Janus.Gateway

set_option autoImplicit false

/-- The path, the query and the body have the decimal notation of the integer. -/
structure KeepsDigits (z : Int) (v : Json) : Prop where
  path : ∀ k, renderPath (placeholder k) [(k, v)] = intText z
  query : ∀ path k q, ¬ placeholder k <:+: path →
    lookup k (queryParams path [(k, v)] q) = some [intText z]
  body : v.marshal = intText z

theorem renderPath_placeholder (k : Str) (v : Json) :
    renderPath (placeholder k) [(k, v)] = Url.pathEscape v.formatV := by
  have hne : placeholder k ≠ [] := List.cons_ne_nil _ _
  have hmark : Text.OnlyAtMarks (placeholder k) [.mark] := trivial
  have h := Text.replaceAll_flatten hne (Url.pathEscape v.formatV) hmark
  simp only [Text.flatten, List.append_nil] at h
  exact h

theorem pathEscape_intText (z : Int) : Url.pathEscape (intText z) = intText z := by
  apply Url.escape_eq_self
  intro c hc
  have hdigit : ∀ c : Char, isDigit c = true → Url.shouldEscape c.toNat .pathSegment = false := by
    intro c hc
    unfold isDigit at hc
    have hrange : Url.isAlnum c.toNat = true := by
      simp only [Bool.and_eq_true, decide_eq_true_eq, Char.le_def, UInt32.le_iff_toNat_le] at hc
      unfold Url.isAlnum
      simp only [Bool.or_eq_true, Bool.and_eq_true, decide_eq_true_eq]
      exact .inl (.inl hc)
    unfold Url.shouldEscape
    rw [if_pos hrange]
  unfold intText sign at hc
  obtain hc | hc := List.mem_append.mp hc
  · split at hc
    · rw [List.mem_singleton.mp hc]
      decide
    · cases hc
  · exact hdigit c (allDigits_natDigits _ c hc)

/-- An integer of at most 53 bits keeps its digits in the body, and in the path and the query
below a million. -/
theorem keepsDigits_iff {z : Int} (hz : z.natAbs ≤ 2 ^ 53) {lit : NumLit}
    (hlit : lit.decimal = Decimal.ofInt z) :
    ∃ m, lit.float64 = some m ∧ (Json.num m).marshal = intText z ∧
      (KeepsDigits z (.num m) ↔ z.natAbs < 10 ^ 6) := by
  obtain ⟨m, hm, hdec⟩ := numLit_jsonText (normal_ofInt z)
  have hread : lit.float64 = some m := by
    rw [NumLit.float64, hlit, toFloat64_ofInt hz, Option.bind_some, hm]
  have hbody : (Json.num m).marshal = intText z := by
    rw [jsonText_ofInt (lt_of_le_of_lt hz (by decide))] at hm
    unfold numLit? at hm
    split at hm
    · cases hm
      rfl
    · cases hm
  have hformat : (Json.num m).formatV = (Decimal.ofInt z).formatG := by
    rw [← hdec]
    rfl
  refine ⟨m, hread, hbody, ?_⟩
  rw [← formatG_ofInt_iff, ← hformat]
  constructor
  · intro h
    have hquery := h.query [] [] [] (by simp [placeholder])
    rw [lookup_queryParams (v := .num m) (by simp [placeholder]) (by simp [lookup])] at hquery
    exact (List.cons.inj (Option.some.inj hquery)).1
  · intro h
    refine ⟨fun k => ?_, fun path k q hpath => ?_, hbody⟩
    · rw [renderPath_placeholder, h, pathEscape_intText]
    · rw [lookup_queryParams (v := .num m) hpath (by simp [lookup]), h]

def userId : NumLit := ⟨"123".toList, by decide⟩

theorem keepsDigits_userId :
    ∃ m, userId.float64 = some m ∧ (Json.num m).marshal = intText 123 ∧
      (KeepsDigits 123 (.num m) ↔ (123 : Int).natAbs < 10 ^ 6) :=
  @keepsDigits_iff _ (by decide) userId (by decide)

def million : NumLit := ⟨"1000000".toList, by decide⟩

/-- A million is `1e+06` in the path and in the query. -/
theorem not_keepsDigits_million :
    million.float64 = some million ∧
      renderPath (placeholder ['k']) [(['k'], .num million)] = "1e+06".toList ∧
      (Json.num million).marshal = intText 1000000 ∧ ¬ KeepsDigits 1000000 (.num million) := by
  have hpath : renderPath (placeholder ['k']) [(['k'], .num million)] = "1e+06".toList := by
    decide +kernel
  refine ⟨by decide +kernel, hpath, by decide +kernel, fun h => ?_⟩
  have hkept := h.path ['k']
  rw [hpath] at hkept
  exact absurd hkept (by decide +kernel)

end Janus.Gateway
