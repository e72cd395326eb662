import Janus.RuleScan

/-!
# The built-in rules

Every built-in rule matches no empty text and writes back only the beginning of a match
(`sound_of_mem_builtinRules`). None of them consumes a bracket, so a tag stays as it is and
divides the text (`rewritten_bracket`).
-/

namespace Janus.Redaction

set_option autoImplicit false

open Regex

def emailRule : CompiledRule := ⟨"email".toList, emailRe, none, []⟩

def jwtRule : CompiledRule := ⟨"jwt".toList, jwtRe, none, []⟩

def awsKeyRule : CompiledRule := ⟨"aws_access_key".toList, awsKeyRe, none, []⟩

def creditCardRule : CompiledRule :=
  ⟨"credit_card".toList, creditCardRe, some isValidCreditCard, []⟩

def ibanRule : CompiledRule := ⟨"iban".toList, ibanRe, none, []⟩

def secretAssignRule : CompiledRule :=
  ⟨"secret".toList, secretAssignRe, none, [.group 1, .text "=[REDACTED:secret]".toList]⟩

def bearerRule : CompiledRule :=
  ⟨"secret".toList, bearerRe, none, [.group 1, .text "[REDACTED:secret]".toList]⟩

def openAIKeyRule : CompiledRule := ⟨"secret".toList, openAIKeyRe, none, []⟩

theorem builtinRules_eq : builtinRules = [emailRule, jwtRule, awsKeyRule, creditCardRule, ibanRule,
    secretAssignRule, bearerRule, openAIKeyRule] := rfl

theorem forall_builtinRules {P : CompiledRule → Prop} :
    (∀ rule ∈ builtinRules, P rule) ↔ P emailRule ∧ P jwtRule ∧ P awsKeyRule ∧ P creditCardRule ∧
      P ibanRule ∧ P secretAssignRule ∧ P bearerRule ∧ P openAIKeyRule := by
  simp [builtinRules_eq]

theorem sound_of_no_template {rule : CompiledRule} (hp : 0 < rule.re.minLen)
    (h : rule.replaceTpl = []) : rule.Sound := by
  refine ⟨hp, ?_⟩
  intro prev text n gs _ i tpl htpl
  rw [h] at htpl
  cases htpl

theorem groupText_of_find {gs : List (Nat × Str)} {i : Nat} {u : Str}
    (h : gs.find? (fun g => g.1 = i) = some (i, u)) : groupText gs i = u := by
  unfold groupText
  rw [h]
  rfl

/-- What is read by a match that begins with a group. -/
theorem first_group {i : Nat} {r s : Regex} (hs : s.binds i = false) {prev : Option Char} {text : Str}
    {n : Nat} {gs : List (Nat × Str)} (h : (Regex.seq (.group i r) s).first prev text = some (n, gs)) :
    ∃ u v, Lang r u ∧ Lang s v ∧ text.take n = u ++ v ∧ groupText gs i = u := by
  obtain ⟨q, hq, he⟩ := Option.map_eq_some_iff.mp h
  obtain ⟨u, v, hu, hv, hread, hfind⟩ := run_group hs (List.mem_of_mem_head? hq)
  cases he
  refine ⟨u, v, hu, hv, ?_, groupText_of_find hfind⟩
  have htext : text = (u ++ v) ++ q.rest := hread.rest
  have hoff : q.offset = (u ++ v).length := by simpa using hread.offset
  rw [hoff, htext, List.take_left]

theorem first_boundary {r : Regex} {prev : Option Char} {text : Str} {m : Nat × List (Nat × Str)}
    (h : (Regex.seq .wordBoundary r).first prev text = some m) : r.first prev text = some m := by
  unfold first run at h
  simp only [run] at h
  split at h
  · simpa [first] using h
  · cases h

def keywordRe : Regex :=
  altAll [seqAll [chars true "api", joiner, chars true "key"],
    seqAll [chars true "access", joiner, chars true "key"], chars true "token",
    chars true "secret", chars true "password", chars true "passwd"]

def secretTail : List Regex :=
  [.rep 0 none space, .set false [(':', ':'), ('=', '=')], .rep 0 none space,
    optional (chars false "\""),
    .group 2 (.rep 32 none (.set true [('A', 'Z'), ('a', 'z'), ('0', '9'), ('_', '_'), ('-', '-'),
      ('/', '/'), ('+', '+'), ('=', '=')])),
    optional (chars false "\"")]

theorem secretAssignRe_eq : secretAssignRe =
    .seq .wordBoundary (.seq (.group 1 keywordRe) (seqAll secretTail)) := rfl

def bearerWordRe : Regex := seqAll [.wordBoundary, chars true "Bearer", .rep 1 none space]

def bearerTail : List Regex :=
  [.group 2 (.rep 20 none (.set true [('A', 'Z'), ('a', 'z'), ('0', '9'), ('-', '-'), ('_', '_'),
    ('.', '.'), ('=', '=')]))]

theorem bearerRe_eq : bearerRe = .seq (.group 1 bearerWordRe) (seqAll bearerTail) := rfl

theorem sound_secretAssignRule : secretAssignRule.Sound := by
  refine ⟨by decide, ?_⟩
  intro prev text n gs hf i tpl htpl
  cases htpl
  obtain ⟨u, v, _, _, htake, hgroup⟩ := first_group (by decide) (first_boundary hf)
  rw [hgroup, htake]
  exact List.prefix_append u v

theorem sound_bearerRule : bearerRule.Sound := by
  refine ⟨by decide, ?_⟩
  intro prev text n gs hf i tpl htpl
  cases htpl
  obtain ⟨u, v, _, _, htake, hgroup⟩ := first_group (by decide) hf
  rw [hgroup, htake]
  exact List.prefix_append u v

theorem sound_of_mem_builtinRules : ∀ rule ∈ builtinRules, rule.Sound :=
  forall_builtinRules.mpr ⟨sound_of_no_template (by decide) rfl, sound_of_no_template (by decide) rfl,
    sound_of_no_template (by decide) rfl, sound_of_no_template (by decide) rfl,
    sound_of_no_template (by decide) rfl, sound_secretAssignRule, sound_bearerRule,
    sound_of_no_template (by decide) rfl⟩

theorem hard_bracket : ∀ rule ∈ builtinRules, rule.hard '[' = true ∧ rule.hard ']' = true :=
  forall_builtinRules.mpr (by decide)

/-- A bracket divides what the built-in rules write. -/
theorem rewritten_bracket {c : Char} (hc : c = '[' ∨ c = ']') (f z : Str) :
    rewritten builtinRules (f ++ c :: z) =
      rewritten builtinRules f ++ c :: rewritten builtinRules z := by
  apply rewritten_divide
  intro rule hrule
  refine ⟨sound_of_mem_builtinRules rule hrule, ?_⟩
  rcases hc with rfl | rfl
  · exact (hard_bracket rule hrule).1
  · exact (hard_bracket rule hrule).2

/-- What a built-in rule writes behind what it copies does not depend on the match. -/
theorem inserted_builtin : ∀ rule ∈ builtinRules, ∀ gs, rule.inserted gs = rule.inserted [] :=
  forall_builtinRules.mpr ⟨fun _ => rfl, fun _ => rfl, fun _ => rfl, fun _ => rfl, fun _ => rfl,
    fun _ => rfl, fun _ => rfl, fun _ => rfl⟩

theorem inserted_ends : ∀ rule ∈ builtinRules, (rule.inserted []).getLast? = some ']' :=
  forall_builtinRules.mpr (by decide)

theorem copied_lt_of_no_template {rule : CompiledRule} (hmin : 2 ≤ rule.re.minLen)
    (h : rule.replaceTpl = []) {prev : Option Char} {text : Str} {n : Nat} {gs : List (Nat × Str)}
    (hf : rule.re.first prev text = some (n, gs)) : rule.copied gs + 1 < n := by
  have hlang := minLen_of_lang rule.re (first_sound hf).2
  have hlen : (text.take n).length ≤ n := List.length_take_le n text
  have hcopied : rule.copied gs = 0 := by
    unfold CompiledRule.copied
    rw [h]
  omega

theorem copied_lt_of_group {i : Nat} {r s : Regex} (hs : s.binds i = false) (hmin : 2 ≤ s.minLen)
    {prev : Option Char} {text : Str} {n : Nat} {gs : List (Nat × Str)}
    (hf : (Regex.seq (.group i r) s).first prev text = some (n, gs)) :
    (groupText gs i).length + 1 < n := by
  obtain ⟨u, v, _, hv, htake, hgroup⟩ := first_group hs hf
  have hlang := minLen_of_lang s hv
  have hlen := congrArg List.length htake
  rw [List.length_append, List.length_take_of_le (first_sound hf).1] at hlen
  rw [hgroup]
  omega

/-- At least two characters of a match are not copied. -/
theorem copied_lt : ∀ rule ∈ builtinRules, ∀ prev text n gs,
    rule.re.first prev text = some (n, gs) → rule.copied gs + 1 < n :=
  forall_builtinRules.mpr
    ⟨fun _ _ _ _ => copied_lt_of_no_template (by decide) rfl,
      fun _ _ _ _ => copied_lt_of_no_template (by decide) rfl,
      fun _ _ _ _ => copied_lt_of_no_template (by decide) rfl,
      fun _ _ _ _ => copied_lt_of_no_template (by decide) rfl,
      fun _ _ _ _ => copied_lt_of_no_template (by decide) rfl,
      fun _ _ _ _ hf => copied_lt_of_group (by decide) (by decide) (first_boundary hf),
      fun _ _ _ _ hf => copied_lt_of_group (by decide) (by decide) hf,
      fun _ _ _ _ => copied_lt_of_no_template (by decide) rfl⟩

end Janus.Redaction
