import Janus.BuiltinRules

/-!
# Redacting again

A second run may still find something: the first one frees digits and inserts an equals
sign. What stands outside the tags gets shorter with every match, though, so that after at
most as many runs as the text has characters nothing is found any more.
-/

namespace Janus.Redaction

set_option autoImplicit false

open Regex

def isBracket (c : Char) : Bool := c = '[' || c = ']'

def tagBodies : List Str :=
  ["REDACTED:email", "REDACTED:jwt", "REDACTED:aws_access_key", "REDACTED:credit_card",
    "REDACTED:iban", "REDACTED:secret"].map String.toList

def weight (part : Str) : Nat := if part ∈ tagBodies then 0 else part.length

/-- The number of characters that are neither brackets nor of a tag. -/
noncomputable def exposed (text : Str) : Nat := ((text.splitOnP isBracket).map weight).sum

theorem exposed_bracket {b : Char} (hb : isBracket b = true) (f z : Str) :
    exposed (f ++ b :: z) = exposed f + exposed z := by
  simp [exposed, List.splitOnP_append_cons f z hb]

theorem exposed_plain {f : Str} (h : ∀ c ∈ f, isBracket c = false) : exposed f = weight f := by
  simp [exposed, List.splitOnP_eq_singleton h]

theorem weight_le (f : Str) : weight f ≤ f.length := by
  unfold weight
  split
  · exact Nat.zero_le _
  · exact Nat.le_refl _

/-- A text without brackets, or two shorter ones around a bracket. -/
theorem plain_or_bracket (text : Str) : (∀ c ∈ text, isBracket c = false) ∨
    ∃ f b z, text = f ++ b :: z ∧ isBracket b = true := by
  by_cases h : ∀ c ∈ text, isBracket c = false
  · exact Or.inl h
  · right
    obtain ⟨b, hb, hbr⟩ : ∃ b ∈ text, isBracket b = true := by simpa using h
    obtain ⟨f, z, rfl⟩ := List.append_of_mem hb
    exact ⟨f, b, z, rfl, hbr⟩

theorem exposed_le (text : Str) : exposed text ≤ text.length := by
  induction hk : text.length using Nat.strong_induction_on generalizing text with
  | _ k ih =>
    rcases plain_or_bracket text with h | ⟨f, b, z, rfl, hb⟩
    · rw [exposed_plain h, ← hk]
      exact weight_le text
    · rw [List.length_append, List.length_cons] at hk
      have hf := ih f.length (by omega) f rfl
      have hz := ih z.length (by omega) z rfl
      rw [exposed_bracket hb]
      omega

/-- What is inserted for a match: a tag, perhaps behind an equals sign. -/
def IsTag (ins : Str) : Prop :=
  ∃ sign body, ins = sign ++ '[' :: (body ++ [']']) ∧ (∀ c ∈ sign, c = '=') ∧ body ∈ tagBodies ∧
    sign.length ≤ 1

theorem isTag_inserted : ∀ rule ∈ builtinRules, IsTag (rule.inserted []) :=
  forall_builtinRules.mpr
    ⟨⟨[], "REDACTED:email".toList, by decide⟩, ⟨[], "REDACTED:jwt".toList, by decide⟩,
      ⟨[], "REDACTED:aws_access_key".toList, by decide⟩,
      ⟨[], "REDACTED:credit_card".toList, by decide⟩, ⟨[], "REDACTED:iban".toList, by decide⟩,
      ⟨['='], "REDACTED:secret".toList, by decide⟩, ⟨[], "REDACTED:secret".toList, by decide⟩,
      ⟨[], "REDACTED:secret".toList, by decide⟩⟩

/-- Edits that mask: every cut leaves less than it takes. -/
def Masking (es : List Edit) : Prop :=
  ∀ u copied ins, Edit.cut u copied ins ∈ es → IsTag ins ∧ copied + 1 < u.length

theorem masking_scan {rule : CompiledRule} (hrule : rule ∈ builtinRules) (prev : Option Char)
    (text : Str) : Masking (scan rule prev text) := by
  intro u copied ins hmem
  obtain ⟨prev', rest, gs, hf, rfl, rfl, _⟩ :=
    cut_of_mem_scan (sound_of_mem_builtinRules rule hrule) hmem
  refine ⟨?_, copied_lt rule hrule _ _ _ _ hf⟩
  rw [inserted_builtin rule hrule gs]
  exact isTag_inserted rule hrule

theorem exposed_tag {ins : Str} (h : IsTag ins) {x : Str} (hx : ∀ c ∈ x, isBracket c = false)
    (z : Str) : exposed (x ++ (ins ++ z)) ≤ x.length + 1 + exposed z := by
  obtain ⟨sign, body, rfl, hsign, hbody, hlen⟩ := h
  have hplain : ∀ c ∈ x ++ sign, isBracket c = false := by
    intro c hc
    rcases List.mem_append.mp hc with hc | hc
    · exact hx c hc
    · rw [hsign c hc]
      rfl
  have hbodyPlain : ∀ c ∈ body, isBracket c = false := by
    have hall : ∀ b ∈ tagBodies, ∀ c ∈ b, isBracket c = false := by decide
    exact hall body hbody
  have hzero : weight body = 0 := if_pos hbody
  have htext : x ++ ((sign ++ '[' :: (body ++ [']'])) ++ z) =
      (x ++ sign) ++ '[' :: (body ++ ']' :: z) := by simp
  rw [htext, exposed_bracket rfl, exposed_bracket rfl, exposed_plain hplain, exposed_plain hbodyPlain,
    hzero]
  have hweight := weight_le (x ++ sign)
  rw [List.length_append] at hweight
  omega

/-- Every cut shortens what stands outside the tags. -/
theorem exposed_target {es : List Edit} (h : Masking es) {x : Str}
    (hx : ∀ c ∈ x ++ Edits.source es, isBracket c = false) :
    exposed (x ++ Edits.target es) + Edits.cuts es ≤ x.length + (Edits.source es).length := by
  induction es generalizing x with
  | nil =>
    rw [Edits.source_nil, List.append_nil] at hx
    rw [Edits.target_nil, List.append_nil, exposed_plain hx]
    exact weight_le x
  | cons e es ih =>
    have hes : Masking es := fun u copied ins hmem => h u copied ins (List.mem_cons_of_mem e hmem)
    cases e with
    | kept c =>
      have hrec := ih hes (x := x ++ [c]) (by simpa [Edit.source] using hx)
      simp [Edit.target, Edit.source] at hrec ⊢
      omega
    | cut u copied ins =>
      obtain ⟨htag, hcopied⟩ := h u copied ins List.mem_cons_self
      have hu : ∀ c ∈ x ++ u.take copied, isBracket c = false := by
        intro c hc
        apply hx c
        rcases List.mem_append.mp hc with hc | hc
        · exact List.mem_append_left _ hc
        · exact List.mem_append_right x (List.mem_append_left _ (List.mem_of_mem_take hc))
      have hrec := ih hes (x := []) fun c hc => hx c (by simp at hc; simp [hc])
      have hmask := exposed_tag htag hu (Edits.target es)
      have hlen : (u.take copied).length ≤ copied := List.length_take_le copied u
      simp [Edit.target, Edit.source] at hrec hmask ⊢
      omega

theorem applyRule_tagBody : ∀ rule ∈ builtinRules, ∀ body ∈ tagBodies,
    applyRule body rule = (body, 0) :=
  forall_builtinRules.mpr (by decide)

theorem exposed_applyRule {rule : CompiledRule} (hrule : rule ∈ builtinRules) (text : Str) :
    exposed (applyRule text rule).1 + (applyRule text rule).2 ≤ exposed text := by
  have hsound := sound_of_mem_builtinRules rule hrule
  induction hk : text.length using Nat.strong_induction_on generalizing text with
  | _ k ih =>
    rcases plain_or_bracket text with h | ⟨f, b, z, rfl, hb⟩
    · by_cases hbody : text ∈ tagBodies
      · rw [applyRule_tagBody rule hrule text hbody]
        exact Nat.le_refl _
      · have hsource := source_scan hsound none text
        have hshort := exposed_target (x := []) (masking_scan hrule none text)
          (by rwa [List.nil_append, hsource])
        rw [applyRule_scan hsound, exposed_plain h, weight, if_neg hbody]
        simpa [hsource] using hshort
    · rw [List.length_append, List.length_cons] at hk
      have hhard : rule.hard b = true := by
        rcases (by simpa [isBracket] using hb : b = '[' ∨ b = ']') with rfl | rfl
        · exact (hard_bracket rule hrule).1
        · exact (hard_bracket rule hrule).2
      have hf := ih f.length (by omega) f rfl
      have hz := ih z.length (by omega) z rfl
      rw [applyRule_divide hsound hhard, exposed_bracket hb, exposed_bracket hb]
      omega

/-- The number of matches that the rules mask in turn. -/
def hits : List CompiledRule → Str → Nat
  | [], _ => 0
  | rule :: rules, text => (applyRule text rule).2 + hits rules (applyRule text rule).1

theorem exposed_rewritten {rules : List CompiledRule} (h : ∀ rule ∈ rules, rule ∈ builtinRules)
    (text : Str) : exposed (rewritten rules text) + hits rules text ≤ exposed text := by
  induction rules generalizing text with
  | nil => exact Nat.le_refl _
  | cons rule rules ih =>
    obtain ⟨hrule, hrest⟩ := List.forall_mem_cons.mp h
    have hfirst := exposed_applyRule hrule text
    have hnext := ih hrest (applyRule text rule).1
    rw [rewritten_cons, hits]
    omega

theorem exposed_builtin (text : Str) :
    exposed (rewritten builtinRules text) + hits builtinRules text ≤ exposed text :=
  exposed_rewritten (fun _ hrule => hrule) text

theorem rewritten_of_no_hits {rules : List CompiledRule} (hs : ∀ rule ∈ rules, rule.Sound)
    {text : Str} (h : hits rules text = 0) : rewritten rules text = text := by
  induction rules with
  | nil => rfl
  | cons rule rules ih =>
    obtain ⟨hsound, hrest⟩ := List.forall_mem_cons.mp hs
    obtain ⟨hzero, hnext⟩ := Nat.add_eq_zero_iff.mp h
    have hsame : (applyRule text rule).1 = text := by
      rw [applyRule_scan hsound] at hzero ⊢
      exact (Edits.target_eq_source hzero).trans (source_scan hsound none text)
    rw [hsame] at hnext
    rw [rewritten_cons, hsame, ih hrest hnext]

theorem addCount_ne_nil (cls : Str) (n : Nat) (counts : List (Str × Nat)) :
    addCount cls n counts ≠ [] := by
  intro he
  have hlook := lookup_setMember_self cls ((lookup cls counts).getD 0 + n) counts
  have hnil : setMember cls ((lookup cls counts).getD 0 + n) counts = [] := he
  rw [hnil] at hlook
  cases hlook

theorem applyRules_counts_nil (rules : List CompiledRule) (text : Str) :
    (applyRules rules text).2 = [] ↔ hits rules text = 0 := by
  rw [applyRules_eq_foldl]
  suffices hall : ∀ acc : Str × List (Str × Nat),
      (rules.foldl runRule acc).2 = [] ↔ acc.2 = [] ∧ hits rules acc.1 = 0
    from (hall (text, [])).trans (and_iff_right rfl)
  induction rules with
  | nil => simp [hits]
  | cons rule rules ih =>
    intro acc
    refine (ih _).trans ?_
    show (if (applyRule acc.1 rule).2 > 0 then _ else _) = [] ∧ hits rules (applyRule acc.1 rule).1 = 0 ↔
      acc.2 = [] ∧ (applyRule acc.1 rule).2 + hits rules (applyRule acc.1 rule).1 = 0
    split
    · rename_i hn
      have hne := addCount_ne_nil rule.class (applyRule acc.1 rule).2 acc.2
      constructor
      · rintro ⟨he, _⟩
        exact absurd he hne
      · rintro ⟨_, hzero⟩
        omega
    · rename_i hn
      have hzero : (applyRule acc.1 rule).2 = 0 := by omega
      simp [hzero]

/-- The redactor of the built-in rules. -/
def builtin : Redactor := new true []

theorem rules_builtin : builtin.rules = builtinRules := by
  simp [builtin, new]

theorem redactBytes_of_enabled {r : Redactor} (h : r.enabled = true) (text : Str) :
    r.redactBytes text =
      (rewritten r.rules text, findingsFromCounts (applyRules r.rules text).2) := by
  unfold Redactor.redactBytes
  rw [h, ← applyRules_fst]
  rfl

theorem redactBytes_builtin (text : Str) : builtin.redactBytes text =
    (rewritten builtinRules text, findingsFromCounts (applyRules builtinRules text).2) := by
  rw [redactBytes_of_enabled rfl, rules_builtin]

theorem redactBytes_fst (text : Str) :
    (builtin.redactBytes text).1 = rewritten builtinRules text := by
  rw [redactBytes_builtin]

theorem findings_nil_iff (text : Str) :
    (builtin.redactBytes text).2 = [] ↔ hits builtinRules text = 0 := by
  rw [redactBytes_builtin, ← applyRules_counts_nil]
  dsimp only
  generalize (applyRules builtinRules text).2 = counts
  constructor
  · intro h
    have hsort : sortMembers counts = [] := List.map_eq_nil_iff.mp h
    exact (hsort ▸ perm_sortMembers counts).nil_eq.symm
  · rintro rfl
    rfl

/-- Nothing is found exactly when the text is returned as it is. -/
theorem findings_nil_iff_unchanged (text : Str) :
    (builtin.redactBytes text).2 = [] ↔ (builtin.redactBytes text).1 = text := by
  rw [findings_nil_iff, redactBytes_fst]
  constructor
  · intro h
    exact rewritten_of_no_hits sound_of_mem_builtinRules h
  · intro h
    have hmeasure := exposed_builtin text
    rw [h] at hmeasure
    omega

/-- The text after so many runs. -/
def runs : Nat → Str → Str
  | 0, text => text
  | n + 1, text => runs n (builtin.redactBytes text).1

theorem exists_clean_run (text : Str) : ∃ n ≤ exposed text, (builtin.redactBytes (runs n text)).2 = [] := by
  induction hk : exposed text using Nat.strong_induction_on generalizing text with
  | _ k ih =>
    by_cases hclean : (builtin.redactBytes text).2 = []
    · exact ⟨0, Nat.zero_le _, hclean⟩
    · have hhits : hits builtinRules text ≠ 0 := fun hz => hclean ((findings_nil_iff text).mpr hz)
      have hmeasure := exposed_builtin text
      have hlt : exposed (builtin.redactBytes text).1 < k := by
        rw [redactBytes_fst]
        omega
      obtain ⟨n, hn, hfound⟩ := ih _ hlt _ rfl
      exact ⟨n + 1, by omega, hfound⟩

end Janus.Redaction
