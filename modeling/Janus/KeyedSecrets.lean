import Janus.Cleanness
import Janus.JsonRedaction

/-!
# Secrets under a telling name

The assignment pattern wants the equals sign or colon right behind the keyword. In JSON
there is a quote between them, so the name of a member never matters: a value is masked
where a pattern matches inside the value itself, and where in every other string that it is
part of the matches of the patterns leave no stretch that has it (`keyed_secret_masked_iff`).
-/

namespace Janus.Redaction

set_option autoImplicit false

open JsonText

/-- A word without quotes and brackets occurs in a joined text where it occurs in a part. -/
theorem Joins.infix_iff {xs : List Str} {y v : Str} (h : Joins xs y) (hq : '"' ∉ v) (hb : ']' ∉ v) :
    v <:+: y ↔ ∃ x ∈ xs, v <:+: x := by
  induction h with
  | last x => simp
  | quote h ih => rw [infix_append_cons hq, ih, List.exists_mem_cons_iff]
  | @taken x y xs hx h ih =>
    obtain ⟨w, rfl⟩ := List.getLast?_eq_some_iff.mp hx
    have hw : v <:+: w ++ [']'] ↔ v <:+: w := by
      rw [infix_append_cons hb]
      constructor
      · rintro (h | h)
        · exact h
        · rw [List.infix_nil.mp h]
          exact List.nil_infix
      · exact Or.inl
    rw [List.exists_mem_cons_iff, ← ih, hw, List.append_assoc]
    exact infix_append_cons hb

/-- A match of the rule's pattern in the text, which the rule's check accepts. -/
def CompiledRule.Matches (rule : CompiledRule) (text : Str) : Prop :=
  ∃ m ∈ rule.re.findAll text, rule.rejects (slice text m.start m.stop) = false

instance (rule : CompiledRule) (text : Str) : Decidable (rule.Matches text) :=
  inferInstanceAs (Decidable (∃ m ∈ rule.re.findAll text, _))

/-- What the template of a rule writes before the tag: the name of an assignment, or the word
before a bearer token. -/
def CompiledRule.lead (rule : CompiledRule) (m : Regex.Match) : Str :=
  (replacement rule m).take ((replacement rule m).length - (tag rule.class).length)

/-- The stretches before, between and behind the matches that are masked, each with what the
match behind it leaves in front of its tag. -/
def leavings (text : Str) (rule : CompiledRule) : Nat → List Regex.Match → List Str
  | last, [] => [text.drop last]
  | last, m :: ms =>
    if m.start < last then leavings text rule last ms
    else if rule.rejects (slice text m.start m.stop) then leavings text rule last ms
    else (slice text last m.start ++ rule.lead m) :: leavings text rule m.stop ms

/-- What the matches of the rules leave of a text, each rule in the stretches that those before
it have left. -/
def stretches : List CompiledRule → Str → List Str
  | [], text => [text]
  | rule :: rules, text => (leavings text rule 0 (rule.re.findAll text)).flatMap (stretches rules)

/-- Texts joined with a tag between them. -/
inductive Tagged : List Str → Str → Prop where
  | last (x : Str) : Tagged [x] x
  | tag {x y body : Str} {xs : List Str} (hbody : body ∈ tagBodies) (h : Tagged xs y) :
    Tagged (x :: xs) (x ++ '[' :: (body ++ ']' :: y))

theorem replacement_of_group {rule : CompiledRule} {i : Nat} {x s : Str}
    (h : rule.replaceTpl = [.group i, .text s]) (hs : s = x ++ tag rule.class) (m : Regex.Match) :
    replacement rule m = (groupText m.groups i ++ x) ++ tag rule.class := by
  rw [replacement, h, if_pos (List.cons_ne_nil _ _), hs]
  simp [expand]

/-- Every rule ends what it writes with the tag of its class. -/
theorem replacement_lead : ∀ rule ∈ builtinRules, ∀ m,
    replacement rule m = rule.lead m ++ tag rule.class := by
  have hends : ∀ rule ∈ builtinRules, ∀ m, ∃ x, replacement rule m = x ++ tag rule.class := by
    refine forall_builtinRules.mpr ⟨fun m => ⟨[], rfl⟩, fun m => ⟨[], rfl⟩, fun m => ⟨[], rfl⟩,
      fun m => ⟨[], rfl⟩, fun m => ⟨[], rfl⟩, fun m => ?_, fun m => ?_, fun m => ⟨[], rfl⟩⟩
    · exact ⟨_, replacement_of_group (x := ['=']) rfl rfl m⟩
    · exact ⟨_, replacement_of_group (x := []) rfl rfl m⟩
  intro rule hrule m
  obtain ⟨x, hx⟩ := hends rule hrule m
  rw [CompiledRule.lead, hx, List.length_append, Nat.add_sub_cancel, List.take_left]

theorem tag_class : ∀ rule ∈ builtinRules, ∃ body ∈ tagBodies, tag rule.class = '[' :: (body ++ [']']) :=
  forall_builtinRules.mpr
    ⟨⟨"REDACTED:email".toList, by decide⟩, ⟨"REDACTED:jwt".toList, by decide⟩,
      ⟨"REDACTED:aws_access_key".toList, by decide⟩, ⟨"REDACTED:credit_card".toList, by decide⟩,
      ⟨"REDACTED:iban".toList, by decide⟩, ⟨"REDACTED:secret".toList, by decide⟩,
      ⟨"REDACTED:secret".toList, by decide⟩, ⟨"REDACTED:secret".toList, by decide⟩⟩

/-- Where nothing is counted nothing is left out. -/
theorem spliceFrom_of_none {text : Str} {rule : CompiledRule} {last : Nat} {ms : List Regex.Match}
    (h : (spliceFrom text rule last ms).2 = 0) : (spliceFrom text rule last ms).1 = text.drop last := by
  induction ms with
  | nil => rfl
  | cons m ms ih =>
    rw [spliceFrom] at h ⊢
    split at h
    · rw [if_pos ‹_›]
      exact ih h
    · rw [if_neg ‹_›]
      split at h
      · rw [if_pos ‹_›]
        exact ih h
      · cases h

theorem tagged_spliceFrom {rule : CompiledRule} (hrule : rule ∈ builtinRules) (text : Str) (last : Nat)
    (ms : List Regex.Match) : Tagged (leavings text rule last ms) (spliceFrom text rule last ms).1 := by
  induction ms generalizing last with
  | nil => exact .last _
  | cons m ms ih =>
    rw [leavings, spliceFrom]
    split
    · exact ih last
    · have hany : (rule.validate.any fun ok => !ok (slice text m.start m.stop)) =
          rule.rejects (slice text m.start m.stop) := rfl
      rw [hany]
      split
      · exact ih last
      · obtain ⟨body, hbody, htag⟩ := tag_class rule hrule
        have hstep := Tagged.tag (x := slice text last m.start ++ rule.lead m) hbody (ih m.stop)
        dsimp only
        rw [replacement_lead rule hrule, htag]
        simpa using hstep

theorem tagged_applyRule {rule : CompiledRule} (hrule : rule ∈ builtinRules) (text : Str) :
    Tagged (leavings text rule 0 (rule.re.findAll text)) (applyRule text rule).1 := by
  have hsplice := tagged_spliceFrom hrule text 0 (rule.re.findAll text)
  unfold applyRule
  dsimp only
  split
  · rename_i hzero
    rwa [spliceFrom_of_none hzero] at hsplice
  · exact hsplice

theorem applyRule_eq_zero_iff (text : Str) (rule : CompiledRule) :
    (applyRule text rule).2 = 0 ↔ ¬ rule.Matches text := by
  have hcount (ms : List Regex.Match) : (spliceFrom text rule 0 ms).2 = 0 ↔
      ∀ m ∈ ms, rule.rejects (slice text m.start m.stop) = true := by
    induction ms with
    | nil => simp [spliceFrom]
    | cons m ms ih =>
      have hany : (rule.validate.any fun ok => !ok (slice text m.start m.stop)) =
          rule.rejects (slice text m.start m.stop) := rfl
      rw [spliceFrom, if_neg (Nat.not_lt_zero _), hany, List.forall_mem_cons]
      cases hrej : rule.rejects (slice text m.start m.stop) with
      | true =>
        rw [if_pos rfl, ih]
        simp
      | false => simp
  have happly : (applyRule text rule).2 = 0 ↔ (spliceFrom text rule 0 (rule.re.findAll text)).2 = 0 := by
    unfold applyRule
    dsimp only
    split
    · rename_i hzero
      simp [hzero]
    · rfl
  rw [happly, hcount]
  unfold CompiledRule.Matches
  simp

theorem hits_eq_zero_iff {rules : List CompiledRule} (hs : ∀ rule ∈ rules, rule.Sound) (text : Str) :
    hits rules text = 0 ↔ ∀ rule ∈ rules, ¬ rule.Matches text := by
  induction rules with
  | nil => simp [hits]
  | cons rule rules ih =>
    obtain ⟨hsound, hrest⟩ := List.forall_mem_cons.mp hs
    rw [hits, Nat.add_eq_zero_iff, applyRule_eq_zero_iff, List.forall_mem_cons]
    refine and_congr_right fun hno => ?_
    have hzero := (applyRule_eq_zero_iff text rule).mpr hno
    have hsame : (applyRule text rule).1 = text := by
      rw [applyRule_scan hsound] at hzero ⊢
      exact (Edits.target_eq_source hzero).trans (source_scan hsound none text)
    rw [hsame, ih hrest]

section Words
variable {v : Str} (hv : ∀ c ∈ v, isBracket c = false) (htag : ∀ body ∈ tagBodies, ¬ v <:+: body)
include hv htag

/-- A word that is part of no tag occurs behind the rules where it occurs in what is left of one of
the texts that the tags join. -/
theorem Tagged.infix_iff {rules : List CompiledRule} (hrules : ∀ rule ∈ rules, rule ∈ builtinRules)
    {xs : List Str} {y : Str} (h : Tagged xs y) :
    v <:+: rewritten rules y ↔ ∃ x ∈ xs, v <:+: rewritten rules x := by
  have hopen : '[' ∉ v := fun hmem => absurd (hv _ hmem) (by decide)
  have hclose : ']' ∉ v := fun hmem => absurd (hv _ hmem) (by decide)
  have hhard (rule : CompiledRule) (hrule : rule ∈ rules) :
      rule.Sound ∧ rule.hard '[' = true ∧ rule.hard ']' = true :=
    ⟨sound_of_mem_builtinRules rule (hrules rule hrule), hard_bracket rule (hrules rule hrule)⟩
  induction h with
  | last x => simp
  | @tag x y body xs hbody h ih =>
    have hself : rewritten rules body = body := by
      apply rewritten_of_no_hits fun rule hrule => (hhard rule hrule).1
      rw [hits_eq_zero_iff fun rule hrule => (hhard rule hrule).1]
      intro rule hrule
      rw [← applyRule_eq_zero_iff, applyRule_tagBody rule (hrules rule hrule) body hbody]
    have hrec : v <:+: rewritten rules y ↔ ∃ x ∈ xs, v <:+: rewritten rules x := ih
    rw [rewritten_divide (fun rule hrule => ⟨(hhard rule hrule).1, (hhard rule hrule).2.1⟩),
      rewritten_divide (fun rule hrule => ⟨(hhard rule hrule).1, (hhard rule hrule).2.2⟩),
      infix_append_cons hopen, infix_append_cons hclose, hrec, hself, List.exists_mem_cons_iff]
    simp [htag body hbody]

theorem infix_rewritten_iff {rules : List CompiledRule} (hrules : ∀ rule ∈ rules, rule ∈ builtinRules)
    (text : Str) : v <:+: rewritten rules text ↔ ∃ u ∈ stretches rules text, v <:+: u := by
  induction rules generalizing text with
  | nil => simp [rewritten, stretches]
  | cons rule rules ih =>
    obtain ⟨hrule, hrest⟩ := List.forall_mem_cons.mp hrules
    rw [rewritten_cons, (tagged_applyRule hrule text).infix_iff hv htag hrest, stretches]
    simp only [ih hrest, List.mem_flatMap]
    constructor
    · rintro ⟨x, hx, u, hu, hinfix⟩
      exact ⟨u, ⟨x, hx, hu⟩, hinfix⟩
    · rintro ⟨u, ⟨x, hx, hu⟩, hinfix⟩
      exact ⟨x, hx, u, hu, hinfix⟩

end Words

/-- A word that is part of no tag is counted where it occurs. -/
theorem length_le_exposed {v t : Str} (hv : ∀ c ∈ v, isBracket c = false)
    (htag : ∀ body ∈ tagBodies, ¬ v <:+: body) (h : v <:+: t) : v.length ≤ exposed t := by
  induction hk : t.length using Nat.strong_induction_on generalizing t with
  | _ k ih =>
    rcases plain_or_bracket t with hplain | ⟨f, b, z, rfl, hb⟩
    · rw [exposed_plain hplain, weight, if_neg fun hmem => htag t hmem h]
      exact h.length_le
    · have hbv : b ∉ v := by
        intro hmem
        rw [hv b hmem] at hb
        cases hb
      rw [List.length_append, List.length_cons] at hk
      rw [exposed_bracket hb]
      rcases (infix_append_cons hbv).mp h with hf | hz
      · have hle := ih f.length (by omega) hf rfl
        omega
      · have hle := ih z.length (by omega) hz rfl
        omega

def secretNames : List Str :=
  ["api_key", "api-key", "apikey", "access_key", "access-key", "accesskey", "token", "secret",
    "password", "passwd"].map String.toList

def isSecretChar (c : Char) : Bool :=
  Regex.accepts false [('A', 'Z'), ('a', 'z'), ('0', '9'), ('_', '_'), ('-', '-'), ('/', '/'), ('+', '+'),
    ('=', '=')] c

/-- A value has a member at some level. -/
inductive HasMember (name : Str) (value : Json) : Json → Prop where
  | here {ms : List (Str × Json)} (h : (name, value) ∈ ms) : HasMember name value (.obj ms)
  | member {ms : List (Str × Json)} {m : Str × Json} (hm : m ∈ ms) (h : HasMember name value m.2) :
    HasMember name value (.obj ms)
  | item {xs : List Json} {x : Json} (hx : x ∈ xs) (h : HasMember name value x) :
    HasMember name value (.arr xs)

/-- A JSON text with a member that has the name and the value of a secret. -/
structure KeyedSecret (t name value : Str) : Prop where
  member : ∃ v, parse t = some v ∧ HasMember name (.str value) v
  name : ∃ n ∈ secretNames, Text.equalFold name n = true
  length : 32 ≤ value.length
  chars : ∀ c ∈ value, isSecretChar c = true

theorem isSecretChar_ne {c d : Char} (h : isSecretChar c = true) (hd : isSecretChar d = false) : d ≠ c := by
  rintro rfl
  rw [h] at hd
  cases hd

theorem KeyedSecret.notMem {t name value : Str} (h : KeyedSecret t name value) {d : Char}
    (hd : isSecretChar d = false) : d ∉ value :=
  fun hmem => isSecretChar_ne (h.chars d hmem) hd rfl

theorem tagBody_length : ∀ body ∈ tagBodies, body.length < 32 := by decide

theorem KeyedSecret.plain {t name value : Str} (h : KeyedSecret t name value) :
    ∀ c ∈ value, isBracket c = false := by
  intro c hc
  by_contra hb
  have hbr : c = '[' ∨ c = ']' := by simpa [isBracket, or_iff_not_imp_left] using hb
  rcases hbr with rfl | rfl
  · exact h.notMem (by decide) hc
  · exact h.notMem (by decide) hc

theorem KeyedSecret.not_tag {t name value : Str} (h : KeyedSecret t name value) :
    ∀ body ∈ tagBodies, ¬ value <:+: body := by
  intro body hbody hsub
  have hlen := hsub.length_le
  have hshort := tagBody_length body hbody
  have hlong := h.length
  omega

/-- A value stays as it is exactly when no rule matches in it. -/
theorem KeyedSecret.infix_own_iff {t name value : Str} (h : KeyedSecret t name value) :
    value <:+: rewritten builtinRules value ↔ ∀ rule ∈ builtinRules, ¬ rule.Matches value := by
  rw [← hits_eq_zero_iff sound_of_mem_builtinRules]
  constructor
  · intro hinfix
    have hle : value.length ≤ exposed (rewritten builtinRules value) :=
      length_le_exposed h.plain h.not_tag hinfix
    have hmeasure := exposed_builtin value
    have hself := exposed_le value
    omega
  · intro hnone
    rw [rewritten_of_no_hits sound_of_mem_builtinRules hnone]

/-- The value of a secret is masked exactly when a pattern matches in the value itself, if it
is written without escapes, and the matches in the other strings leave no stretch that has it.
The name has no part in it. -/
theorem keyed_secret_masked_iff (t name value : Str) (h : KeyedSecret t name value) :
    ¬ value <:+: (builtin.redactBytes t).1 ↔
      (value ∈ Text.splitOn '"' t → ∃ rule ∈ builtinRules, rule.Matches value) ∧
        ∀ s ∈ Text.splitOn '"' t, s ≠ value → ∀ u ∈ stretches builtinRules s, ¬ value <:+: u := by
  obtain ⟨v, hparse, _⟩ := h.member
  have hjoin := (joins_of_parse hparse).infix_iff (h.notMem (by decide)) (h.notMem (by decide))
  have hparts (s : Str) := infix_rewritten_iff h.plain h.not_tag (fun _ hrule => hrule) s
  rw [redactBytes_fst, hjoin]
  constructor
  · intro hnone
    refine ⟨?_, ?_⟩
    · intro hmem
      by_contra hclean
      push Not at hclean
      exact hnone ⟨_, List.mem_map.mpr ⟨value, hmem, rfl⟩, h.infix_own_iff.mpr hclean⟩
    · intro s hs _ u hu hinfix
      exact hnone ⟨_, List.mem_map.mpr ⟨s, hs, rfl⟩, (hparts s).mpr ⟨u, hu, hinfix⟩⟩
  · rintro ⟨hself, hothers⟩ ⟨x, hx, hinfix⟩
    obtain ⟨s, hs, rfl⟩ := List.mem_map.mp hx
    by_cases he : s = value
    · subst he
      obtain ⟨rule, hrule, hmatch⟩ := hself hs
      exact h.infix_own_iff.mp hinfix rule hrule hmatch
    · obtain ⟨u, hu, hin⟩ := (hparts s).mp hinfix
      exact hothers s hs he u hu hin

def plainSecret : Str := List.replicate 32 'a'

def plainBody : Str := "\x7b\"token\":\"".toList ++ plainSecret ++ "\"\x7d".toList

def keyedBody : Str := "\x7b\"token\":\"sk-".toList ++ plainSecret ++ "\"\x7d".toList

theorem keyedSecret_plainBody : KeyedSecret plainBody "token".toList plainSecret :=
  ⟨⟨.obj [("token".toList, .str plainSecret)], by decide +kernel, .here (by simp)⟩,
    ⟨"token".toList, by decide, by decide⟩, by decide, by decide +kernel⟩

theorem plainBody_not_masked : KeyedSecret plainBody "token".toList plainSecret ∧
    plainSecret <:+: (builtin.redactBytes plainBody).1 :=
  ⟨keyedSecret_plainBody, by decide +kernel⟩

/-- The pattern of API keys matches inside this value. -/
theorem keyedBody_masked : ¬ ("sk-".toList ++ plainSecret) <:+: (builtin.redactBytes keyedBody).1 := by
  have hkeyed : KeyedSecret keyedBody "token".toList ("sk-".toList ++ plainSecret) :=
    ⟨⟨.obj [("token".toList, .str ("sk-".toList ++ plainSecret))], by decide +kernel, .here (by simp)⟩,
      ⟨"token".toList, by decide, by decide⟩, by decide, by decide +kernel⟩
  exact (keyed_secret_masked_iff _ _ _ hkeyed).mpr ⟨by decide +kernel, by decide +kernel⟩

end Janus.Redaction
