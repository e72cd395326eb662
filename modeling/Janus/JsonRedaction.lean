import Janus.Lib.JsonLexing
import Janus.QuotedText

/-!
# Redacting JSON text

The rules run on the text of a result, not on its strings. In a JSON text no assignment
reaches across a quote, so that the parts between the quotes are redacted on their own and
joined again (`joins_of_parse`); only the quote that closes a string may get lost.
-/

namespace Janus.Redaction

set_option autoImplicit false

open Regex JsonText

theorem mem_target {es : List Edit} {c : Char} (h : c ∈ Edits.target es) :
    c ∈ Edits.source es ∨ ∃ u copied ins, Edit.cut u copied ins ∈ es ∧ c ∈ ins := by
  obtain ⟨e, he, hc⟩ := List.mem_flatMap.mp h
  cases e with
  | kept d => exact Or.inl (List.mem_flatMap.mpr ⟨_, he, hc⟩)
  | cut u copied ins =>
    rcases List.mem_append.mp hc with hc | hc
    · exact Or.inl (List.mem_flatMap.mpr ⟨_, he, List.mem_of_mem_take hc⟩)
    · exact Or.inr ⟨u, copied, ins, he, hc⟩

/-- Every character that a rule writes stood in the text or stands in what it inserts. -/
theorem mem_applyRule {rule : CompiledRule} (hrule : rule ∈ builtinRules) {text : Str} {c : Char}
    (h : c ∈ (applyRule text rule).1) : c ∈ text ∨ c ∈ rule.inserted [] := by
  have hsound := sound_of_mem_builtinRules rule hrule
  rw [applyRule_scan hsound] at h
  rcases mem_target h with hc | ⟨u, copied, ins, hmem, hc⟩
  · rw [source_scan hsound] at hc
    exact Or.inl hc
  · obtain ⟨_, _, gs, _, _, rfl, _⟩ := cut_of_mem_scan hsound hmem
    rw [inserted_builtin rule hrule gs] at hc
    exact Or.inr hc

theorem forall_rewritten {P : Char → Prop} {rules : List CompiledRule}
    (hrules : ∀ rule ∈ rules, rule ∈ builtinRules) (hins : ∀ rule ∈ rules, ∀ c ∈ rule.inserted [], P c)
    {text : Str} (h : ∀ c ∈ text, P c) : ∀ c ∈ rewritten rules text, P c := by
  induction rules generalizing text with
  | nil => exact h
  | cons rule rules ih =>
    obtain ⟨hrule, hrest⟩ := List.forall_mem_cons.mp hrules
    obtain ⟨hfirst, hothers⟩ := List.forall_mem_cons.mp hins
    apply ih hrest hothers
    intro c hc
    exact (mem_applyRule hrule hc).elim (h c) (hfirst c)

theorem notMem_rewritten {rules : List CompiledRule} (hrules : ∀ rule ∈ rules, rule ∈ builtinRules)
    {c : Char} (hc : ∀ rule ∈ rules, c ∉ rule.inserted []) {text : Str} (h : c ∉ text) :
    c ∉ rewritten rules text := by
  have hne : ∀ {s : Str}, c ∉ s → ∀ d ∈ s, d ≠ c := fun hs d hd he => hs (he ▸ hd)
  intro hmem
  exact forall_rewritten hrules (fun rule hrule => hne (hc rule hrule)) (hne h) c hmem rfl

theorem quote_notMem_early {f : Str} (h : '"' ∉ f) : '"' ∉ rewritten earlyRules f :=
  notMem_rewritten (fun _ hrule => mem_builtinRules_of_early hrule) (by decide) h

theorem rewritten_nil {rules : List CompiledRule} (h : ∀ rule ∈ rules, rule.Sound) :
    rewritten rules [] = [] := by
  induction rules with
  | nil => rfl
  | cons rule rules ih =>
    obtain ⟨hsound, hrest⟩ := List.forall_mem_cons.mp h
    rw [rewritten_cons, applyRule_scan hsound, scan_nil]
    exact ih hrest

theorem sound_of_early {rule : CompiledRule} (h : rule ∈ earlyRules) : rule.Sound :=
  sound_of_mem_builtinRules rule (mem_builtinRules_of_early h)

theorem not_lang_assignHeadRe {y : Str} {c : Char} (hc : assignHeadRe.consumes c = false)
    (h : c ∈ y) : ¬ Lang assignHeadRe y := by
  intro hlang
  rw [consumes_of_lang assignHeadRe hlang c h] at hc
  cases hc

theorem hard_backslash_early : ∀ rule ∈ earlyRules, rule.hard '\\' = true := by decide

theorem early_backslash (x : Str) :
    rewritten earlyRules (x ++ ['\\']) = rewritten earlyRules x ++ ['\\'] := by
  have hnil : rewritten earlyRules [] = [] := rewritten_nil fun rule h => sound_of_early h
  have hdivide := rewritten_divide
    (fun rule h => ⟨sound_of_early h, hard_backslash_early rule h⟩) x []
  rwa [hnil] at hdivide

/-- A backslash stands between an assignment and the quote. -/
theorem apart_of_backslash {f : Str} (h : f.getLast? = some '\\') (z : Str) :
    Apart (rewritten earlyRules f) z := by
  right
  obtain ⟨x, rfl⟩ := List.getLast?_eq_some_iff.mp h
  rw [early_backslash]
  intro y hy hlang
  rcases List.suffix_concat_iff.mp hy with rfl | ⟨t, rfl, _⟩
  · exact absurd (minLen_of_lang _ hlang) (by decide)
  · exact not_lang_assignHeadRe (c := '\\') (by decide) (by simp) hlang

theorem first_of_starts {rule : CompiledRule} (h : rule.Sound) {c : Char}
    (hc : rule.re.starts c = false) (prev : Option Char) (z : Str) :
    rule.re.first prev (c :: z) = none := by
  apply Option.eq_none_iff_forall_not_mem.mpr
  rintro ⟨n, gs⟩ hf
  obtain ⟨n, rfl⟩ := Nat.exists_eq_succ_of_ne_zero (first_pos h hf).ne'
  have hlang : Lang rule.re (c :: z.take n) := (first_sound hf).2
  rw [starts_of_lang rule.re hlang] at hc
  cases hc

/-- A character that no rule begins with stays in front. -/
theorem head_rewritten {rules : List CompiledRule} {c : Char}
    (h : ∀ rule ∈ rules, rule.Sound ∧ rule.re.starts c = false) (z : Str) :
    ∃ z', rewritten rules (c :: z) = c :: z' := by
  induction rules generalizing z with
  | nil => exact ⟨z, rfl⟩
  | cons rule rules ih =>
    obtain ⟨⟨hsound, hc⟩, hrest⟩ := List.forall_mem_cons.mp h
    rw [rewritten_cons, applyRule_scan hsound, scan_none (first_of_starts hsound hc none z)]
    exact ih hrest _

def delimiters : List Char := [' ', '\t', '\n', '\r', ',', ':', ']', '}']

theorem mem_delimiters {c : Char} (h : isDelimiter c = true) : c ∈ delimiters := by
  simpa [isDelimiter, isSpace, delimiters, or_assoc] using h

theorem starts_delimiter : ∀ c ∈ delimiters, ∀ rule ∈ earlyRules, rule.re.starts c = false := by
  decide

theorem secretChar_delimiter : ∀ c ∈ delimiters, secretCharRe.consumes c = false := by
  decide

/-- Behind the closing quote no value begins. -/
theorem apart_of_closes (x : Str) {z : Str} (h : closes z = true) :
    Apart x (rewritten earlyRules z) := by
  left
  cases z with
  | nil =>
    rw [rewritten_nil fun rule h => sound_of_early h]
    simp
  | cons c z =>
    have hc : c ∈ delimiters := mem_delimiters (by simpa [closes] using h)
    obtain ⟨z', hz⟩ := head_rewritten
      (fun rule hrule => ⟨sound_of_early hrule, starts_delimiter c hc rule hrule⟩) z
    rw [hz]
    intro d hd
    cases hd
    exact secretChar_delimiter c hc

/-- The end of what is written, up to the last bracket, is an end of the text. -/
theorem suffix_target {es : List Edit}
    (h : ∀ u copied ins, Edit.cut u copied ins ∈ es → ins.getLast? = some ']') {y : Str}
    (hy : y <:+ Edits.target es) (hb : ']' ∉ y) : y <:+ Edits.source es := by
  induction es using List.reverseRecOn generalizing y with
  | nil => exact hy
  | append_singleton es e ih =>
    have hes : ∀ u copied ins, Edit.cut u copied ins ∈ es → ins.getLast? = some ']' :=
      fun u copied ins hmem => h u copied ins (List.mem_append_left [e] hmem)
    rw [Edits.target_append] at hy
    rw [Edits.source_append]
    cases e with
    | kept c =>
      rcases List.suffix_concat_iff.mp (by simpa [Edit.target] using hy) with rfl | ⟨t, rfl, ht⟩
      · exact List.nil_suffix
      · have hrec := ih hes ht fun hmem => hb (List.mem_append_left [c] hmem)
        obtain ⟨x, hx⟩ := hrec
        exact ⟨x, by simp [← hx, Edit.source]⟩
    | cut u copied ins =>
      obtain ⟨v, hv⟩ := List.getLast?_eq_some_iff.mp
        (h u copied ins (List.mem_append_right es List.mem_cons_self))
      have hends : Edits.target es ++ Edits.target [.cut u copied ins] =
          (Edits.target es ++ (u.take copied ++ v)) ++ [']'] := by
        simp [Edit.target, hv]
      rw [hends] at hy
      rcases List.suffix_concat_iff.mp hy with rfl | ⟨t, rfl, _⟩
      · exact List.nil_suffix
      · exact absurd (by simp) hb

theorem suffix_rewritten {rules : List CompiledRule} (h : ∀ rule ∈ rules, rule ∈ builtinRules)
    {text y : Str} (hy : y <:+ rewritten rules text) (hb : ']' ∉ y) : y <:+ text := by
  induction rules generalizing text with
  | nil => exact hy
  | cons rule rules ih =>
    obtain ⟨hrule, hrest⟩ := List.forall_mem_cons.mp h
    have hsound := sound_of_mem_builtinRules rule hrule
    have hstep : y <:+ (applyRule text rule).1 := ih hrest hy
    rw [applyRule_scan hsound] at hstep
    have hsource := suffix_target (fun u copied ins hmem => ?_) hstep hb
    · rwa [source_scan hsound] at hsource
    · obtain ⟨_, _, gs, _, _, rfl, _⟩ := cut_of_mem_scan hsound hmem
      rw [inserted_builtin rule hrule gs]
      exact inserted_ends rule hrule

/-- One of these letters is in every keyword. -/
def isKeywordLetter (c : Char) : Bool :=
  accepts true [('p', 'p')] c || accepts true [('c', 'c')] c || accepts true [('k', 'k')] c

theorem isKeywordLetter_of_lang {s : String} {u : Str} (h : Lang (chars true s) u)
    (hk : 'p' ∈ s.toList ∨ 'c' ∈ s.toList ∨ 'k' ∈ s.toList) : ∃ c ∈ u, isKeywordLetter c = true := by
  rcases hk with hk | hk | hk
  · obtain ⟨c, hc, ha⟩ := mem_of_lang_chars h hk
    exact ⟨c, hc, by simp [isKeywordLetter, ha]⟩
  · obtain ⟨c, hc, ha⟩ := mem_of_lang_chars h hk
    exact ⟨c, hc, by simp [isKeywordLetter, ha]⟩
  · obtain ⟨c, hc, ha⟩ := mem_of_lang_chars h hk
    exact ⟨c, hc, by simp [isKeywordLetter, ha]⟩

theorem keywordLetter {u : Str} (h : Lang keywordRe u) : ∃ c ∈ u, isKeywordLetter c = true := by
  have hfirst : ∀ {s : String} {rs : List Regex} {u : Str}, Lang (seqAll (chars true s :: rs)) u →
      ('p' ∈ s.toList ∨ 'c' ∈ s.toList ∨ 'k' ∈ s.toList) → ∃ c ∈ u, isKeywordLetter c = true := by
    rintro s rs u ⟨a, b, rfl, ha, _⟩ hk
    obtain ⟨c, hc, hletter⟩ := isKeywordLetter_of_lang ha hk
    exact ⟨c, List.mem_append_left b hc, hletter⟩
  rcases h with h | h | h | h | h | h
  · exact hfirst h (by decide)
  · exact hfirst h (by decide)
  · exact isKeywordLetter_of_lang h (by decide)
  · exact isKeywordLetter_of_lang h (by decide)
  · exact isKeywordLetter_of_lang h (by decide)
  · exact isKeywordLetter_of_lang h (by decide)

theorem toNat_lt_of_isStructural {c : Char} (h : isStructural c = true) : c.toNat < 128 := by
  have hlist : ∀ d ∈ "[]{},:truefalsn".toList, d.toNat < 128 := by decide
  by_cases hdigit : isDigit c = true
  · have hle : c.toNat ≤ '9'.toNat := by
      have hd := (Bool.and_eq_true_iff.mp hdigit).2
      exact of_decide_eq_true hd
    exact Nat.lt_of_le_of_lt hle (by decide)
  · simp only [isStructural, isSpace, isNumChar, hdigit, Bool.or_eq_true, decide_eq_true_eq,
      Bool.false_or] at h
    rcases h with (hspace | hnum) | hmem
    · rcases hspace with ((rfl | rfl) | rfl) | rfl <;> decide
    · rcases hnum with (((rfl | rfl) | rfl) | rfl) | rfl <;> decide
    · exact hlist c hmem

theorem not_isKeywordLetter {c : Char} (h : isStructural c = true) : isKeywordLetter c = false := by
  have hall : ∀ n < 128, isStructural (Char.ofNat n) = true → isKeywordLetter (Char.ofNat n) = false := by
    decide +kernel
  have hc := hall c.toNat (toNat_lt_of_isStructural h)
  rw [Char.ofNat_toNat] at hc
  exact hc h

/-- Outside the strings no keyword stands in front of the quote. -/
theorem apart_of_structural {f : Str} (h : ∀ c ∈ f, isStructural c = true) (z : Str) :
    Apart (rewritten earlyRules f) z := by
  right
  intro y hy hlang
  have hb : ']' ∉ y := fun hmem => not_lang_assignHeadRe (by decide) hmem hlang
  have hf := suffix_rewritten (fun rule hrule => mem_builtinRules_of_early hrule) hy hb
  obtain ⟨a, b, rfl, ha, k, rest, rfl, hk, _⟩ := hlang
  obtain ⟨c, hc, hletter⟩ := keywordLetter hk
  have hmem : c ∈ f := hf.subset (by simp [hc])
  rw [not_isKeywordLetter (h c hmem)] at hletter
  cases hletter

/-- Texts joined with a quote between them, which may be missing behind a bracket. -/
inductive Joins : List Str → Str → Prop where
  | last (x : Str) : Joins [x] x
  | quote {x y : Str} {xs : List Str} (h : Joins xs y) : Joins (x :: xs) (x ++ '"' :: y)
  | taken {x y : Str} {xs : List Str} (hx : x.getLast? = some ']') (h : Joins xs y) :
    Joins (x :: xs) (x ++ y)

theorem Joins.quoted {f z : Str} {xs : List Str} (hq : '"' ∉ f)
    (hsafe : Apart (rewritten earlyRules f) (rewritten earlyRules z))
    (h : Joins xs (rewritten builtinRules z)) :
    Joins (rewritten builtinRules f :: xs) (rewritten builtinRules (f ++ '"' :: z)) := by
  obtain ⟨he, hend⟩ := rewritten_quote (quote_notMem_early hq) hsafe
  rw [he]
  cases htake : takesQuote f with
  | true => simpa using Joins.taken (hend htake) h
  | false => simpa using Joins.quote h

/-- The parts of a text that is read by its quotes are redacted on their own. -/
theorem joins_of_lexes (inString : Bool) (t : Str) (h : lexes inString t = true) :
    Joins ((Text.splitOn '"' t).map (rewritten builtinRules)) (rewritten builtinRules t) := by
  induction hk : t.length using Nat.strong_induction_on generalizing t inString with
  | _ k ih =>
    have hnext : ∀ {f z : Str} (b : Bool), t = f ++ '"' :: z → '"' ∉ f → lexes b z = true →
        Apart (rewritten earlyRules f) (rewritten earlyRules z) →
        Joins ((Text.splitOn '"' t).map (rewritten builtinRules)) (rewritten builtinRules t) := by
      intro f z b ht hq hz hsafe
      have hlt : z.length < k := by
        rw [← hk, ht, List.length_append, List.length_cons]
        omega
      rw [ht, Text.splitOn_append_sep hq]
      exact Joins.quoted hq hsafe (ih z.length hlt b z hz rfl)
    cases inString with
    | false =>
      rcases outside_part t h with hall | ⟨f, z, ht, hf, hz⟩
      · have hq : '"' ∉ t := fun hmem => isStructural_ne_quote (hall _ hmem) rfl
        rw [Text.splitOn_of_notMem hq]
        exact Joins.last _
      · have hq : '"' ∉ f := fun hmem => isStructural_ne_quote (hf _ hmem) rfl
        exact hnext true ht hq hz (apart_of_structural hf _)
    | true =>
      obtain ⟨f, z, ht, hq, ⟨hlast, hz⟩ | ⟨hc, hz⟩⟩ := inside_part t h
      · exact hnext true ht hq hz (apart_of_backslash hlast _)
      · exact hnext false ht hq hz (apart_of_closes _ hc)

theorem joins_of_parse {t : Str} {v : Json} (h : parse t = some v) :
    Joins ((Text.splitOn '"' t).map (rewritten builtinRules)) (rewritten builtinRules t) :=
  joins_of_lexes false t (lexes_of_parse h)

end Janus.Redaction
