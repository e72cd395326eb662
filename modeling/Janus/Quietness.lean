import Janus.CardRuns
import Janus.MapRedaction
import Janus.QuotedText

/-!
# What a second run can find

A rule cuts between words, so that no cut makes anything match that did not match before
(`quiet_applyRule`), and a rule that rejects nothing leaves nothing that it matches. Only the
equals sign that an assignment leaves behind, where a longer value goes on into its name, and the
digits of a rejected card number that a later rule cuts into, can be found in a second run.
-/

namespace Janus.Redaction

set_option autoImplicit false

open Regex

theorem quiet_of_positions {r : Regex} {text : Str}
    (h : ∀ n ≤ text.length, r.first (text.take n).getLast? (text.drop n) = none) : Quiet r text := by
  rintro x z rfl
  have hx := h x.length (by simp)
  rwa [List.take_left, List.drop_left] at hx

theorem quiet_tagBody : ∀ rule ∈ builtinRules, ∀ body ∈ tagBodies, Quiet rule.re body := by
  have hall : ∀ rule ∈ builtinRules, ∀ body ∈ tagBodies, ∀ n ≤ body.length,
      rule.re.first (body.take n).getLast? (body.drop n) = none :=
    forall_builtinRules.mpr (by decide +kernel)
  intro rule hrule body hbody
  exact quiet_of_positions (hall rule hrule body hbody)

theorem quiet_bracket {rule : CompiledRule} (hrule : rule ∈ builtinRules) {c : Char}
    (hc : c = '[' ∨ c = ']') {f z : Str} (hf : Quiet rule.re f) (hz : Quiet rule.re z) :
    Quiet rule.re (f ++ c :: z) := by
  have hhard : rule.hard c = true := by
    rcases hc with rfl | rfl
    · exact (hard_bracket rule hrule).1
    · exact (hard_bracket rule hrule).2
  exact hf.join hz (isWord_of_hard hhard) (stops_of_hard hhard z c rfl)

theorem quiet_nil {rule : CompiledRule} (h : rule.Sound) : Quiet rule.re [] := by
  rintro a b he
  obtain ⟨rfl, rfl⟩ := List.append_eq_nil_iff.mp he.symm
  exact first_nil h none

theorem quiet_equals_of_hard {rule : CompiledRule} (hrule : rule ∈ builtinRules)
    (hhard : rule.hard '=' = true) {f : Str} (hf : Quiet rule.re f) : Quiet rule.re (f ++ ['=']) :=
  hf.join (quiet_nil (sound_of_mem_builtinRules rule hrule)) (isWord_of_hard hhard)
    (stops_of_hard hhard [] '=' rfl)

/-- Around a tag, perhaps behind an equals sign, everything stays quiet. -/
theorem quiet_around {rule : CompiledRule} (hrule : rule ∈ builtinRules) {f ins z : Str}
    (hf : Quiet rule.re f) (hins : IsTag ins) (hequals : '=' ∈ ins → Quiet rule.re (f ++ ['=']))
    (hz : Quiet rule.re z) : Quiet rule.re (f ++ (ins ++ z)) := by
  obtain ⟨sign, body, rfl, hsign, hbody, hone⟩ := hins
  have hfirst : Quiet rule.re (f ++ sign) := by
    match sign, hone with
    | [], _ => rwa [List.append_nil]
    | [c], _ =>
      cases hsign c List.mem_cons_self
      exact hequals (by simp)
    | _ :: _ :: _, hlen => simp at hlen
  have htext : f ++ (sign ++ '[' :: (body ++ [']']) ++ z) =
      (f ++ sign) ++ '[' :: (body ++ ']' :: z) := by simp
  rw [htext]
  exact quiet_bracket hrule (Or.inl rfl) hfirst
    (quiet_bracket hrule (Or.inr rfl) (quiet_tagBody rule hrule body hbody) hz)

/-- In each part between the tags nothing matches that did not match before. What was kept since
the last tag is `x`, and `y` stands before it in the text. -/
theorem quiet_target {rule : CompiledRule} (hrule : rule ∈ builtinRules) {es : List Edit}
    (htag : ∀ u copied ins, Edit.cut u copied ins ∈ es →
      IsTag ins ∧ ('=' ∈ ins → rule.hard '=' = true)) (y x : Str)
    (hq : Quiet rule.re (y ++ (x ++ Edits.source es))) (hy : Severed y (x ++ Edits.source es))
    (htrim : Trimmed (y ++ x) es) : Quiet rule.re (x ++ Edits.target es) := by
  induction es generalizing y x with
  | nil =>
    rw [Edits.source_nil, List.append_nil] at hy
    rw [Edits.target_nil, List.append_nil]
    exact hq.part hy (.of_right rfl)
  | cons e es ih =>
    have hes : ∀ u copied ins, Edit.cut u copied ins ∈ es →
        IsTag ins ∧ ('=' ∈ ins → rule.hard '=' = true) :=
      fun u copied ins hmem => htag u copied ins (List.mem_cons_of_mem e hmem)
    cases e with
    | kept c =>
      have hrec := ih hes y (x ++ [c]) (by simpa [Edit.source] using hq)
        (by simpa [Edit.source] using hy) (by simpa [Trimmed] using htrim)
      simpa [Edit.target] using hrec
    | cut u copied ins =>
      obtain ⟨hins, hequals⟩ := htag u copied ins List.mem_cons_self
      obtain ⟨hstart, hend, hrest⟩ := htrim
      have hsource : x ++ Edits.source (.cut u copied ins :: es) =
          (x ++ u.take copied) ++ (u.drop copied ++ Edits.source es) := by
        rw [Edits.source_cons, Edit.source, List.append_assoc, ← List.append_assoc (u.take copied),
          List.take_append_drop]
      have hlast : Quiet rule.re (Edits.target es) := by
        apply ih hes (y ++ x ++ u) []
        · simpa [Edit.source] using hq
        · simpa using hend
        · simpa using hrest
      have hpart : Quiet rule.re (x ++ u.take copied) := by
        rw [hsource] at hq hy
        apply hq.part (severed_append hy)
        rw [List.append_assoc] at hstart
        exact severed_of_append hstart
      have htext : x ++ Edits.target (.cut u copied ins :: es) =
          (x ++ u.take copied) ++ (ins ++ Edits.target es) := by
        simp [Edit.target]
      rw [htext]
      exact quiet_around hrule hpart hins
        (fun hsign => quiet_equals_of_hard hrule (hequals hsign) hpart) hlast

/-- A set that accepts every word character stops between words. -/
theorem severed_of_stops {fold : Bool} {ranges : List (Char × Char)} {x z : Str}
    (h : Stops (.set fold ranges) z) (hall : ∀ c, isWord c = true → accepts fold ranges c = true) :
    Severed x z := by
  apply Severed.of_right
  cases z with
  | nil => rfl
  | cons c z =>
    have hc : accepts fold ranges c = false := h c rfl
    rw [List.head?_cons, Option.any_some]
    by_contra hword
    rw [hall c (by simpa using hword)] at hc
    cases hc

def bearerRanges : List (Char × Char) :=
  [('A', 'Z'), ('a', 'z'), ('0', '9'), ('-', '-'), ('_', '_'), ('.', '.'), ('=', '=')]

def secretRanges : List (Char × Char) :=
  [('A', 'Z'), ('a', 'z'), ('0', '9'), ('_', '_'), ('-', '-'), ('/', '/'), ('+', '+'), ('=', '=')]

theorem accepts_bearerRanges : ∀ c, isWord c = true → accepts true bearerRanges c = true :=
  forall_isWord (by decide)

theorem accepts_secretRanges : ∀ c, isWord c = true → accepts true secretRanges c = true :=
  forall_isWord (by decide)

/-- The word of the Bearer pattern ends with white space. -/
theorem last_of_bearerWord {u : Str} (h : Lang bearerWordRe u) : u.getLast?.any isWord = false := by
  obtain ⟨_, _, rfl, rfl, b, _, rfl, _, sp, _, rfl, hsp, rfl⟩ := h
  have hmin := minLen_of_lang _ hsp
  have hne : sp ≠ [] := by
    rintro rfl
    exact absurd hmin (by decide)
  have hlast : sp.getLast? = some (sp.getLast hne) := List.getLast?_eq_some_getLast hne
  have hspace := consumes_of_lang _ hsp _ (List.getLast_mem hne)
  have hword : isWord (sp.getLast hne) = false := by
    by_contra hw
    have hno : ∀ c, isWord c = true → (Regex.rep 1 none space).consumes c = false :=
      forall_isWord (by decide)
    rw [hno _ (by simpa using hw)] at hspace
    cases hspace
  rw [List.nil_append, List.append_nil, List.getLast?_append_of_ne_nil b hne, hlast, Option.any_some, hword]

theorem trims_bearerRule : bearerRule.Trims := by
  intro x text n gs hf
  refine ⟨?_, ?_⟩
  · obtain ⟨u, v, hu, _, htake, hgroup⟩ := first_group (by decide) hf
    have hcopied : (text.take n).take (bearerRule.copied gs) = u := by
      have hlen : bearerRule.copied gs = u.length := congrArg List.length hgroup
      rw [htake, hlen, List.take_left]
    rw [hcopied]
    apply Severed.of_left
    rw [List.getLast?_append_of_ne_nil x (by rintro rfl; exact absurd (minLen_of_lang _ hu) (by decide))]
    exact last_of_bearerWord hu
  · obtain ⟨q, hq, hrest, _⟩ := exists_end hf
    obtain ⟨m, _, hm⟩ := mem_of_head_flatMap hq
    obtain ⟨m', hm', hsame⟩ := head_run_group (head_run_seq_empty hm)
    have hstop := stops_of_head_rep hm'
    rw [← hsame, hrest] at hstop
    exact severed_of_stops hstop accepts_bearerRanges

theorem trims_secretAssignRule : secretAssignRule.Trims := by
  intro x text n gs hf
  refine ⟨?_, ?_⟩
  · obtain ⟨u, v, _, hv, htake, hgroup⟩ := first_group (by decide) (first_boundary hf)
    have hlen : secretAssignRule.copied gs = u.length := congrArg List.length hgroup
    have hdrop : (text.take n).drop (secretAssignRule.copied gs) = v := by
      rw [htake, hlen, List.drop_left]
    rw [hdrop]
    apply Severed.of_right
    cases v with
    | nil => exact absurd (minLen_of_lang _ hv) (by decide)
    | cons c v =>
      rw [List.cons_append, List.head?_cons, Option.any_some]
      by_contra hword
      have hno : ∀ c, isWord c = true → (seqAll secretTail).starts c = false :=
        forall_isWord (by decide)
      have hstart : (seqAll secretTail).starts c = true := starts_of_lang _ hv
      rw [hno c (by simpa using hword)] at hstart
      cases hstart
  · obtain ⟨q, hq, hrest, hprev⟩ := exists_end hf
    have hrun : (secretAssignRe.run ⟨0, x.getLast?, text, []⟩).head? = some q := hq
    rw [run_secretAssignRe, head?_flatMap_quoteRe] at hrun
    obtain ⟨m, hm, hquote⟩ := Option.bind_eq_some_iff.mp hrun
    by_cases hhead : m.rest.head? = some '"'
    · obtain ⟨z, hz⟩ := List.head?_eq_some_iff.mp hhead
      rw [run_quoteRe_quote hz] at hquote
      cases hquote
      apply Severed.of_left
      rw [← hprev]
      rfl
    · rw [run_quoteRe_other hhead] at hquote
      cases hquote
      obtain ⟨m', _, hvalue⟩ := mem_of_head_flatMap hm
      obtain ⟨m'', hm'', hsame⟩ := head_run_group hvalue
      have hstop := stops_of_head_rep hm''
      rw [← hsame, hrest] at hstop
      exact severed_of_stops hstop accepts_secretRanges

theorem trims_of_mem_builtinRules : ∀ rule ∈ builtinRules, rule.Trims :=
  forall_builtinRules.mpr ⟨trims_of_bounded rfl rfl rfl, trims_of_bounded rfl rfl rfl,
    trims_of_bounded rfl rfl rfl, trims_of_bounded rfl rfl rfl, trims_of_bounded rfl rfl rfl,
    trims_secretAssignRule, trims_bearerRule, trims_of_bounded rfl rfl rfl⟩

/-- A rule whose equals sign cannot make the other one match leaves it quiet. -/
def Undisturbed (rule other : CompiledRule) : Prop := '=' ∈ other.inserted [] → rule.hard '=' = true

instance (rule other : CompiledRule) : Decidable (Undisturbed rule other) :=
  inferInstanceAs (Decidable (_ → _))

theorem quiet_applyRule {rule other : CompiledRule} (hrule : rule ∈ builtinRules)
    (hother : other ∈ builtinRules) (hsign : Undisturbed rule other) {text : Str}
    (h : Quiet rule.re text) : Quiet rule.re (applyRule text other).1 := by
  have hsound := sound_of_mem_builtinRules other hother
  rw [applyRule_scan hsound]
  have htag : ∀ u copied ins, Edit.cut u copied ins ∈ scan other none text →
      IsTag ins ∧ ('=' ∈ ins → rule.hard '=' = true) := by
    intro u copied ins hmem
    refine ⟨(masking_scan hother none text u copied ins hmem).1, ?_⟩
    obtain ⟨_, _, gs, _, _, rfl, _⟩ := cut_of_mem_scan hsound hmem
    rw [inserted_builtin other hother gs]
    exact hsign
  have hsource := source_scan hsound none text
  have htrim := trimmed_scan hsound (trims_of_mem_builtinRules other hother) [] text
  have hquiet := quiet_target hrule htag [] [] (by simpa [hsource] using h) (severed_nil _) htrim
  simpa using hquiet

theorem quiet_rewritten {rule : CompiledRule} (hrule : rule ∈ builtinRules)
    {rules : List CompiledRule} (hrules : ∀ other ∈ rules, other ∈ builtinRules ∧ Undisturbed rule other)
    {text : Str} (h : Quiet rule.re text) : Quiet rule.re (rewritten rules text) := by
  induction rules generalizing text with
  | nil => exact h
  | cons other rules ih =>
    obtain ⟨⟨hother, hsign⟩, hrest⟩ := List.forall_mem_cons.mp hrules
    rw [rewritten_cons]
    exact ih hrest (quiet_applyRule hrule hother hsign h)

theorem applyRule_of_quiet {rule : CompiledRule} (hs : rule.Sound) {text : Str}
    (h : Quiet rule.re text) : applyRule text rule = (text, 0) := by
  have hkeep : ∀ x z, text = x ++ z → scan rule x.getLast? z = Edits.keep z := by
    intro x z he
    induction z generalizing x with
    | nil => rw [scan_nil]; rfl
    | cons c z ih =>
      have hrest := ih (x ++ [c]) (by simp [he])
      rw [List.getLast?_concat] at hrest
      rw [scan_none (h x (c :: z) he), hrest]
      rfl
  have hscan : scan rule none text = Edits.keep text := hkeep [] text rfl
  rw [applyRule_scan hs, hscan, Edits.target_keep, Edits.cuts_keep]

/-- The rule rejects none of its matches. -/
def Unrejecting (rule : CompiledRule) (text : Str) : Prop :=
  ∀ m ∈ rule.re.findAll text, rule.rejects (slice text m.start m.stop) = false

/-- Nothing matches in what the cuts of the rule copy, nor across the equals sign that they leave, if
what stands before is one of the texts that the equals sign does not complete. -/
def LeavesQuiet (rule : CompiledRule) (ends : Str → Prop) (es : List Edit) : Prop :=
  ∀ u copied ins, Edit.cut u copied ins ∈ es →
    ('=' ∈ ins → ∀ f, ends f → Quiet rule.re (f ++ u.take copied) →
      Quiet rule.re (f ++ u.take copied ++ ['='])) ∧
    ∀ a z prev, u.take copied = a ++ z → rule.re.first prev z = none

/-- What stands before a match of the rule is one of the texts, and so is every end of it. -/
def EndsBefore (ends : Str → Prop) (text : Str) (m : Match) : Prop := ∀ f, f <:+ text.take m.start → ends f

/-- Nothing matches from a place in `x`, where `y` stands before it and `z` behind it. -/
def Unmatched (r : Regex) (y x z : Str) : Prop :=
  ∀ a b, x = a ++ b → b ≠ [] → r.first (y ++ a).getLast? (b ++ z) = none

theorem unmatched_nil (r : Regex) (y z : Str) : Unmatched r y [] z :=
  fun _ _ he hb => absurd (List.append_eq_nil_iff.mp he.symm).2 hb

theorem Unmatched.concat {r : Regex} {y x cs : Str} {c : Char} (h : Unmatched r y x (c :: cs))
    (hf : r.first (y ++ x).getLast? (c :: cs) = none) : Unmatched r y (x ++ [c]) cs := by
  intro a b he hb
  rcases List.append_eq_append_iff.mp he with ⟨a', rfl, ha⟩ | ⟨b', hx, rfl⟩
  · have hnil : a' = [] := by
      rcases List.cons_eq_append_iff.mp ha with ⟨h, _⟩ | ⟨_, _, h⟩
      · exact h
      · exact absurd (List.append_eq_nil_iff.mp h.symm).2 hb
    subst hnil
    cases ha
    rw [List.append_nil]
    exact hf
  · by_cases hnil : b' = []
    · subst hnil
      rw [List.append_nil] at hx
      rw [← hx]
      exact hf
    · rw [List.append_assoc]
      exact h a b' hx hnil

/-- What is kept before a cut is quiet when nothing matched in it. -/
theorem quiet_kept {r : Regex} {y x k z : Str} (hkept : Unmatched r y x (k ++ z))
    (hk : ∀ a b prev, k = a ++ b → r.first prev b = none) (hy : Severed y (x ++ k))
    (hz : Severed (x ++ k) z) : Quiet r (x ++ k) := by
  intro a b he
  rcases List.append_eq_append_iff.mp he with ⟨a', rfl, hb⟩ | ⟨x', rfl, rfl⟩
  · exact hk a' b _ hb
  · by_cases hnil : x' = []
    · subst hnil
      exact hk [] k _ rfl
    · rw [List.append_assoc] at hy hz
      apply first_part hy hz
      rw [List.append_assoc]
      exact hkept a x' rfl hnil

/-- Where a rule rejects nothing, nothing that it matches is left. What was kept since the last tag
is `x`, and `y` stands before it in the text. -/
theorem quiet_scan {rule : CompiledRule} (hrule : rule ∈ builtinRules) {ends : Str → Prop} (y x text : Str)
    (hleaves : LeavesQuiet rule ends (scan rule (y ++ x).getLast? text))
    (hkept : Unmatched rule.re y x text) (hy : Severed y (x ++ text)) (n : Nat) (prevEnd : Option Nat)
    (hall : ∀ m ∈ rule.re.findAllFrom (n + 1) prevEnd ⟨(y ++ x).length, (y ++ x).getLast?, text, []⟩,
      rule.rejects (slice (y ++ x ++ text) m.start m.stop) = false ∧ EndsBefore ends (y ++ x ++ text) m)
    (hn : text.length ≤ n) :
    Quiet rule.re (x ++ Edits.target (scan rule (y ++ x).getLast? text)) := by
  have hsound := sound_of_mem_builtinRules rule hrule
  induction hlen : text.length using Nat.strong_induction_on generalizing y x text n prevEnd with
  | _ k ih =>
    cases text with
    | nil =>
      have hzone := quiet_kept (k := []) (z := []) hkept ?_ hy (.of_right rfl)
      · simpa using hzone
      · intro a b prev he
        rw [(List.append_eq_nil_iff.mp he.symm).2]
        exact first_nil hsound prev
    | cons c cs =>
      cases hf : rule.re.first (y ++ x).getLast? (c :: cs) with
      | none =>
        rw [findAllFrom_next hsound.productive n prevEnd (run_of_first_none hf)] at hall
        have hpre : y ++ (x ++ [c]) = y ++ x ++ [c] := (List.append_assoc y x [c]).symm
        have hlast : (y ++ (x ++ [c])).getLast? = some c := by rw [hpre, List.getLast?_concat]
        have hsize : (y ++ (x ++ [c])).length = (y ++ x).length + 1 := by rw [hpre, List.length_append]; rfl
        have hwhole : y ++ (x ++ [c]) ++ cs = y ++ x ++ c :: cs := by simp
        rw [scan_none hf] at hleaves ⊢
        have hrec : Quiet rule.re ((x ++ [c]) ++
            Edits.target (scan rule (y ++ (x ++ [c])).getLast? cs)) := by
          apply ih cs.length (by simp [← hlen]) y (x ++ [c]) cs _ _ _ n prevEnd _ _ rfl
          · rw [hlast]
            intro u copied ins hmem
            exact hleaves u copied ins (List.mem_cons_of_mem _ hmem)
          · exact hkept.concat hf
          · simpa using hy
          · rw [hlast, hsize, hwhole]
            exact hall
          · exact Nat.le_of_succ_le hn
        rw [hlast] at hrec
        simpa [Edit.target] using hrec
      | some m =>
        obtain ⟨m, gs⟩ := m
        have hpos := first_pos hsound hf
        have htake := List.length_take_of_le (first_sound hf).1
        obtain ⟨n, rfl⟩ := Nat.exists_eq_succ_of_ne_zero (n := n) (by
          rw [List.length_cons] at hn
          omega)
        rw [findAllFrom_match _ prevEnd hsound.productive (run_of_first_some hpos hf)] at hall
        obtain ⟨⟨hfirst, hends⟩, hmore⟩ := List.forall_mem_cons.mp hall
        dsimp only at hfirst
        rw [slice_take] at hfirst
        have hend : ends x := by
          refine hends x ?_
          rw [List.take_left]
          exact List.suffix_append y x
        have hedits : rule.edits ((c :: cs).take m) gs =
            [.cut ((c :: cs).take m) (rule.copied gs) (rule.inserted gs)] := by
          rw [CompiledRule.edits, hfirst]
          rfl
        have hsplit : c :: cs = ((c :: cs).take m).take (rule.copied gs) ++
            (((c :: cs).take m).drop (rule.copied gs) ++ (c :: cs).drop m) := by
          rw [← List.append_assoc, List.take_append_drop, List.take_append_drop]
        obtain ⟨hstart, hbehind⟩ := trims_of_mem_builtinRules rule hrule (y ++ x) (c :: cs) m gs hf
        have hins : IsTag (rule.inserted gs) := by
          rw [inserted_builtin rule hrule gs]
          exact isTag_inserted rule hrule
        rw [scan_some hsound hf, hedits] at hleaves ⊢
        obtain ⟨hequals, hcopy⟩ := hleaves _ _ _ List.mem_cons_self
        have hlast : (y ++ x ++ (c :: cs).take m).getLast? = ((c :: cs).take m).getLast? := by
          apply List.getLast?_append_of_ne_nil
          intro hnil
          rw [hnil, List.length_nil] at htake
          omega
        have hsize : (y ++ x ++ (c :: cs).take m).length = (y ++ x).length + m := by
          rw [List.length_append, htake]
        have hrest : Quiet rule.re ([] ++
            Edits.target (scan rule (y ++ x ++ (c :: cs).take m ++ []).getLast? ((c :: cs).drop m))) := by
          apply ih ((c :: cs).drop m).length _ (y ++ x ++ (c :: cs).take m) [] _ _ _ _ n _ _ _ rfl
          · rw [List.length_drop, ← hlen]
            simp only [List.length_cons]
            omega
          · rw [List.append_nil, hlast]
            intro u copied ins hmem
            exact hleaves u copied ins (List.mem_cons_of_mem _ hmem)
          · exact unmatched_nil _ _ _
          · exact hbehind
          · exact some ((y ++ x).length + m)
          · rw [List.append_nil, hlast, hsize, List.append_assoc, List.take_append_drop]
            exact hmore
          · rw [List.length_drop]
            omega
        rw [List.append_nil, List.nil_append, hlast] at hrest
        have hzone : Quiet rule.re (x ++ ((c :: cs).take m).take (rule.copied gs)) := by
          rw [hsplit] at hkept hy
          rw [← List.append_assoc] at hy
          rw [List.append_assoc] at hstart
          apply quiet_kept hkept _ (severed_append hy) (severed_of_append hstart)
          intro a b prev he
          exact hcopy a b prev he
        have htarget : x ++ Edits.target ([.cut ((c :: cs).take m) (rule.copied gs) (rule.inserted gs)] ++
            scan rule ((c :: cs).take m).getLast? ((c :: cs).drop m)) =
            (x ++ ((c :: cs).take m).take (rule.copied gs)) ++ (rule.inserted gs ++
              Edits.target (scan rule ((c :: cs).take m).getLast? ((c :: cs).drop m))) := by
          simp [Edit.target]
        rw [htarget]
        exact quiet_around hrule hzone hins (fun hsign => hequals hsign x hend hzone) hrest

theorem quiet_after {rule : CompiledRule} (hrule : rule ∈ builtinRules) {ends : Str → Prop} {text : Str}
    (hall : Unrejecting rule text) (hends : ∀ m ∈ rule.re.findAll text, EndsBefore ends text m)
    (hleaves : LeavesQuiet rule ends (scan rule none text)) : Quiet rule.re (applyRule text rule).1 := by
  rw [applyRule_scan (sound_of_mem_builtinRules rule hrule)]
  exact quiet_scan hrule [] [] text hleaves (unmatched_nil _ _ _) (severed_nil _) text.length none
    (fun m hm => ⟨hall m hm, hends m hm⟩) (Nat.le_refl _)

theorem unrejecting_of_no_check {rule : CompiledRule} (h : rule.validate = none) (text : Str) :
    Unrejecting rule text := by
  intro m _
  rw [CompiledRule.rejects, h]
  rfl

theorem leavesQuiet_of_no_template {rule : CompiledRule} (hrule : rule ∈ builtinRules)
    (htpl : rule.replaceTpl = []) (hsign : Undisturbed rule rule) (prev : Option Char) (text : Str) :
    LeavesQuiet rule (fun _ => True) (scan rule prev text) := by
  have hsound := sound_of_mem_builtinRules rule hrule
  intro u copied ins hmem
  obtain ⟨_, _, gs, _, rfl, rfl, _⟩ := cut_of_mem_scan hsound hmem
  rw [inserted_builtin rule hrule gs]
  refine ⟨fun hequals _ _ => quiet_equals_of_hard hrule (hsign hequals), ?_⟩
  intro a z prev he
  rw [CompiledRule.copied, htpl, List.take_zero] at he
  rw [(List.append_eq_nil_iff.mp he.symm).2]
  exact first_nil hsound prev

theorem toNat_lt_of_space {c : Char} (h : space.consumes c = true) : c.toNat < 33 := by
  have hle : ∀ {d : Char}, c ≤ d → d.toNat < 33 → c.toNat < 33 :=
    fun hcd hd => Nat.lt_of_le_of_lt hcd hd
  simp only [space, consumes, accepts, inRanges, List.any_cons, List.any_nil, Bool.or_eq_true,
    Bool.and_eq_true, decide_eq_true_eq, Bool.false_eq_true, if_false, or_false] at h
  rcases h with ⟨_, h⟩ | ⟨_, h⟩ | ⟨_, h⟩
  · exact hle h (by decide)
  · exact hle h (by decide)
  · exact hle h (by decide)

theorem bearer_of_space {c : Char} (h : space.consumes c = true) : accepts true bearerRanges c = false := by
  have hall : ∀ n < 33, accepts true bearerRanges (Char.ofNat n) = false := by decide
  have hc := hall c.toNat (toNat_lt_of_space h)
  rwa [Char.ofNat_toNat] at hc

/-- The word of the Bearer pattern contains no token. -/
theorem first_bearerWord {u : Str} (h : Lang bearerWordRe u) {a z : Str} (he : u = a ++ z)
    (prev : Option Char) : bearerRe.first prev z = none := by
  apply Option.eq_none_iff_forall_not_mem.mpr
  rintro ⟨n, gs⟩ hf
  -- a token found in the word has the characters of a value in it
  rw [bearerRe_eq] at hf
  obtain ⟨w, _, htake, _, v, _, rfl, hv, rfl⟩ := (first_sound hf).2
  obtain ⟨_, _, rfl, rfl, b, _, rfl, hb, sp, _, rfl, hsp, rfl⟩ := h
  have hmin : 20 ≤ v.length := minLen_of_lang _ hv
  have hin : v <:+: b ++ sp := by
    have hfirst : v <:+: z.take n := by
      rw [htake]
      exact ⟨w, [], by simp⟩
    exact (hfirst.trans (List.take_prefix n z).isInfix).trans ⟨a, [], by simpa using he.symm⟩
  have hne : v ≠ [] := by
    rintro rfl
    exact absurd hmin (by decide)
  have hword : v <:+: b := by
    apply Edits.infix_of_infix_append hne _ hin
    intro c hc hmem
    have hspace : space.consumes c = true := consumes_of_lang _ hsp c hc
    have hvalue : accepts true bearerRanges c = true := consumes_of_lang _ hv c hmem
    rw [bearer_of_space hspace] at hvalue
    cases hvalue
  have hlen := hword.length_le
  have hsix := (lang_chars hb).length_eq
  rw [← hsix] at hlen
  exact absurd (hmin.trans hlen) (by decide)

theorem leavesQuiet_bearerRule (prev : Option Char) (text : Str) :
    LeavesQuiet bearerRule (fun _ => True) (scan bearerRule prev text) := by
  intro u copied ins hmem
  obtain ⟨prev', rest, gs, hf, rfl, rfl, _⟩ := cut_of_mem_scan sound_bearerRule hmem
  refine ⟨?_, ?_⟩
  · have hno : '=' ∉ bearerRule.inserted [] := by decide
    exact fun hequals => absurd hequals hno
  · intro a z prev he
    obtain ⟨w, v, hw, _, htake, hgroup⟩ := first_group (by decide) hf
    have hlen : bearerRule.copied gs = w.length := congrArg List.length hgroup
    rw [List.take_left] at htake
    rw [htake, hlen, List.take_left] at he
    exact first_bearerWord hw he prev

/-- What a rule leaves quiet stays so under the rules behind it. -/
theorem quiet_through {rule : CompiledRule} (hrule : rule ∈ builtinRules) {before behind : List CompiledRule}
    (hbehind : ∀ other ∈ behind, other ∈ builtinRules ∧ Undisturbed rule other) {text : Str}
    (h : Quiet rule.re (applyRule (rewritten before text) rule).1) :
    Quiet rule.re (rewritten (before ++ rule :: behind) text) := by
  rw [rewritten_append, rewritten_cons]
  exact quiet_rewritten hrule hbehind h

/-- The rules that check nothing and have no template. -/
def plainRules : List CompiledRule := [emailRule, jwtRule, awsKeyRule, ibanRule, openAIKeyRule]

theorem mem_builtinRules_of_plain {rule : CompiledRule} (h : rule ∈ plainRules) : rule ∈ builtinRules := by
  simp only [plainRules, List.mem_cons, List.not_mem_nil, or_false] at h
  rcases h with rfl | rfl | rfl | rfl | rfl <;> simp [builtinRules_eq]

theorem hard_equals : ∀ rule ∈ plainRules ++ [creditCardRule], rule.hard '=' = true := by decide

theorem undisturbed_of_hard {rule : CompiledRule} (h : rule ∈ plainRules ++ [creditCardRule])
    (other : CompiledRule) : Undisturbed rule other :=
  fun _ => hard_equals rule h

theorem undisturbed_late (rule : CompiledRule) : ∀ other ∈ lateRules, Undisturbed rule other := by
  have hno : ∀ other ∈ lateRules, '=' ∉ other.inserted [] := by decide
  exact fun other hother hequals => absurd hequals (hno other hother)

theorem no_check_of_plain : ∀ rule ∈ plainRules, rule.validate = none ∧ rule.replaceTpl = [] := by
  simp only [plainRules, List.forall_mem_cons, List.not_mem_nil, false_imp_iff, implies_true, and_true]
  exact ⟨⟨rfl, rfl⟩, ⟨rfl, rfl⟩, ⟨rfl, rfl⟩, ⟨rfl, rfl⟩, ⟨rfl, rfl⟩⟩

theorem quiet_plain {rule : CompiledRule} (h : rule ∈ plainRules) (text : Str) :
    Quiet rule.re (rewritten builtinRules text) := by
  have hrule := mem_builtinRules_of_plain h
  obtain ⟨hcheck, htpl⟩ := no_check_of_plain rule h
  have hundisturbed := undisturbed_of_hard (List.mem_append_left [creditCardRule] h)
  obtain ⟨before, behind, hsplit⟩ := List.append_of_mem hrule
  rw [hsplit]
  apply quiet_through hrule
  · intro other hother
    refine ⟨?_, hundisturbed other⟩
    rw [hsplit]
    exact List.mem_append_right _ (List.mem_cons_of_mem _ hother)
  · exact quiet_after hrule (unrejecting_of_no_check hcheck _) (fun _ _ _ _ => trivial)
      (leavesQuiet_of_no_template hrule htpl (hundisturbed rule) _ _)

theorem quiet_bearer (text : Str) : Quiet bearerRe (rewritten builtinRules text) := by
  have hsplit : builtinRules = (earlyRules ++ [secretAssignRule]) ++ bearerRule :: [openAIKeyRule] := rfl
  have hrule : bearerRule ∈ builtinRules := mem_builtinRules_of_late (by simp [lateRules])
  rw [hsplit]
  apply quiet_through hrule
  · intro other hother
    have hlate : other ∈ lateRules := List.mem_cons_of_mem _ hother
    exact ⟨mem_builtinRules_of_late hlate, undisturbed_late _ other hlate⟩
  · exact quiet_after hrule (unrejecting_of_no_check rfl _) (fun _ _ _ _ => trivial)
      (leavesQuiet_bearerRule _ _)

theorem findAllFrom_of_quiet {rule : CompiledRule} (h : rule.Sound) {x z : Str} (hq : Quiet rule.re (x ++ z))
    (n : Nat) (prevEnd : Option Nat) :
    rule.re.findAllFrom (n + 1) prevEnd ⟨x.length, x.getLast?, z, []⟩ = [] := by
  induction z generalizing x with
  | nil =>
    have hrun := run_nil_of_productive h.productive (p := ⟨x.length, x.getLast?, [], []⟩) rfl
    simp only [findAllFrom]
    rw [findFrom_end _ hrun (Or.inl rfl)]
  | cons c z ih =>
    have hrec := ih (x := x ++ [c]) (by simpa using hq)
    rw [List.getLast?_concat, List.length_append, List.length_singleton] at hrec
    rw [findAllFrom_next h.productive n prevEnd (run_of_first_none (hq x (c :: z) rfl)), hrec]

theorem sparesCards_of_quiet {rules : List CompiledRule} (hrules : ∀ rule ∈ rules, rule ∈ builtinRules)
    {text : Str} (h : Quiet creditCardRe text) : SparesCards rules text := by
  have hcard : creditCardRule ∈ builtinRules := by simp [builtinRules_eq]
  induction rules generalizing text with
  | nil => trivial
  | cons rule rules ih =>
    obtain ⟨hrule, hrest⟩ := List.forall_mem_cons.mp hrules
    refine ⟨?_, ih hrest (quiet_applyRule hcard hrule ?_ h)⟩
    · intro m _ c hc
      have hnone : creditCardRule.re.findAll text = [] :=
        findAllFrom_of_quiet sound_creditCardRule (x := []) h text.length none
      rw [hnone] at hc
      cases hc
    · exact undisturbed_of_hard (List.mem_append_right plainRules (List.mem_singleton_self _)) rule

/-- Where the card rule rejects nothing, it leaves no candidate that has to be spared. -/
theorem sparesCards_of_unrejecting {text : Str}
    (h : Unrejecting creditCardRule (rewritten rulesBefore text)) :
    SparesCards rulesBehind (applyRule (rewritten rulesBefore text) creditCardRule).1 := by
  have hcard : creditCardRule ∈ builtinRules := by simp [builtinRules_eq]
  have hundisturbed := undisturbed_of_hard (List.mem_append_right plainRules (List.mem_singleton_self _))
  apply sparesCards_of_quiet fun rule hrule => mem_builtinRules_of_behind hrule
  exact quiet_after hcard h (fun _ _ _ _ => trivial)
    (leavesQuiet_of_no_template hcard rfl (hundisturbed creditCardRule) _ _)

/-- A character that a secret may have, in the folding of the pattern. -/
def isValueChar (c : Char) : Bool := accepts true secretRanges c

/-- No assignment stands directly behind a character of a secret. -/
def Unadjoined (text : Str) : Prop :=
  ∀ m ∈ secretAssignRe.findAll text, (text.take m.start).getLast?.any isValueChar = false

theorem lang_joiner_length {u : Str} (h : Lang joiner u) : u.length ≤ 1 := by
  obtain ⟨us, _, hmost, hus, rfl⟩ := h
  rcases nil_or_single (hmost 1 rfl) with rfl | ⟨x, rfl⟩
  · exact Nat.zero_le 1
  · obtain ⟨c, _, rfl⟩ := hus x List.mem_cons_self
    exact Nat.le_refl 1

theorem keyword_length {u : Str} (h : Lang keywordRe u) : u.length ≤ 10 := by
  have hword {s : String} {v : Str} (hs : s.toList.length ≤ 10) (hv : Lang (chars true s) v) :
      v.length ≤ 10 := by
    rwa [← (lang_chars hv).length_eq]
  have hkey {s : String} (hs : s.toList.length ≤ 6)
      (hv : Lang (seqAll [chars true s, joiner, chars true "key"]) u) : u.length ≤ 10 := by
    obtain ⟨a, _, rfl, ha, j, _, rfl, hj, k, _, rfl, hk, rfl⟩ := hv
    have hfirst := (lang_chars ha).length_eq
    have hjoin := lang_joiner_length hj
    have hlast : 3 = k.length := (lang_chars hk).length_eq
    simp only [List.length_append, List.length_nil]
    omega
  rcases h with h | h | h | h | h | h
  · exact hkey (by decide) h
  · exact hkey (by decide) h
  · exact hword (by decide) h
  · exact hword (by decide) h
  · exact hword (by decide) h
  · exact hword (by decide) h

/-- What a match of the assignment pattern ends with, if not with a quote. -/
theorem value_of_lang {u : Str} (h : Lang secretAssignRe u) (hq : u.getLast? ≠ some '"') :
    ∃ x v, u = x ++ v ∧ 32 ≤ v.length ∧ ∀ c ∈ v, isValueChar c = true := by
  rw [secretAssignRe_eq] at h
  obtain ⟨_, _, rfl, rfl, k, _, rfl, _, w, _, rfl, _, e, _, rfl, _, w', _, rfl, _, o, _, rfl, _, v, _, rfl,
    hv, o', _, rfl, ho, rfl⟩ := h
  have hnone : o' = [] := by
    obtain ⟨us, _, hmost, hus, rfl⟩ := ho
    rcases nil_or_single (hmost 1 rfl) with rfl | ⟨x, rfl⟩
    · rfl
    · obtain ⟨_, _, rfl, ⟨c, hc, rfl⟩, rfl⟩ := hus x List.mem_cons_self
      have hquote : c = '"' := accepts_char.mp hc
      subst hquote
      exact absurd (by simp [List.getLast?_append]) hq
  subst hnone
  refine ⟨k ++ (w ++ (e ++ (w' ++ o))), v, by simp, minLen_of_lang _ hv, ?_⟩
  intro c hc
  exact consumes_of_lang _ hv c hc

/-- Behind a keyword that no secret goes on into, the equals sign completes nothing. -/
theorem quiet_equals {x k : Str} (hk : k.length ≤ 10) (hx : x.getLast?.any isValueChar = false)
    (h : Quiet secretAssignRe (x ++ k)) : Quiet secretAssignRe (x ++ k ++ ['=']) := by
  intro a b he
  rcases List.eq_nil_or_concat b with rfl | ⟨b, c, rfl⟩
  · exact first_nil sound_secretAssignRule _
  rw [List.concat_eq_append] at he ⊢
  rw [← List.append_assoc] at he
  obtain ⟨hsplit, hc⟩ := List.append_inj' he rfl
  cases hc
  apply Option.eq_none_iff_forall_not_mem.mpr
  rintro ⟨n, gs⟩ hf
  obtain ⟨hle, hlang⟩ := first_sound hf
  have hmin : 0 < ((b ++ ['=']).take n).length :=
    Nat.lt_of_lt_of_le (by decide) (minLen_of_lang _ hlang)
  by_cases hn : n ≤ b.length
  · -- the match does not need the equals sign
    rw [List.take_append_of_le_length hn] at hlang hmin
    have hnone := first_eq_none_iff.mp (h a b hsplit)
    rw [secretAssignRe_eq] at hlang hf hnone
    obtain ⟨_, u, htake, rfl, hu⟩ := hlang
    obtain ⟨q, hq, _⟩ := run_of_lang (by decide) hu ⟨0, a.getLast?, b, []⟩ (z := b.drop n)
      (by rw [← List.nil_append u, ← htake, List.take_append_drop])
    have hword : atWordBoundary ⟨0, a.getLast?, b, []⟩ = true := by
      obtain ⟨d, b', rfl⟩ : ∃ d b', b = d :: b' := by
        cases b with
        | nil => simp at hmin
        | cons d b' => exact ⟨d, b', rfl⟩
      obtain ⟨m, hm, _⟩ := Option.map_eq_some_iff.mp hf
      have hbegins := boundary_before (r := secretAssignRe) rfl (List.mem_of_mem_head? hm)
      exact hbegins
    have hmem : q ∈ (Regex.seq .wordBoundary (.seq (.group 1 keywordRe) (seqAll secretTail))).run
        ⟨0, a.getLast?, b, []⟩ := by
      refine List.mem_flatMap.mpr ⟨_, ?_, hq⟩
      rw [run, if_pos hword]
      exact List.mem_singleton_self _
    rw [hnone] at hmem
    cases hmem
  · have hall : (b ++ ['=']).take n = b ++ ['='] := List.take_of_length_le (by
      rw [List.length_append, List.length_singleton]
      omega)
    rw [hall] at hlang
    obtain ⟨y, v, hv, hlong, hchars⟩ := value_of_lang hlang (by simp)
    rcases List.eq_nil_or_concat v with rfl | ⟨v, d, rfl⟩
    · exact absurd hlong (by decide)
    rw [List.concat_eq_append, ← List.append_assoc] at hv
    obtain ⟨rfl, _⟩ := List.append_inj' hv rfl
    rw [List.concat_eq_append, List.length_append, List.length_singleton] at hlong
    -- the secret is longer than the keyword, so it begins before it
    have hend : x ++ k = (a ++ y) ++ v := by rw [hsplit, List.append_assoc]
    rcases List.append_eq_append_iff.mp hend with ⟨e, _, hk'⟩ | ⟨e, hx', rfl⟩
    · have hlen := congrArg List.length hk'
      rw [List.length_append] at hlen
      omega
    · rcases List.eq_nil_or_concat e with rfl | ⟨e, c, rfl⟩
      · rw [List.nil_append] at hlong
        omega
      · rw [hx', List.concat_eq_append, ← List.append_assoc, List.getLast?_concat, Option.any_some,
          hchars c (by simp)] at hx
        cases hx

theorem leavesQuiet_secretAssignRule (prev : Option Char) (text : Str) :
    LeavesQuiet secretAssignRule (fun f => f.getLast?.any isValueChar = false)
      (scan secretAssignRule prev text) := by
  intro u copied ins hmem
  obtain ⟨prev', rest, gs, hf, rfl, rfl, _⟩ := cut_of_mem_scan sound_secretAssignRule hmem
  obtain ⟨k, v, hk, _, htake, hgroup⟩ := first_group (by decide) (first_boundary hf)
  have hlen : secretAssignRule.copied gs = k.length := congrArg List.length hgroup
  have hcopied : u.take (secretAssignRule.copied gs) = k := by
    rw [List.take_left] at htake
    rw [htake, hlen, List.take_left]
  rw [hcopied]
  refine ⟨fun _ f hf hquiet => quiet_equals (keyword_length hk) hf hquiet, ?_⟩
  rintro a z prev rfl
  -- a match is longer than a keyword
  apply Option.eq_none_iff_forall_not_mem.mpr
  rintro ⟨n, gs'⟩ hfirst
  obtain ⟨_, hlang⟩ := first_sound hfirst
  have hmin : 33 ≤ (z.take n).length := (by decide : 33 ≤ secretAssignRe.minLen).trans (minLen_of_lang _ hlang)
  have hshort := keyword_length hk
  rw [List.length_append] at hshort
  have htakelen := List.length_take_le n z
  have hle := List.length_take_le' n z
  omega

/-- The assignment rule leaves nothing where no secret goes on into a name. -/
theorem quiet_secretAssign {text : Str} (h : Unadjoined (rewritten earlyRules text)) :
    Quiet secretAssignRe (rewritten builtinRules text) := by
  have hsplit : builtinRules = earlyRules ++ secretAssignRule :: lateRules := rfl
  have hrule : secretAssignRule ∈ builtinRules := by simp [builtinRules_eq]
  rw [hsplit]
  apply quiet_through hrule
  · intro other hother
    exact ⟨mem_builtinRules_of_late hother, undisturbed_late _ other hother⟩
  · refine quiet_after hrule (unrejecting_of_no_check rfl _) ?_ (leavesQuiet_secretAssignRule _ _)
    intro m hm f hf
    have hbefore := h m hm
    rcases List.eq_nil_or_concat f with rfl | ⟨f, c, rfl⟩
    · rfl
    · obtain ⟨y, hy⟩ := hf
      rw [← hy, List.concat_eq_append, ← List.append_assoc, List.getLast?_concat] at hbefore
      rwa [List.concat_eq_append, List.getLast?_concat]

theorem hits_of_unchanged {rules : List CompiledRule} {text : Str}
    (h : ∀ rule ∈ rules, applyRule text rule = (text, 0)) : hits rules text = 0 := by
  induction rules with
  | nil => rfl
  | cons rule rules ih =>
    obtain ⟨hrule, hrest⟩ := List.forall_mem_cons.mp h
    rw [hits, hrule, ih hrest]

theorem redactBytes_of_unchanged {text : Str} (h : ∀ rule ∈ builtinRules, applyRule text rule = (text, 0)) :
    builtin.redactBytes text = (text, []) := by
  have hnone : (builtin.redactBytes text).2 = [] := (findings_nil_iff text).mpr (hits_of_unchanged h)
  exact Prod.ext ((findings_nil_iff_unchanged text).mp hnone) hnone

/-- The card rule masks nothing again where its candidates have been spared. -/
theorem applyRule_card_again {text : Str}
    (h : SparesCards rulesBehind (applyRule (rewritten rulesBefore text) creditCardRule).1) :
    applyRule (rewritten builtinRules text) creditCardRule = (rewritten builtinRules text, 0) := by
  have hbehind (rule : CompiledRule) (hrule : rule ∈ rulesBehind) : rule ∈ rulesBehind ∧ rule.Trims :=
    ⟨hrule, trims_of_mem_builtinRules rule (mem_builtinRules_of_behind hrule)⟩
  have hspent := cuts_rewritten hbehind h (cuts_card (rewritten rulesBefore text))
  rw [← rewritten_card] at hspent
  rw [applyRule_scan sound_creditCardRule, hspent, Edits.target_eq_source hspent,
    source_scan sound_creditCardRule]

/-- A class is counted when a rule of that class masked something. -/
theorem rule_of_mem_counts (rules : List CompiledRule) (text : Str) {m : Str × Nat}
    (h : m ∈ (applyRules rules text).2) : ∃ before rule behind, rules = before ++ rule :: behind ∧
      rule.class = m.1 ∧ 0 < (applyRule (rewritten before text) rule).2 := by
  induction rules using List.reverseRecOn with
  | nil => cases h
  | append_singleton rules rule ih =>
    have hstep : (applyRules (rules ++ [rule]) text).2 =
        if (applyRule (rewritten rules text) rule).2 > 0 then
          addCount rule.class (applyRule (rewritten rules text) rule).2 (applyRules rules text).2
        else (applyRules rules text).2 := by
      rw [← applyRules_fst, applyRules, applyRules, List.foldl_append]
      rfl
    have hearlier : m ∈ (applyRules rules text).2 → ∃ before rule' behind,
        rules ++ [rule] = before ++ rule' :: behind ∧ rule'.class = m.1 ∧
          0 < (applyRule (rewritten before text) rule').2 := by
      intro hm
      obtain ⟨before, rule', behind, rfl, hclass, hpos⟩ := ih hm
      exact ⟨before, rule', behind ++ [rule], by simp, hclass, hpos⟩
    rw [hstep] at h
    split at h
    · rename_i hpos
      rcases mem_of_mem_setMember h with rfl | hm
      · exact ⟨rules, rule, [], rfl, rfl, hpos⟩
      · exact hearlier hm
    · exact hearlier h

theorem plain_or_class : ∀ rule ∈ builtinRules, rule ∈ plainRules ∨
    rule.class = "credit_card".toList ∨ rule.class = "secret".toList :=
  forall_builtinRules.mpr ⟨Or.inl (by simp [plainRules]), Or.inl (by simp [plainRules]),
    Or.inl (by simp [plainRules]), Or.inr (Or.inl rfl), Or.inl (by simp [plainRules]),
    Or.inr (Or.inr rfl), Or.inr (Or.inr rfl), Or.inl (by simp [plainRules])⟩

/-- Where the plain rules are quiet, what is found is of two classes. -/
theorem class_of_quiet {text : Str} (hplain : ∀ rule ∈ plainRules, Quiet rule.re text) {f : Finding}
    (h : f ∈ (builtin.redactBytes text).2) :
    f.class = "credit_card".toList ∨ f.class = "secret".toList := by
  rw [redactBytes_builtin] at h
  dsimp only at h
  obtain ⟨before, rule, behind, hsplit, hclass, hpos⟩ :=
    rule_of_mem_counts builtinRules text (mem_findingsFromCounts.mp h)
  have hrule : rule ∈ builtinRules := hsplit ▸ List.mem_append_right before List.mem_cons_self
  have hnot : rule ∉ plainRules := by
    intro hmem
    have hbefore : ∀ other ∈ before, other ∈ builtinRules ∧ Undisturbed rule other := by
      intro other hother
      refine ⟨hsplit ▸ List.mem_append_left _ hother, ?_⟩
      exact undisturbed_of_hard (List.mem_append_left _ hmem) other
    have hquiet := quiet_rewritten hrule hbefore (hplain rule hmem)
    rw [applyRule_of_quiet (sound_of_mem_builtinRules rule hrule) hquiet] at hpos
    exact absurd hpos (Nat.lt_irrefl 0)
  dsimp only at hclass
  rw [← hclass]
  exact (plain_or_class rule hrule).resolve_left hnot

theorem quiet_or_card {text : Str} (h : Unadjoined (rewritten earlyRules text)) : ∀ rule ∈ builtinRules,
    Quiet rule.re (rewritten builtinRules text) ∨ rule = creditCardRule :=
  forall_builtinRules.mpr ⟨Or.inl (quiet_plain (by simp [plainRules]) text),
    Or.inl (quiet_plain (by simp [plainRules]) text), Or.inl (quiet_plain (by simp [plainRules]) text),
    Or.inr rfl, Or.inl (quiet_plain (by simp [plainRules]) text), Or.inl (quiet_secretAssign h),
    Or.inl (quiet_bearer text), Or.inl (quiet_plain (by simp [plainRules]) text)⟩

/-- A second run finds at most card numbers and secrets, and it finds nothing where the first one cut
into no card number that it had rejected and masked no assignment directly behind a character of a
secret. Run after run every text gets clean. -/
theorem redactBytes_again (text : Str) :
    (∀ f ∈ (builtin.redactBytes (builtin.redactBytes text).1).2,
        f.class = "credit_card".toList ∨ f.class = "secret".toList) ∧
      (SparesCards rulesBehind (applyRule (rewritten rulesBefore text) creditCardRule).1 →
        Unadjoined (rewritten earlyRules text) →
        builtin.redactBytes (builtin.redactBytes text).1 = ((builtin.redactBytes text).1, [])) ∧
      ((builtin.redactBytes text).2 = [] ↔ (builtin.redactBytes text).1 = text) ∧
      ∃ n ≤ text.length, (builtin.redactBytes (runs n text)).2 = [] := by
  refine ⟨?_, ?_, findings_nil_iff_unchanged text, ?_⟩
  · intro f hf
    rw [redactBytes_fst] at hf
    exact class_of_quiet (fun rule hplain => quiet_plain hplain text) hf
  · intro hcards hassign
    rw [redactBytes_fst]
    apply redactBytes_of_unchanged
    intro rule hrule
    rcases quiet_or_card hassign rule hrule with hquiet | rfl
    · exact applyRule_of_quiet (sound_of_mem_builtinRules rule hrule) hquiet
    · exact applyRule_card_again hcards
  · obtain ⟨n, hn, hclean⟩ := exists_clean_run text
    exact ⟨n, hn.trans (exposed_le text), hclean⟩

/-- The digit before the card number belongs to the token. -/
def freedCard : Str := "Bearer ".toList ++ List.replicate 20 'a' ++ "-1 4111111111111111".toList

/-- With the equals sign behind it the keyword completes the other value. -/
def freedAssignment : Str :=
  "secret=".toList ++ List.replicate 25 'a' ++ "-token: ".toList ++ List.replicate 32 'a'

theorem second_run_finds :
    (builtin.redactBytes (builtin.redactBytes freedCard).1).2 = [⟨"credit_card".toList, 1⟩] ∧
      (builtin.redactBytes (builtin.redactBytes freedAssignment).1).2 = [⟨"secret".toList, 1⟩] := by
  decide +kernel

/-- An order number is rejected as a card number, and the secret behind it is masked. -/
def mixedText : Str :=
  "bob@example.com paid 4111111111111111, order 1234567890123, token: ".toList ++ List.replicate 32 'a'

theorem mixedText_clean : (builtin.redactBytes mixedText).2 ≠ [] ∧
    builtin.redactBytes (builtin.redactBytes mixedText).1 = ((builtin.redactBytes mixedText).1, []) := by
  have hassign : Unadjoined (rewritten earlyRules mixedText) := by
    unfold Unadjoined
    decide +kernel
  exact ⟨by decide +kernel, (redactBytes_again mixedText).2.1 (by decide +kernel) hassign⟩

end Janus.Redaction
