import Janus.RuleCuts

/-!
# Card numbers

The pattern of card numbers takes as many digits as it can, and the check then accepts or
rejects all of them together. A card number is masked unless it stands somewhere that is not
at the boundaries of words, or a candidate that the check rejects takes it away: one that
begins before it and reaches into it, or begins with it and is longer (`card_masked`).
-/

namespace Janus.Redaction

set_option autoImplicit false

open Regex

def isSeparator (c : Char) : Bool := c = ' ' || c = '-'

/-- Digits with at most one space or dash between two of them. -/
inductive Grouped : Str → Prop where
  | last {d : Char} (hd : isDigit d = true) : Grouped [d]
  | digit {d : Char} {w : Str} (hd : isDigit d = true) (h : Grouped w) : Grouped (d :: w)
  | separated {d s : Char} {w : Str} (hd : isDigit d = true) (hs : isSeparator s = true)
    (h : Grouped w) : Grouped (d :: s :: w)

structure CardNumber (w : Str) : Prop where
  grouped : Grouped w
  least : 13 ≤ (w.filter isDigit).length
  most : (w.filter isDigit).length ≤ 19
  luhn : luhnValid (w.filter isDigit) = true

/-- Wherever the word stands in the text, it is at the boundaries of words. -/
def Delimited (w t : Str) : Prop := ∀ x z, t = x ++ (w ++ z) → Severed x w ∧ Severed w z

/-- Digits at the boundaries of words, so many that the pattern takes them. -/
structure Candidate (x u z : Str) : Prop where
  grouped : Grouped u
  least : 13 ≤ (u.filter isDigit).length
  most : (u.filter isDigit).length ≤ 19
  before : Severed x u
  behind : Severed u z

/-- The longest of the candidates that begin at a place. -/
structure Longest (x u z : Str) : Prop where
  candidate : Candidate x u z
  longest : ∀ u' z', u ++ z = u' ++ z' → Candidate x u' z' → u'.length ≤ u.length

/-- Where the next candidate is looked for: at the start of a text, behind a character with which
none begins, and behind the longest that begins at the place before. -/
inductive Reached : Str → Str → Prop where
  | start (t : Str) : Reached [] t
  | skip {x z : Str} {c : Char} (h : Reached x (c :: z))
    (hnone : ∀ u z', c :: z = u ++ z' → ¬ Candidate x u z') : Reached (x ++ [c]) z
  | take {x u z : Str} (h : Reached x (u ++ z)) (hu : Longest x u z) : Reached (x ++ u) z

/-- What the word would lose to a candidate: it begins before the word and reaches into it, or
begins with the word and is longer. -/
def Rivals (w u z : Str) : Prop :=
  ∃ a b, u ++ z = a ++ (w ++ b) ∧ a.length < u.length ∧ (a = [] → w.length < u.length)

/-- Every rival of the word that is taken, from left to right, passes the check. -/
def Unrivalled (w t : Str) : Prop :=
  ∀ x u z, t = x ++ (u ++ z) → Reached x (u ++ z) → Longest x u z → Rivals w u z →
    luhnValid (u.filter isDigit) = true

/-- Every rival of the word passes the check, taken or not. -/
def Uncontested (w t : Str) : Prop :=
  ∀ x u z, t = x ++ (u ++ z) → Candidate x u z → Rivals w u z → luhnValid (u.filter isDigit) = true

theorem Uncontested.unrivalled {w t : Str} (h : Uncontested w t) : Unrivalled w t :=
  fun x u z ht _ hu => h x u z ht hu.candidate

theorem isWord_of_isDigit {c : Char} (h : isDigit c = true) : isWord c = true := by
  unfold isDigit at h
  simp [isWord, h]

theorem isDigit_of_isSeparator {c : Char} (h : isSeparator c = true) : isDigit c = false := by
  have hc : c = ' ' ∨ c = '-' := by simpa [isSeparator] using h
  rcases hc with rfl | rfl
  · decide
  · decide

theorem Grouped.head {w : Str} (h : Grouped w) : ∃ d v, w = d :: v ∧ isDigit d = true := by
  cases h with
  | last hd => exact ⟨_, _, rfl, hd⟩
  | digit hd _ => exact ⟨_, _, rfl, hd⟩
  | separated hd _ _ => exact ⟨_, _, rfl, hd⟩

theorem Grouped.mem {w : Str} (h : Grouped w) : ∀ c ∈ w, isDigit c = true ∨ isSeparator c = true := by
  induction h with
  | last hd => simpa using Or.inl hd
  | digit hd _ ih => exact List.forall_mem_cons.mpr ⟨Or.inl hd, ih⟩
  | separated hd hs _ ih =>
    exact List.forall_mem_cons.mpr ⟨Or.inl hd, List.forall_mem_cons.mpr ⟨Or.inr hs, ih⟩⟩

theorem Grouped.getLast {w : Str} (h : Grouped w) : ∃ v d, w = v ++ [d] ∧ isDigit d = true := by
  induction h with
  | last hd => exact ⟨[], _, rfl, hd⟩
  | @digit d _ _ _ ih =>
    obtain ⟨v, e, rfl, he⟩ := ih
    exact ⟨d :: v, e, rfl, he⟩
  | @separated d s _ _ _ _ ih =>
    obtain ⟨v, e, rfl, he⟩ := ih
    exact ⟨d :: s :: v, e, rfl, he⟩

/-- With the separators gone a number is its digits. -/
theorem Grouped.filter {w : Str} (h : Grouped w) :
    w.filter (fun c => c ≠ ' ' && c ≠ '-') = w.filter isDigit := by
  apply List.filter_congr
  intro c hc
  rcases h.mem c hc with hd | hs
  · rw [hd]
    have hne : c ≠ ' ' ∧ c ≠ '-' := by
      refine ⟨?_, ?_⟩
      · rintro rfl
        exact absurd hd (by decide)
      · rintro rfl
        exact absurd hd (by decide)
    simp [hne]
  · rw [isDigit_of_isSeparator hs]
    have hor : c = ' ' ∨ c = '-' := by simpa [isSeparator] using hs
    rcases hor with rfl | rfl
    · rfl
    · rfl

/-- The check of such digits is that of their sum. -/
theorem Grouped.isValid {u : Str} (h : Grouped u) (hleast : 13 ≤ (u.filter isDigit).length)
    (hmost : (u.filter isDigit).length ≤ 19) : isValidCreditCard u = luhnValid (u.filter isDigit) := by
  have hdigits : (u.filter isDigit).all (fun c => '0' ≤ c && c ≤ '9') = true := by
    apply List.all_eq_true.mpr
    intro c hc
    exact (List.mem_filter.mp hc).2
  have hcount : ((decide ((u.filter isDigit).length < 13)) || (decide ((u.filter isDigit).length > 19))) =
      false := by
    rw [Bool.or_eq_false_iff, decide_eq_false_iff_not, decide_eq_false_iff_not]
    omega
  unfold isValidCreditCard
  rw [h.filter]
  dsimp only
  rw [hdigits, hcount, Bool.not_false, Bool.true_and, Bool.true_and]

def separatorRe : Regex := .set false [(' ', ' '), ('-', '-')]

/-- One more digit, perhaps behind a separator. -/
def groupRe : Regex := .seq (Regex.optional separatorRe) digit

theorem creditCardRe_eq : creditCardRe = .seq .wordBoundary
    (.seq digit (.seq (.rep 12 (some 6) groupRe) (.seq .wordBoundary .empty))) := rfl

theorem accepts_digit (c : Char) : accepts false [('0', '9')] c = isDigit c := by
  simp [accepts, inRanges, isDigit]

theorem accepts_separator (c : Char) : accepts false [(' ', ' '), ('-', '-')] c = isSeparator c := by
  have hsplit : accepts false [(' ', ' '), ('-', '-')] c =
      (accepts false [(' ', ' ')] c || accepts false [('-', '-')] c) := by simp [accepts, inRanges]
  rw [hsplit, Bool.eq_iff_iff, Bool.or_eq_true, accepts_char, accepts_char]
  simp [isSeparator]

theorem run_digit {o : Nat} {prev : Option Char} {c : Char} {r : Str} {gs : List (Nat × Str)} :
    digit.run ⟨o, prev, c :: r, gs⟩ = if isDigit c then [⟨o + 1, some c, r, gs⟩] else [] := by
  simp [digit, run, accepts_digit]

theorem run_optional_separator {o : Nat} {prev : Option Char} {c : Char} {r : Str} {gs : List (Nat × Str)} :
    (Regex.optional separatorRe).run ⟨o, prev, c :: r, gs⟩ =
      (if isSeparator c then [⟨o + 1, some c, r, gs⟩] else []) ++ [⟨o, prev, c :: r, gs⟩] := by
  simp only [Regex.optional, separatorRe, run, exactly, accepts_separator]
  split
  · rename_i hs
    simp [upTo, hs]
  · rename_i hs
    simp [upTo, hs]

theorem run_digit_length (p : Pos) : (digit.run p).length ≤ 1 := by
  obtain ⟨o, prev, rest, gs⟩ := p
  cases rest with
  | nil => exact Nat.zero_le 1
  | cons c r =>
    rw [run_digit]
    split
    · exact Nat.le_refl 1
    · exact Nat.zero_le 1

/-- A round can go on in one way at most, since a separator is no digit. -/
theorem run_group_length (p : Pos) : (groupRe.run p).length ≤ 1 := by
  obtain ⟨o, prev, rest, gs⟩ := p
  cases rest with
  | nil => exact Nat.zero_le 1
  | cons c r =>
    simp only [groupRe, run, run_optional_separator]
    split
    · rename_i hs
      have hnone : digit.run ⟨o, prev, c :: r, gs⟩ = [] := by
        rw [run_digit, isDigit_of_isSeparator hs, if_neg Bool.false_ne_true]
      rw [List.singleton_append, List.flatMap_cons, List.flatMap_singleton, hnone, List.append_nil]
      exact run_digit_length _
    · rw [List.nil_append, List.flatMap_singleton]
      exact run_digit_length _

theorem flatMap_wordBoundary (ps : List Pos) :
    ps.flatMap (Regex.seq .wordBoundary .empty).run = ps.filter atWordBoundary := by
  induction ps with
  | nil => rfl
  | cons p ps ih =>
    rw [List.flatMap_cons, ih, List.filter_cons, run, run]
    split
    · rfl
    · rfl

/-- Of the ways to match at a position the longest comes first. -/
theorem run_creditCardRe_descending (p : Pos) : Descending (creditCardRe.run p) := by
  have hbounded (q : Pos) : Descending
      ((Regex.seq (.rep 12 (some 6) groupRe) (.seq .wordBoundary .empty)).run q) := by
    rw [run, flatMap_wordBoundary]
    exact (run_rep_descending run_group_length 12 6 q).sublist List.filter_sublist
  rw [creditCardRe_eq, run]
  refine Descending.flatMap ?_ fun q => ?_
  · rw [run]
    split
    · exact Nat.le_refl 1
    · exact Nat.zero_le 1
  · rw [run]
    exact Descending.flatMap (run_digit_length q) hbounded

theorem lang_separator {s : Char} (h : isSeparator s = true) : Lang (Regex.optional separatorRe) [s] :=
  ⟨[[s]], Nat.zero_le _, fun e he => by cases he; exact Nat.le_refl 1,
    List.forall_mem_singleton.mpr ⟨s, by rwa [accepts_separator], rfl⟩, rfl⟩

theorem lang_no_separator : Lang (Regex.optional separatorRe) [] :=
  ⟨[], Nat.le_refl 0, fun _ _ => Nat.zero_le _, by simp, rfl⟩

theorem lang_group {x : Str} (hx : Lang (Regex.optional separatorRe) x) {d : Char} (hd : isDigit d = true) :
    Lang groupRe (x ++ [d]) :=
  ⟨x, [d], rfl, hx, d, by rwa [accepts_digit], rfl⟩

/-- The rounds of the pattern that go through a number. -/
theorem Grouped.steps {w : Str} (h : Grouped w) : ∃ (d : Char) (us : List Str), w = d :: us.flatten ∧
    isDigit d = true ∧ (∀ a ∈ us, Lang groupRe a) ∧ (w.filter isDigit).length = us.length + 1 := by
  induction h with
  | @last d hd => exact ⟨d, [], rfl, hd, by simp, by simp [hd]⟩
  | @digit d w hd _ ih =>
    obtain ⟨e, us, rfl, he, hus, hcount⟩ := ih
    refine ⟨d, [e] :: us, rfl, hd, ?_, by simp [hd, hcount]⟩
    exact List.forall_mem_cons.mpr ⟨lang_group lang_no_separator he, hus⟩
  | @separated d s w hd hs _ ih =>
    obtain ⟨e, us, rfl, he, hus, hcount⟩ := ih
    refine ⟨d, [s, e] :: us, rfl, hd, ?_, by simp [hd, hcount, isDigit_of_isSeparator hs]⟩
    exact List.forall_mem_cons.mpr ⟨lang_group (lang_separator hs) he, hus⟩

theorem CardNumber.candidate {w : Str} (h : CardNumber w) {x z : Str} (hx : Severed x w)
    (hz : Severed w z) : Candidate x w z :=
  ⟨h.grouped, h.least, h.most, hx, hz⟩

/-- At a candidate a match begins, and it goes on to its end at least. -/
theorem Candidate.matched {x w z : Str} (h : Candidate x w z) :
    ∃ n gs, creditCardRe.first x.getLast? (w ++ z) = some (n, gs) ∧ w.length ≤ n := by
  obtain ⟨d, us, hw, hd, hus, hcount⟩ := h.grouped.steps
  have hleast := h.least
  have hmost := h.most
  have hlang : Lang (.seq digit (.rep 12 (some 6) groupRe)) w :=
    ⟨[d], us.flatten, hw, ⟨d, by rwa [accepts_digit], rfl⟩, us, by omega,
      fun e he => by cases he; omega, hus, rfl⟩
  obtain ⟨q, hq, hrest⟩ := run_of_lang rfl hlang ⟨0, x.getLast?, w ++ z, []⟩ rfl
  obtain ⟨u, _, hread⟩ := run_sound _ _ q hq
  obtain rfl : w = u := by
    have htext := hread.rest
    rw [hrest] at htext
    exact List.append_cancel_right htext
  have hprev : x.getLast?.any isWord = false := by
    have hx := h.before
    rw [hw] at hx
    simpa [Severed, isWord_of_isDigit hd] using hx
  have hstart : atWordBoundary ⟨0, x.getLast?, w ++ z, []⟩ = true := by
    rw [hw]
    simp [atWordBoundary, hprev, isWord_of_isDigit hd]
  have hend : atWordBoundary q = true := by
    obtain ⟨v, e, he, hdigit⟩ := h.grouped.getLast
    have hz := h.behind
    have hlast := hread.prev
    rw [he, List.getLast?_concat, Option.some_or] at hlast
    rw [he, Severed, List.getLast?_concat, Option.any_some, isWord_of_isDigit hdigit, Bool.true_and] at hz
    simp [atWordBoundary, hrest, hlast, isWord_of_isDigit hdigit, hz]
  obtain ⟨m, hm, hq⟩ := List.mem_flatMap.mp hq
  have hmem : q ∈ creditCardRe.run ⟨0, x.getLast?, w ++ z, []⟩ := by
    rw [creditCardRe_eq]
    refine List.mem_flatMap.mpr ⟨_, by rw [run, if_pos hstart]; exact List.mem_singleton_self _, ?_⟩
    refine List.mem_flatMap.mpr ⟨m, hm, List.mem_flatMap.mpr ⟨q, hq, ?_⟩⟩
    refine List.mem_flatMap.mpr ⟨_, by rw [run, if_pos hend]; exact List.mem_singleton_self _, ?_⟩
    exact List.mem_singleton_self _
  have hsome : (creditCardRe.run ⟨0, x.getLast?, w ++ z, []⟩).head? ≠ none := by
    intro hnone
    rw [List.head?_eq_none_iff.mp hnone] at hmem
    cases hmem
  obtain ⟨first, hfirst⟩ := Option.ne_none_iff_exists'.mp hsome
  have hlong := (run_creditCardRe_descending _).head hfirst hmem
  refine ⟨first.offset, first.groups, ?_, ?_⟩
  · rw [Regex.first, hfirst]
    rfl
  · rw [hread.offset] at hlong
    dsimp only at hlong
    omega

theorem grouped_of_steps {d : Char} (hd : isDigit d = true) {us : List Str}
    (h : ∀ a ∈ us, Lang groupRe a) :
    Grouped (d :: us.flatten) ∧ ((d :: us.flatten).filter isDigit).length = us.length + 1 := by
  induction us generalizing d with
  | nil => exact ⟨.last hd, by simp [hd]⟩
  | cons a us ih =>
    obtain ⟨ha, hus⟩ := List.forall_mem_cons.mp h
    obtain ⟨x, y, rfl, ⟨xs, _, hmost, hxs, rfl⟩, e, he, rfl⟩ := ha
    rw [accepts_digit] at he
    obtain ⟨hgrouped, hcount⟩ := ih he hus
    rcases nil_or_single (hmost 1 rfl) with rfl | ⟨x, rfl⟩
    · exact ⟨.digit hd hgrouped, by simpa [hd] using hcount⟩
    · obtain ⟨s, hs, rfl⟩ := hxs x List.mem_cons_self
      rw [accepts_separator] at hs
      exact ⟨.separated hd hs hgrouped, by simpa [hd, isDigit_of_isSeparator hs] using hcount⟩

/-- What the pattern matches is a candidate. -/
theorem candidate_of_first {x text : Str} {n : Nat} {gs : List (Nat × Str)}
    (h : creditCardRe.first x.getLast? text = some (n, gs)) :
    Candidate x (text.take n) (text.drop n) := by
  obtain ⟨hle, hlang⟩ := first_sound h
  have hbefore := severed_before (r := creditCardRe) rfl h
  have hbehind := severed_of_append (severed_behind (r := creditCardRe) rfl h)
  rw [← List.take_append_drop n text] at hbefore
  rw [creditCardRe_eq] at hlang
  obtain ⟨_, _, htake, rfl, _, _, rfl, ⟨d, hd, rfl⟩, _, _, rfl, ⟨us, hleast, hmost, hus, rfl⟩, _, _, rfl, rfl,
    rfl⟩ := hlang
  rw [accepts_digit] at hd
  obtain ⟨hgrouped, hcount⟩ := grouped_of_steps hd hus
  have htext : text.take n = d :: us.flatten := by simpa using htake
  have hmost := hmost 6 rfl
  refine ⟨htext ▸ hgrouped, ?_, ?_, severed_append hbefore, hbehind⟩
  · rw [htext]
    omega
  · rw [htext]
    omega

/-- It is the longest one. -/
theorem longest_of_first {x text : Str} {n : Nat} {gs : List (Nat × Str)}
    (h : creditCardRe.first x.getLast? text = some (n, gs)) : Longest x (text.take n) (text.drop n) := by
  refine ⟨candidate_of_first h, ?_⟩
  intro u z heq hu
  rw [List.take_append_drop] at heq
  obtain ⟨m, gs', hfirst, hle⟩ := hu.matched
  rw [← heq, h] at hfirst
  cases hfirst
  rwa [List.length_take_of_le (first_sound h).1]

theorem not_candidate_of_first {x text : Str} (h : creditCardRe.first x.getLast? text = none) (u z : Str)
    (heq : text = u ++ z) : ¬ Candidate x u z := by
  intro hu
  obtain ⟨n, gs, hfirst, _⟩ := hu.matched
  rw [← heq, h] at hfirst
  cases hfirst

/-- A word with a digit, and without brackets and equals signs, is part of no tag. -/
structure Foreign (v : Str) : Prop where
  brackets : ∀ c ∈ v, isBracket c = false
  equals : '=' ∉ v
  digit : ∃ d ∈ v, isDigit d = true

theorem digit_notMem_tag : ∀ body ∈ tagBodies, ∀ c ∈ body, isDigit c = false := by decide

theorem Foreign.notMem_bracket {v : Str} (h : Foreign v) {b : Char} (hb : isBracket b = true) : b ∉ v := by
  intro hmem
  rw [h.brackets b hmem] at hb
  cases hb

theorem Foreign.not_infix_tag {v body : Str} (h : Foreign v) (hbody : body ∈ tagBodies) :
    ¬ v <:+: body := by
  intro hin
  obtain ⟨d, hd, hdigit⟩ := h.digit
  rw [digit_notMem_tag body hbody d (hin.subset hd)] at hdigit
  cases hdigit

theorem Foreign.shields {v ins : Str} (h : Foreign v) (hins : IsTag ins) : Edits.Shields v ins := by
  obtain ⟨sign, body, rfl, hsign, hbody, _⟩ := hins
  refine ⟨sign, '[', body, ']', rfl, ?_, h.notMem_bracket rfl, h.notMem_bracket rfl,
    h.not_infix_tag hbody⟩
  intro c hc
  rw [hsign c hc]
  exact h.equals

/-- Around a tag the word occurs before it or behind it. -/
theorem Foreign.infix_around {v x z body : Str} (h : Foreign v) (hbody : body ∈ tagBodies)
    (hin : v <:+: x ++ ('[' :: (body ++ [']']) ++ z)) : v <:+: x ∨ v <:+: z := by
  have htext : x ++ ('[' :: (body ++ [']']) ++ z) = x ++ '[' :: (body ++ ']' :: z) := by simp
  rw [htext, infix_append_cons (h.notMem_bracket rfl), infix_append_cons (h.notMem_bracket rfl)] at hin
  rcases hin with hfirst | htag | hlast
  · exact Or.inl hfirst
  · exact absurd htag (h.not_infix_tag hbody)
  · exact Or.inr hlast

theorem Foreign.infix_applyRule {v : Str} (h : Foreign v) {rule : CompiledRule}
    (hrule : rule ∈ builtinRules) {text : Str} (hin : v <:+: (applyRule text rule).1) : v <:+: text := by
  have hsound := sound_of_mem_builtinRules rule hrule
  rw [applyRule_scan hsound] at hin
  have hsource := Edits.infix_target
    (fun u copied ins hcut => h.shields (masking_scan hrule none text u copied ins hcut).1) [] hin
  rwa [List.nil_append, source_scan hsound] at hsource

/-- No rule writes such a word. -/
theorem Foreign.infix_rewritten {v : Str} (h : Foreign v) {rules : List CompiledRule}
    (hrules : ∀ rule ∈ rules, rule ∈ builtinRules) {text : Str} (hin : v <:+: rewritten rules text) :
    v <:+: text := by
  induction rules generalizing text with
  | nil => exact hin
  | cons rule rules ih =>
    obtain ⟨hrule, hrest⟩ := List.forall_mem_cons.mp hrules
    exact h.infix_applyRule hrule (ih hrest hin)

theorem foreign_of_mem {v : Str} (h : ∀ c ∈ v, isWord c = true ∨ isSeparator c = true) {d : Char}
    (hmem : d ∈ v) (hd : isDigit d = true) : Foreign v := by
  have hno : ∀ b, isWord b = false → isSeparator b = false → b ∉ v := by
    intro b hw hs hb
    rcases h b hb with hb | hb
    · rw [hw] at hb
      cases hb
    · rw [hs] at hb
      cases hb
  refine ⟨?_, hno '=' (by decide) (by decide), d, hmem, hd⟩
  intro c hc
  by_contra hb
  have hor : c = '[' ∨ c = ']' := by simpa [isBracket, or_iff_not_imp_left] using hb
  rcases hor with rfl | rfl
  · exact hno '[' (by decide) (by decide) hc
  · exact hno ']' (by decide) (by decide) hc

theorem Grouped.foreign {w x z : Str} (h : Grouped w)
    (hx : ∀ c ∈ x, isWord c = true ∨ isSeparator c = true)
    (hz : ∀ c ∈ z, isWord c = true ∨ isSeparator c = true) : Foreign (x ++ w ++ z) := by
  obtain ⟨d, v, hw, hd⟩ := h.head
  apply foreign_of_mem _ (d := d) (by simp [hw]) hd
  intro c hc
  rcases List.mem_append.mp hc with hc | hc
  · rcases List.mem_append.mp hc with hc | hc
    · exact hx c hc
    · exact (h.mem c hc).imp_left isWord_of_isDigit
  · exact hz c hc

def rulesBefore : List CompiledRule := [emailRule, jwtRule, awsKeyRule]

def rulesBehind : List CompiledRule := [ibanRule, secretAssignRule, bearerRule, openAIKeyRule]

theorem rewritten_card (t : Str) : rewritten builtinRules t =
    rewritten rulesBehind (applyRule (rewritten rulesBefore t) creditCardRule).1 := by
  have hsplit : builtinRules = rulesBefore ++ creditCardRule :: rulesBehind := rfl
  rw [hsplit, rewritten_append, rewritten_cons]

theorem mem_builtinRules_of_before {rule : CompiledRule} (h : rule ∈ rulesBefore) :
    rule ∈ builtinRules :=
  List.mem_append_left (creditCardRule :: rulesBehind) h

theorem mem_builtinRules_of_behind {rule : CompiledRule} (h : rule ∈ rulesBehind) :
    rule ∈ builtinRules :=
  List.mem_append_right (rulesBefore ++ [creditCardRule]) h

/-- The rules before cut between words and copy nothing. -/
theorem trims_before : ∀ rule ∈ rulesBefore, rule.Trims ∧ ∀ gs, rule.copied gs = 0 := by
  intro rule hrule
  have hor : rule = emailRule ∨ rule = jwtRule ∨ rule = awsKeyRule := by simpa [rulesBefore] using hrule
  rcases hor with rfl | rfl | rfl
  · exact ⟨trims_of_bounded rfl rfl rfl, fun _ => rfl⟩
  · exact ⟨trims_of_bounded rfl rfl rfl, fun _ => rfl⟩
  · exact ⟨trims_of_bounded rfl rfl rfl, fun _ => rfl⟩

theorem severed_append_iff {x y : Str} (hy : y ≠ []) (z : Str) : Severed x (y ++ z) ↔ Severed x y := by
  obtain ⟨c, y, rfl⟩ := List.exists_cons_of_ne_nil hy
  exact Iff.rfl

theorem append_severed_iff (x : Str) {y z : Str} (hy : y ≠ []) : Severed (x ++ y) z ↔ Severed y z := by
  rw [Severed, Severed, List.getLast?_append_of_ne_nil x hy]

theorem severed_tag (x : Str) {ins : Str} (h : IsTag ins) (z : Str) :
    Severed (x ++ ins) z ∧ Severed x (ins ++ z) := by
  obtain ⟨sign, body, rfl, hsign, _⟩ := h
  refine ⟨.of_left ?_, .of_right ?_⟩
  · have hassoc : x ++ (sign ++ '[' :: (body ++ [']'])) = (x ++ (sign ++ '[' :: body)) ++ [']'] := by simp
    rw [hassoc, List.getLast?_concat]
    rfl
  · cases sign with
    | nil => rfl
    | cons c sign =>
      cases hsign c List.mem_cons_self
      rfl

/-- What a rule before leaves of the digits stood in the text as it stands now, at the boundaries of
words or not. -/
theorem Foreign.place {v : Str} (h : Foreign v) {rule : CompiledRule} (hrule : rule ∈ rulesBefore)
    {text x z : Str} (ht : (applyRule text rule).1 = x ++ (v ++ z)) :
    ∃ x' z', text = x' ++ (v ++ z') ∧ (Severed x v ↔ Severed x' v) ∧ (Severed v z ↔ Severed v z') := by
  have hmem := mem_builtinRules_of_before hrule
  have hsound := sound_of_mem_builtinRules rule hmem
  have hmask := masking_scan hmem none text
  have htrim := trimmed_scan hsound (trims_before rule hrule).1 [] text
  have hv : v ≠ [] := by
    rintro rfl
    obtain ⟨d, hd, _⟩ := h.digit
    cases hd
  have hcut : ∀ u copied ins, Edit.cut u copied ins ∈ scan rule none text → copied = 0 := by
    intro u copied ins hin
    obtain ⟨_, _, gs, _, rfl, _⟩ := cut_of_mem_scan hsound hin
    exact (trims_before rule hrule).2 gs
  rw [applyRule_scan hsound] at ht
  obtain ⟨fs, gs, hscan, rfl, rfl⟩ := Edits.exists_kept hv
    (fun u copied ins hin => ⟨hcut u copied ins hin, h.shields (hmask u copied ins hin).1⟩) ht
  rw [List.getLast?_nil, hscan] at htrim
  rw [hscan] at hmask hcut
  refine ⟨Edits.source fs, Edits.source gs, ?_, ?_, ?_⟩
  · rw [← source_scan hsound none text, hscan]
    simp
  · cases fs using List.reverseRecOn with
    | nil => exact Iff.rfl
    | append_singleton fs e =>
      cases e with
      | kept c => simp [Severed, Edit.source, Edit.target]
      | cut u copied ins =>
        have hin : Edit.cut u copied ins ∈ fs ++ [Edit.cut u copied ins] ++ (Edits.keep v ++ gs) := by simp
        obtain rfl := hcut u copied ins hin
        rw [List.append_assoc, List.singleton_append] at htrim
        have hbehind := htrim.cut.2
        rw [Edits.source_append, Edits.source_keep, severed_append_iff hv] at hbehind
        refine iff_of_true ?_ ?_
        · simpa [Edit.target] using (severed_tag (Edits.target fs) (hmask u 0 ins hin).1 v).1
        · simpa [Edit.source] using hbehind
  · cases gs with
    | nil => exact Iff.rfl
    | cons e gs =>
      cases e with
      | kept c => exact Iff.rfl
      | cut u copied ins =>
        have hin : Edit.cut u copied ins ∈ fs ++ (Edits.keep v ++ Edit.cut u copied ins :: gs) := by simp
        obtain rfl := hcut u copied ins hin
        rw [← List.append_assoc] at htrim
        have hbefore := htrim.cut.1
        rw [List.take_zero, List.append_nil, List.drop_zero, Edits.source_append, Edits.source_keep,
          List.nil_append, append_severed_iff _ hv] at hbefore
        refine iff_of_true ?_ ?_
        · simpa [Edit.target] using (severed_tag v (hmask u 0 ins hin).1 (Edits.target gs)).2
        · simpa [Edit.source] using hbefore

theorem Foreign.place_rewritten {v : Str} (h : Foreign v) {rules : List CompiledRule}
    (hrules : ∀ rule ∈ rules, rule ∈ rulesBefore) {text x z : Str}
    (ht : rewritten rules text = x ++ (v ++ z)) :
    ∃ x' z', text = x' ++ (v ++ z') ∧ (Severed x v ↔ Severed x' v) ∧ (Severed v z ↔ Severed v z') := by
  induction rules generalizing text with
  | nil => exact ⟨x, z, ht, Iff.rfl, Iff.rfl⟩
  | cons rule rules ih =>
    obtain ⟨hrule, hrest⟩ := List.forall_mem_cons.mp hrules
    obtain ⟨x₁, z₁, hmid, hx, hz⟩ := ih hrest ht
    obtain ⟨x₂, z₂, htext, hx', hz'⟩ := h.place hrule hmid
    exact ⟨x₂, z₂, htext, hx.trans hx', hz.trans hz'⟩

theorem Delimited.before {w t : Str} (hw : Foreign w) (h : Delimited w t) :
    Delimited w (rewritten rulesBefore t) := by
  intro x z ht
  obtain ⟨x', z', htext, hx, hz⟩ := hw.place_rewritten (fun _ hrule => hrule) ht
  obtain ⟨hbefore, hbehind⟩ := h x' z' htext
  exact ⟨hx.mpr hbefore, hz.mpr hbehind⟩

/-- Where a word begins in a candidate, the two together, and what stands behind them. -/
theorem exists_union {u z a w b : Str} (h : u ++ z = a ++ (w ++ b)) (hlt : a.length < u.length) :
    ∃ c d y, z = c ++ y ∧ b = d ++ y ∧ u ++ c = a ++ (w ++ d) ∧ ∀ x ∈ c, x ∈ w := by
  rw [← List.append_assoc] at h
  rcases List.append_eq_append_iff.mp h with ⟨c, hc, rfl⟩ | ⟨d, hd, rfl⟩
  · refine ⟨c, [], b, rfl, rfl, by rw [← hc, List.append_nil], ?_⟩
    rcases List.append_eq_append_iff.mp hc with ⟨e, _, rfl⟩ | ⟨e, rfl, _⟩
    · intro x hx
      exact List.mem_append_right e hx
    · rw [List.length_append] at hlt
      omega
  · exact ⟨[], d, z, rfl, rfl, by rw [List.append_nil, hd, List.append_assoc], by simp⟩

theorem Uncontested.before {w t : Str} (hw : Grouped w) (h : Uncontested w t) :
    Uncontested w (rewritten rulesBefore t) := by
  rintro x u z ht hcandidate ⟨a, b, hsplit, hlt, hlong⟩
  obtain ⟨c, d, y, rfl, rfl, hunion, hc⟩ := exists_union hsplit hlt
  have hu : u ≠ [] := by
    rintro rfl
    exact absurd hlt (Nat.not_lt_zero _)
  have huc : u ++ c ≠ [] := fun hnil => hu (List.append_eq_nil_iff.mp hnil).1
  have hforeign : Foreign (u ++ c) := by
    have hchars := hcandidate.grouped.foreign (x := []) (z := c) (by simp)
      fun s hs => (hw.mem s (hc s hs)).imp_left isWord_of_isDigit
    simpa using hchars
  have hparts : rewritten rulesBefore t = x ++ ((u ++ c) ++ y) := by rw [ht, List.append_assoc]
  obtain ⟨x', y', htext, hx, hy⟩ := hforeign.place_rewritten (fun _ hrule => hrule) hparts
  have hbehind : Severed u (c ++ y') := by
    have hself := hcandidate.behind
    by_cases hnil : c = []
    · subst hnil
      rw [List.append_nil] at hy
      exact hy.mp hself
    · rw [severed_append_iff hnil] at hself ⊢
      exact hself
  have hsplit' : u ++ (c ++ y') = a ++ (w ++ (d ++ y')) := by
    rw [← List.append_assoc, hunion]
    simp
  refine h x' u (c ++ y') (by rw [htext, List.append_assoc]) ?_ ⟨a, d ++ y', hsplit', hlt, hlong⟩
  refine ⟨hcandidate.grouped, hcandidate.least, hcandidate.most, ?_, hbehind⟩
  rw [← severed_append_iff hu c, ← hx, severed_append_iff hu]
  exact hcandidate.before

theorem CardNumber.foreign {w : Str} (h : CardNumber w) : Foreign w := by
  simpa using h.grouped.foreign (x := []) (z := []) (by simp) (by simp)

theorem sound_creditCardRule : creditCardRule.Sound :=
  sound_of_mem_builtinRules creditCardRule (by simp [builtinRules_eq])

theorem CardNumber.pos {w : Str} (h : CardNumber w) : 0 < w.length := by
  have hle := List.length_filter_le isDigit w
  have hleast := h.least
  omega

theorem first_delimited {w : Str} (hcard : CardNumber w) {y text z : Str} (h : Delimited w (y ++ text))
    (ht : text = w ++ z) :
    ∃ n gs, creditCardRe.first y.getLast? text = some (n, gs) ∧ w.length ≤ n := by
  obtain ⟨hbefore, hbehind⟩ := h y z (by rw [ht])
  rw [ht]
  exact (hcard.candidate hbefore hbehind).matched

/-- No match that is rejected reaches into the number. -/
theorem rejected_before {w : Str} (hcard : CardNumber w) {y text a z : Str} (h : Delimited w (y ++ text))
    (hrival : Unrivalled w (y ++ text)) (hreached : Reached y text) (ht : text = a ++ (w ++ z))
    {n : Nat} {gs : List (Nat × Str)}
    (hf : creditCardRe.first y.getLast? text = some (n, gs))
    (hrej : creditCardRule.rejects (text.take n) = true) : n ≤ a.length := by
  by_contra hlt
  have hlongest := longest_of_first hf
  have hcandidate := hlongest.candidate
  have htake : (text.take n).length = n := List.length_take_of_le (first_sound hf).1
  have hsplit : text.take n ++ text.drop n = a ++ (w ++ z) := by rw [List.take_append_drop, ht]
  have hinvalid : luhnValid ((text.take n).filter isDigit) = false := by
    rw [← hcandidate.grouped.isValid hcandidate.least hcandidate.most]
    have hnot : creditCardRule.rejects (text.take n) = !isValidCreditCard (text.take n) := rfl
    rwa [hnot, Bool.not_eq_true'] at hrej
  by_cases hself : a = [] ∧ n = w.length
  · obtain ⟨rfl, rfl⟩ := hself
    have hw : text.take w.length = w := by rw [ht, List.nil_append, List.take_left]
    rw [hw, hcard.luhn] at hinvalid
    cases hinvalid
  · have hvalid := hrival y (text.take n) (text.drop n) (by rw [List.take_append_drop])
      (by rwa [List.take_append_drop]) hlongest ⟨a, z, hsplit, by omega, ?_⟩
    · rw [hinvalid] at hvalid
      cases hvalid
    · rintro rfl
      obtain ⟨n', gs', hfirst, hle⟩ := first_delimited hcard h ht
      rw [hf] at hfirst
      cases hfirst
      have hne : n ≠ w.length := fun he => hself ⟨rfl, he⟩
      omega

/-- No occurrence of `w` begins in `x`, behind which stands `z`. -/
def StartsBehind (w x z : Str) : Prop := ∀ a b, x ++ z = a ++ (w ++ b) → x.length ≤ a.length

theorem StartsBehind.append {w x u v : Str} (hx : StartsBehind w x (u ++ v)) (hu : StartsBehind w u v) :
    StartsBehind w (x ++ u) v := by
  intro a b he
  rw [List.append_assoc] at he
  have hle := hx a b he
  rcases List.append_eq_append_iff.mp he with ⟨c, rfl, hc⟩ | ⟨c, rfl, hc⟩
  · have hlen := hu c b hc
    simp only [List.length_append]
    omega
  · rw [List.length_append] at hle
    have hcnil : c = [] := List.length_eq_zero_iff.mp (by omega)
    subst hcnil
    have hlen := hu [] b hc.symm
    simp only [List.length_append, List.length_nil] at hlen ⊢
    omega

theorem StartsBehind.not_infix {w x z : Str} (h : StartsBehind w x z) (hpos : 0 < w.length) :
    ¬ w <:+: x := by
  rintro ⟨a, b, he⟩
  have hle := h a (b ++ z) (by simp [← he])
  rw [← he] at hle
  simp only [List.length_append] at hle
  omega

/-- The rule leaves no such card number. What is kept before the text is `x`. -/
theorem card_notMem_scan {w : Str} (hcard : CardNumber w) (y x text : Str)
    (hdelimited : Delimited w (y ++ text)) (hrival : Unrivalled w (y ++ text))
    (hreached : Reached y text) (hx : StartsBehind w x text) :
    ¬ w <:+: x ++ Edits.target (scan creditCardRule y.getLast? text) := by
  have hsound := sound_creditCardRule
  have hpos := hcard.pos
  induction hk : text.length using Nat.strong_induction_on generalizing y x text with
  | _ k ih =>
    have hnone := hx.not_infix hpos
    cases text with
    | nil => simpa using hnone
    | cons c cs =>
      cases hf : creditCardRe.first y.getLast? (c :: cs) with
      | none =>
        have hbehind : StartsBehind w [c] cs := by
          intro a b ht
          by_contra hlt
          have hnil : a = [] := List.length_eq_zero_iff.mp (by simpa using hlt)
          subst hnil
          have hfront : c :: cs = w ++ b := ht
          obtain ⟨n, gs, hfirst, _⟩ := first_delimited hcard hdelimited hfront
          rw [hfirst] at hf
          cases hf
        have hstep := ih cs.length (by simp [← hk]) (y ++ [c]) (x ++ [c]) cs (by simpa using hdelimited)
          (by simpa using hrival) (hreached.skip (not_candidate_of_first hf))
          (hx.append (u := [c]) hbehind) rfl
        rw [List.getLast?_concat] at hstep
        rw [scan_none hf, Edits.target_cons]
        simpa [Edit.target] using hstep
      | some m =>
        obtain ⟨n, gs⟩ := m
        have hn := first_pos hsound hf
        have hle := (first_sound hf).1
        have htake : ((c :: cs).take n).length = n := List.length_take_of_le hle
        have hlt : ((c :: cs).drop n).length < k := by
          rw [List.length_drop, ← hk]
          omega
        have hlast : (y ++ (c :: cs).take n).getLast? = ((c :: cs).take n).getLast? := by
          apply List.getLast?_append_of_ne_nil
          intro hnil
          rw [hnil, List.length_nil] at htake
          omega
        have hsplit : y ++ c :: cs = (y ++ (c :: cs).take n) ++ (c :: cs).drop n := by
          rw [List.append_assoc, List.take_append_drop]
        have hnext : Reached (y ++ (c :: cs).take n) ((c :: cs).drop n) := by
          rw [← List.take_append_drop n (c :: cs)] at hreached
          exact hreached.take (longest_of_first hf)
        have hrec := fun x hx => ih _ hlt (y ++ (c :: cs).take n) x ((c :: cs).drop n)
          (hsplit ▸ hdelimited) (hsplit ▸ hrival) hnext hx rfl
        rw [hlast] at hrec
        rw [scan_some hsound hf, Edits.target_append]
        cases hrej : creditCardRule.rejects ((c :: cs).take n) with
        | true =>
          have hbehind : StartsBehind w ((c :: cs).take n) ((c :: cs).drop n) := by
            intro a b ht
            rw [List.take_append_drop] at ht
            rw [htake]
            exact rejected_before hcard hdelimited hrival hreached ht hf hrej
          rw [← List.take_append_drop n (c :: cs)] at hx
          have hstep := hrec (x ++ (c :: cs).take n) (hx.append hbehind)
          simpa [CompiledRule.edits, hrej] using hstep
        | false =>
          have hstep := hrec [] fun _ _ _ => Nat.zero_le _
          have htarget : Edits.target (creditCardRule.edits ((c :: cs).take n) gs) =
              '[' :: ("REDACTED:credit_card".toList ++ [']']) := by
            rw [CompiledRule.edits, hrej]
            rfl
          rw [htarget]
          intro hin
          rcases hcard.foreign.infix_around (by decide) hin with hfirst | hrest
          · exact hnone hfirst
          · exact hstep hrest

/-- A card number is masked when it is at the boundaries of words wherever it occurs, and no
candidate that the check rejects takes it away. The rules before have their turn first. -/
theorem card_masked (t w : Str) (hcard : CardNumber w) (hdelimited : Delimited w (rewritten rulesBefore t))
    (hrival : Unrivalled w (rewritten rulesBefore t)) : ¬ w <:+: (builtin.redactBytes t).1 := by
  rw [redactBytes_fst, rewritten_card]
  intro hin
  have hcardRule := hcard.foreign.infix_rewritten (fun _ hrule => mem_builtinRules_of_behind hrule) hin
  generalize rewritten rulesBefore t = text at hcardRule hdelimited hrival
  have hnot := card_notMem_scan hcard [] [] text hdelimited hrival (.start text) fun _ _ _ => Nat.zero_le _
  rw [List.nil_append, List.getLast?_nil] at hnot
  rw [applyRule_scan sound_creditCardRule] at hcardRule
  exact hnot hcardRule

def isGrouped : Str → Bool
  | [] => false
  | [d] => isDigit d
  | d :: s :: w => isDigit d && (isGrouped (s :: w) || isSeparator s && isGrouped w)

theorem grouped_iff (w : Str) : Grouped w ↔ isGrouped w = true := by
  constructor
  · intro h
    induction h with
    | last hd => exact hd
    | @digit d w hd h ih =>
      obtain ⟨e, v, rfl, _⟩ := h.head
      rw [isGrouped, hd, ih]
      rfl
    | separated hd hs _ ih => simp [isGrouped, hd, hs, ih]
  · intro h
    fun_induction isGrouped w with
    | case1 => cases h
    | case2 d => exact .last h
    | case3 d s w ih₁ ih₂ =>
      simp only [Bool.and_eq_true, Bool.or_eq_true] at h
      rcases h with ⟨hd, hw | ⟨hs, hw⟩⟩
      · exact .digit hd (ih₁ hw)
      · exact .separated hd hs (ih₂ hw)

instance (w : Str) : Decidable (Grouped w) := decidable_of_iff _ (grouped_iff w).symm

theorem candidate_iff (x u z : Str) : Candidate x u z ↔
    Grouped u ∧ 13 ≤ (u.filter isDigit).length ∧ (u.filter isDigit).length ≤ 19 ∧
      (x.getLast?.any isWord && u.head?.any isWord) = false ∧
      (u.getLast?.any isWord && z.head?.any isWord) = false :=
  ⟨fun h => ⟨h.grouped, h.least, h.most, h.before, h.behind⟩,
    fun ⟨hgrouped, hleast, hmost, hbefore, hbehind⟩ => ⟨hgrouped, hleast, hmost, hbefore, hbehind⟩⟩

instance (x u z : Str) : Decidable (Candidate x u z) := decidable_of_iff _ (candidate_iff x u z).symm

/-- Only the places in the text itself are to be looked at. -/
theorem delimited_of_places {w t : Str}
    (h : ∀ i ≤ t.length, w.isPrefixOf (t.drop i) = true →
      ((t.take i).getLast?.any isWord && w.head?.any isWord) = false ∧
        (w.getLast?.any isWord && ((t.drop i).drop w.length).head?.any isWord) = false) :
    Delimited w t := by
  rintro x z rfl
  have hplace := h x.length (by simp)
  rw [List.take_left, List.drop_left, List.drop_left] at hplace
  exact hplace (List.isPrefixOf_iff_prefix.mpr (List.prefix_append w z))

/-- The first `n` characters are no candidate that fails the check and takes the word away. -/
def Harmless (w x s : Str) (n : Nat) : Prop :=
  Candidate x (s.take n) (s.drop n) → luhnValid ((s.take n).filter isDigit) = false →
    ∀ k < n, w.isPrefixOf (s.drop k) = true → k = 0 ∧ n ≤ w.length

instance (w x s : Str) (n : Nat) : Decidable (Harmless w x s n) :=
  inferInstanceAs (Decidable (_ → _ → ∀ k < n, _))

theorem Harmless.luhn {w x u z : Str} (h : Harmless w x (u ++ z) u.length) (hu : Candidate x u z)
    (hrivals : Rivals w u z) : luhnValid (u.filter isDigit) = true := by
  obtain ⟨a, b, hsplit, hlt, hlong⟩ := hrivals
  by_contra hinvalid
  rw [Harmless, List.take_left, List.drop_left, hsplit] at h
  obtain ⟨hzero, hle⟩ := h hu (by simpa using hinvalid) a.length hlt (by simp)
  have hlonger := hlong (List.length_eq_zero_iff.mp hzero)
  omega

theorem uncontested_of_places {w t : Str}
    (h : ∀ i ≤ t.length, ∀ n ≤ (t.drop i).length, Harmless w (t.take i) (t.drop i) n) :
    Uncontested w t := by
  rintro x u z rfl hu
  have hplace := h x.length (by simp) u.length (by simp)
  rw [List.take_left, List.drop_left] at hplace
  exact hplace.luhn hu

/-- The length of the longest candidate at a place, and zero when none begins there. -/
def longestAt (x s : Str) : Nat :=
  Nat.findGreatest (fun n => Candidate x (s.take n) (s.drop n)) s.length

theorem Longest.longestAt {x u z : Str} (h : Longest x u z) : longestAt x (u ++ z) = u.length := by
  refine Nat.findGreatest_eq_iff.mpr ⟨by simp, ?_, ?_⟩
  · intro _
    rw [List.take_left, List.drop_left]
    exact h.candidate
  · intro n hlt hn hcandidate
    have hle := h.longest _ _ (List.take_append_drop n (u ++ z)).symm hcandidate
    rw [List.length_take_of_le hn] at hle
    omega

theorem longestAt_eq_zero {x s : Str} (h : ∀ u z, s = u ++ z → ¬ Candidate x u z) : longestAt x s = 0 :=
  Nat.findGreatest_eq_zero_iff.mpr fun n _ _ => h _ _ (List.take_append_drop n s).symm

section Places
variable {w t : Str} (places : List Nat) (hzero : 0 ∈ places)
  (hnext : ∀ i ∈ places, i < t.length → i + max 1 (longestAt (t.take i) (t.drop i)) ∈ places)
include hzero hnext

/-- Places that are closed under going on to the next one are all that is reached. -/
theorem Reached.length_mem {x z : Str} (h : Reached x z) (ht : t = x ++ z) : x.length ∈ places := by
  induction h with
  | start => exact hzero
  | @skip x z c _ hnone ih =>
    have hplace := hnext x.length (ih (by simp [ht])) (by simp [ht])
    rw [ht, List.append_assoc, List.take_left, List.drop_left] at hplace
    rw [List.length_append, List.length_singleton]
    rwa [List.singleton_append, longestAt_eq_zero hnone] at hplace
  | @take x u z _ hu ih =>
    have hpos : 13 ≤ u.length := hu.candidate.least.trans (List.length_filter_le isDigit u)
    have hlt : x.length < t.length := by
      rw [ht, List.length_append, List.length_append]
      omega
    have hplace := hnext x.length (ih (by simp [ht])) hlt
    rw [ht, List.append_assoc, List.take_left, List.drop_left, hu.longestAt] at hplace
    rw [List.length_append]
    rwa [Nat.max_eq_right (by omega)] at hplace

theorem unrivalled_of_places
    (h : ∀ i ∈ places, Harmless w (t.take i) (t.drop i) (longestAt (t.take i) (t.drop i))) :
    Unrivalled w t := by
  intro x u z ht hreached hu
  have hplace := h x.length (hreached.length_mem places hzero hnext ht)
  rw [ht, List.take_left, List.drop_left, hu.longestAt] at hplace
  exact hplace.luhn hu.candidate

end Places

def plainCard : Str := "4111111111111111".toList

theorem cardNumber_plainCard : CardNumber plainCard :=
  ⟨by decide, by decide, by decide, by decide⟩

/-- A further digit makes another candidate of it, and what is not at the boundaries of words is no
candidate. -/
theorem plainCard_not_masked : CardNumber plainCard ∧
    (Candidate "1 ".toList plainCard [] ∧
      plainCard <:+: (builtin.redactBytes ("1 ".toList ++ plainCard)).1) ∧
    (Candidate [] plainCard " 1".toList ∧
      plainCard <:+: (builtin.redactBytes (plainCard ++ " 1".toList)).1) ∧
    Candidate [] plainCard (", x".toList ++ plainCard) ∧
      plainCard <:+: (builtin.redactBytes (plainCard ++ (", x".toList ++ plainCard))).1 := by
  refine ⟨cardNumber_plainCard, ⟨by decide, by decide +kernel⟩, ⟨by decide, by decide +kernel⟩, by decide,
    by decide +kernel⟩

/-- More digits stand behind the second card number than one candidate can have. -/
def cardText : Str := plainCard ++ ' ' :: (plainCard ++ " 2026, ann@example.com".toList)

def groupedCard : Str := "5555 5555 5555 4444".toList

/-- In the middle of the two stands a candidate that fails the check, and it is not taken. -/
def groupedText : Str := "4111 1111 1111 1111 ".toList ++ groupedCard

theorem cards_masked : ¬ plainCard <:+: (builtin.redactBytes cardText).1 ∧
    ¬ groupedCard <:+: (builtin.redactBytes groupedText).1 := by
  refine ⟨card_masked cardText plainCard cardNumber_plainCard ?_ ?_,
    card_masked groupedText groupedCard ⟨by decide, by decide, by decide, by decide⟩ ?_ ?_⟩
  · exact (delimited_of_places (by decide +kernel)).before cardNumber_plainCard.foreign
  · exact ((uncontested_of_places (by decide +kernel)).before cardNumber_plainCard.grouped).unrivalled
  · exact delimited_of_places (by decide +kernel)
  · exact unrivalled_of_places [0, 19, 20, 39] (by decide) (by decide +kernel) (by decide +kernel)

end Janus.Redaction
