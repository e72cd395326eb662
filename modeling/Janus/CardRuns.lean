import Janus.CardNumbers

/-!
# Card numbers in a second run

A candidate that the card rule rejects stays in the text. Where no rule behind cuts into it, it is
rejected again: every cut is made between words and leaves nothing that a candidate could go on
into, so candidates are looked for at the same places as before (`cuts_of_follows`).
-/

namespace Janus.Redaction

set_option autoImplicit false

open Regex

/-- A text that no candidate begins in and none goes on into. -/
def Dull (s : Str) : Prop :=
  s.head?.any (fun c => !isSeparator c) = true ∧ s.all (fun c => !isDigit c) = true

instance (s : Str) : Decidable (Dull s) := inferInstanceAs (Decidable (_ ∧ _))

theorem Dull.append {s t : Str} (hs : Dull s) (ht : Dull t) : Dull (s ++ t) := by
  refine ⟨?_, by rw [List.all_append, hs.2, ht.2]; rfl⟩
  cases s with
  | nil => cases hs.1
  | cons c s => exact hs.1

theorem Dull.not_digit {s : Str} (h : Dull s) {c : Char} (hc : c ∈ s) : isDigit c = false := by
  simpa using List.all_eq_true.mp h.2 c hc

theorem Dull.exists_cons {s : Str} (h : Dull s) : ∃ c r, s = c :: r ∧ isSeparator c = false ∧
    isDigit c = false := by
  cases s with
  | nil => cases h.1
  | cons c r => exact ⟨c, r, rfl, by simpa using h.1, h.not_digit List.mem_cons_self⟩

theorem dull_of_lang {r : Regex} (hmin : 0 < r.minLen) (hstart : r.starts ' ' = false ∧ r.starts '-' = false)
    (hdigit : ∀ c, isWord c = true → isDigit c = true → r.consumes c = false) {u : Str} (h : Lang r u) :
    Dull u := by
  have hlen := minLen_of_lang r h
  refine ⟨?_, ?_⟩
  · cases u with
    | nil => exact absurd (hmin.trans_le hlen) (Nat.lt_irrefl 0)
    | cons c u =>
      have hc := starts_of_lang r h
      rw [List.head?_cons, Option.any_some, Bool.not_eq_true']
      by_contra hsep
      have hor : c = ' ' ∨ c = '-' := by simpa [isSeparator, ← or_iff_not_imp_left] using hsep
      rcases hor with rfl | rfl
      · rw [hstart.1] at hc
        cases hc
      · rw [hstart.2] at hc
        cases hc
  · refine List.all_eq_true.mpr fun c hc => ?_
    rw [Bool.not_eq_true']
    by_contra hd
    have hd : isDigit c = true := by simpa using hd
    have hno := hdigit c (isWord_of_isDigit hd) hd
    rw [consumes_of_lang r h c hc] at hno
    cases hno

/-- What each cut leaves is dull. -/
def LeavesDull (es : List Edit) : Prop :=
  ∀ u copied ins, Edit.cut u copied ins ∈ es → IsTag ins ∧ Dull (u.take copied ++ ins)

theorem LeavesDull.tail {e : Edit} {es : List Edit} (h : LeavesDull (e :: es)) : LeavesDull es :=
  fun u copied ins hmem => h u copied ins (List.mem_cons_of_mem e hmem)

theorem LeavesDull.right {fs es : List Edit} (h : LeavesDull (fs ++ es)) : LeavesDull es :=
  fun u copied ins hmem => h u copied ins (List.mem_append_right fs hmem)

theorem dull_inserted : ∀ rule ∈ creditCardRule :: rulesBehind, Dull (rule.inserted []) := by decide

theorem dull_copied {rule : CompiledRule} (hrule : rule ∈ creditCardRule :: rulesBehind)
    {prev : Option Char} {text : Str} {n : Nat} {gs : List (Nat × Str)}
    (hf : rule.re.first prev text = some (n, gs)) :
    (text.take n).take (rule.copied gs) = [] ∨ Dull ((text.take n).take (rule.copied gs)) := by
  have hgroup {i : Nat} {r s : Regex} {tpl : List TplPart} (hs : s.binds i = false)
      (hre : (Regex.seq (.group i r) s).first prev text = some (n, gs))
      (htpl : rule.replaceTpl = .group i :: tpl) : Lang r ((text.take n).take (rule.copied gs)) := by
    obtain ⟨u, v, hu, _, htake, hgroup⟩ := first_group hs hre
    have hlen : rule.copied gs = u.length := by
      rw [CompiledRule.copied, htpl]
      exact congrArg List.length hgroup
    rwa [htake, hlen, List.take_left]
  have hor : rule = creditCardRule ∨ rule = ibanRule ∨ rule = secretAssignRule ∨ rule = bearerRule ∨
      rule = openAIKeyRule := by simpa [rulesBehind] using hrule
  rcases hor with rfl | rfl | rfl | rfl | rfl
  · exact Or.inl rfl
  · exact Or.inl rfl
  · have hkeyword := hgroup (r := keywordRe) (s := seqAll secretTail) (by decide) (first_boundary hf) rfl
    exact Or.inr (dull_of_lang (by decide) (by decide) (forall_isWord (by decide)) hkeyword)
  · have hword := hgroup (r := bearerWordRe) (s := seqAll bearerTail) (by decide) hf rfl
    exact Or.inr (dull_of_lang (by decide) (by decide) (forall_isWord (by decide)) hword)
  · exact Or.inl rfl

theorem mem_builtinRules_of_card {rule : CompiledRule} (h : rule ∈ creditCardRule :: rulesBehind) :
    rule ∈ builtinRules :=
  List.mem_append_right rulesBefore h

theorem leavesDull_scan {rule : CompiledRule} (hrule : rule ∈ creditCardRule :: rulesBehind)
    (prev : Option Char) (text : Str) : LeavesDull (scan rule prev text) := by
  have hmem := mem_builtinRules_of_card hrule
  intro u copied ins hcut
  refine ⟨(masking_scan hmem prev text u copied ins hcut).1, ?_⟩
  obtain ⟨_, rest, gs, hf, rfl, rfl, _⟩ := cut_of_mem_scan (sound_of_mem_builtinRules rule hmem) hcut
  have hins : Dull (rule.inserted gs) := by
    rw [inserted_builtin rule hmem gs]
    exact dull_inserted rule hrule
  have hcopied := dull_copied hrule hf
  rw [List.take_left] at hcopied
  rcases hcopied with hnil | hdull
  · rwa [hnil, List.nil_append]
  · exact hdull.append hins

/-- The rewritten text goes on in the word before it where the text did. -/
theorem severed_target_iff {es : List Edit} (hes : LeavesDull es) {y v : Str} (htrim : Trimmed (y ++ v) es) :
    Severed v (Edits.target es) ↔ Severed v (Edits.source es) := by
  cases es with
  | nil => exact Iff.rfl
  | cons e es =>
    cases e with
    | kept c => exact Iff.rfl
    | cut u copied ins =>
      obtain ⟨hins, _⟩ := hes u copied ins List.mem_cons_self
      obtain ⟨hstart, _, _⟩ := htrim
      have hsplit : u.take copied ++ (u.drop copied ++ Edits.source es) = u ++ Edits.source es := by
        rw [← List.append_assoc, List.take_append_drop]
      rw [Edits.target_cons, Edits.source_cons, Edit.target, Edit.source, ← hsplit, List.append_assoc]
      cases hcopied : u.take copied with
      | nil =>
        rw [hcopied, List.append_nil] at hstart
        exact iff_of_true (severed_tag v hins (Edits.target es)).2 (severed_of_append hstart)
      | cons c k => exact Iff.rfl

/-- A candidate in the rewritten text that begins before the first cut stood in the text. -/
theorem candidate_source {es : List Edit} (hes : LeavesDull es) {x y w v z : Str}
    (htrim : Trimmed (y ++ w) es) (hv : Candidate x v z) (h : w ++ Edits.target es = v ++ z) :
    ∃ z', w ++ Edits.source es = v ++ z' ∧ Severed v z' := by
  induction es generalizing w with
  | nil => exact ⟨z, h, hv.behind⟩
  | cons e es ih =>
    cases e with
    | kept c =>
      have hrec := ih hes.tail (w := w ++ [c]) (by simpa [Trimmed] using htrim)
        (by simpa [Edit.target] using h)
      simpa [Edit.source] using hrec
    | cut u copied ins =>
      obtain ⟨_, hdull⟩ := hes u copied ins List.mem_cons_self
      rcases List.append_eq_append_iff.mp h with ⟨a, rfl, ha⟩ | ⟨a, rfl, rfl⟩
      · cases a with
        | nil =>
          rw [List.append_nil] at hv ⊢
          refine ⟨_, rfl, (severed_target_iff hes htrim).mp ?_⟩
          rw [ha]
          exact hv.behind
        | cons d a =>
          -- the candidate would go on into what the cut leaves
          obtain ⟨c, r, hr, hsep, hdigit⟩ := hdull.exists_cons
          rw [Edits.target_cons, Edit.target, hr] at ha
          obtain ⟨rfl, _⟩ := List.cons.inj ha
          rcases hv.grouped.mem c (by simp) with hd | hs
          · rw [hdigit] at hd
            cases hd
          · rw [hsep] at hs
            cases hs
      · refine ⟨a ++ Edits.source (.cut u copied ins :: es), by rw [List.append_assoc], ?_⟩
        by_cases hnil : a = []
        · subst hnil
          rw [List.append_nil] at htrim
          exact (severed_target_iff hes htrim).mp hv.behind
        · have hbehind := hv.behind
          rw [severed_append_iff hnil] at hbehind ⊢
          exact hbehind

theorem Candidate.ne_nil {x u z : Str} (h : Candidate x u z) : u ≠ [] := by
  obtain ⟨d, v, rfl, _⟩ := h.grouped.head
  exact List.cons_ne_nil d v

theorem candidate_moved {es : List Edit} (hes : LeavesDull es) {x y w v z : Str} (hw : w ≠ [])
    (htrim : Trimmed (y ++ w) es) (hctx : Severed x w ↔ Severed y w) (hv : Candidate x v z)
    (h : w ++ Edits.target es = v ++ z) : ∃ z', w ++ Edits.source es = v ++ z' ∧ Candidate y v z' := by
  obtain ⟨z', hz', hbehind⟩ := candidate_source hes htrim hv h
  refine ⟨z', hz', hv.grouped, hv.least, hv.most, ?_, hbehind⟩
  rw [← severed_append_iff hv.ne_nil z', ← hz', severed_append_iff hw, ← hctx,
    ← severed_append_iff hw (Edits.target es), h, severed_append_iff hv.ne_nil]
  exact hv.before

/-- Where none begins in the text, none begins in the rewritten text. -/
theorem first_target_none {es : List Edit} (hes : LeavesDull es) {x y w : Str} (hw : w ≠ [])
    (htrim : Trimmed (y ++ w) es) (hctx : Severed x w ↔ Severed y w)
    (hf : creditCardRe.first y.getLast? (w ++ Edits.source es) = none) :
    creditCardRe.first x.getLast? (w ++ Edits.target es) = none := by
  apply Option.eq_none_iff_forall_not_mem.mpr
  rintro ⟨n, gs⟩ hfirst
  obtain ⟨z', hz', hv⟩ := candidate_moved hes hw htrim hctx (candidate_of_first hfirst)
    (List.take_append_drop n _).symm
  exact not_candidate_of_first hf _ z' hz' hv

/-- And where the longest one is kept, it is the longest one there. -/
theorem first_target_some {es : List Edit} (hes : LeavesDull es) {x y w : Str} {gs : List (Nat × Str)}
    (hw : w ≠ []) (htrim : Trimmed (y ++ w) es) (hctx : Severed x w ↔ Severed y w)
    (hf : creditCardRe.first y.getLast? (w ++ Edits.source es) = some (w.length, gs)) :
    ∃ gs', creditCardRe.first x.getLast? (w ++ Edits.target es) = some (w.length, gs') := by
  have hlongest := longest_of_first hf
  rw [List.take_left, List.drop_left] at hlongest
  have hself := hlongest.candidate
  have hkept : Candidate x w (Edits.target es) :=
    ⟨hself.grouped, hself.least, hself.most, hctx.mpr hself.before,
      (severed_target_iff hes htrim).mpr hself.behind⟩
  obtain ⟨n, gs', hfirst, hle⟩ := hkept.matched
  refine ⟨gs', ?_⟩
  obtain ⟨z', hz', hv⟩ := candidate_moved hes hw htrim hctx (candidate_of_first hfirst)
    (List.take_append_drop n _).symm
  have hmost := hlongest.longest _ z' hz' hv
  rw [List.length_take_of_le (first_sound hfirst).1] at hmost
  rw [hfirst, Nat.le_antisymm hmost hle]

theorem scan_dull {s : Str} (hs : ∀ c ∈ s, isDigit c = false) (x t : Str) :
    scan creditCardRule x.getLast? (s ++ t) = Edits.keep s ++ scan creditCardRule (x ++ s).getLast? t := by
  induction s generalizing x with
  | nil => rw [List.append_nil]; rfl
  | cons c s ih =>
    obtain ⟨hc, hs⟩ := List.forall_mem_cons.mp hs
    have hnone : creditCardRe.first x.getLast? (c :: (s ++ t)) = none := by
      apply Option.eq_none_iff_forall_not_mem.mpr
      rintro ⟨n, gs⟩ hf
      obtain ⟨d, v, htake, hd⟩ := (candidate_of_first hf).grouped.head
      have hhead := congrArg List.head? (List.take_append_drop n (c :: (s ++ t)))
      rw [htake] at hhead
      cases hhead
      rw [hc] at hd
      cases hd
    have hrec := ih hs (x ++ [c])
    rw [List.getLast?_concat, List.append_assoc] at hrec
    rw [List.cons_append, scan_none hnone, hrec]
    rfl

/-- The edits keep the candidates that the check rejects, and the card rule finds no others. -/
inductive Follows : Str → Str → List Edit → Prop where
  | nil (y : Str) : Follows y [] []
  | pass {y z : Str} {c : Char} {es : List Edit} (hnone : creditCardRe.first y.getLast? (c :: z) = none)
    (h : Follows (y ++ [c]) z es) : Follows y (c :: z) (.kept c :: es)
  | leave {y u z : Str} {es : List Edit} {gs : List (Nat × Str)}
    (hu : creditCardRe.first y.getLast? (u ++ z) = some (u.length, gs))
    (hrej : creditCardRule.rejects u = true) (h : Follows (y ++ u) z es) :
    Follows y (u ++ z) (Edits.keep u ++ es)
  | cut {y u z : Str} {es : List Edit} (copied : Nat) (ins : Str) (h : Follows (y ++ u) z es) :
    Follows y (u ++ z) (.cut u copied ins :: es)

theorem Follows.source {y text : Str} {es : List Edit} (h : Follows y text es) : Edits.source es = text := by
  induction h with
  | nil => rfl
  | pass _ _ ih => rw [Edits.source_cons, ih]; rfl
  | leave _ _ _ ih => rw [Edits.source_append, Edits.source_keep, ih]
  | cut _ _ _ ih => rw [Edits.source_cons, ih]; rfl

theorem trimmed_of_keep {x u : Str} {es : List Edit} (h : Trimmed x (Edits.keep u ++ es)) :
    Trimmed (x ++ u) es := by
  induction u generalizing x with
  | nil => rwa [List.append_nil]
  | cons c u ih => simpa using ih (x := x ++ [c]) h

/-- The card rule masks nothing in the rewritten text. -/
theorem cuts_of_follows {y text : Str} {es : List Edit} (h : Follows y text es) (hes : LeavesDull es)
    (htrim : Trimmed y es) (x : Str) (hctx : Severed x text ↔ Severed y text) :
    Edits.cuts (scan creditCardRule x.getLast? (Edits.target es)) = 0 := by
  induction h generalizing x with
  | nil => rw [Edits.target_nil, scan_nil]; rfl
  | @pass y z c es hnone h ih =>
    have htrim' : Trimmed (y ++ [c]) es := htrim
    have hfirst := first_target_none hes.tail (w := [c]) (List.cons_ne_nil c []) htrim' hctx
      (by rw [h.source]; exact hnone)
    have hrec := ih hes.tail htrim' (x ++ [c]) (by simp [Severed])
    rw [List.getLast?_concat] at hrec
    rw [Edits.target_cons]
    show Edits.cuts (scan creditCardRule x.getLast? (c :: Edits.target es)) = 0
    rw [scan_none hfirst]
    rwa [Edits.cuts_cons_kept]
  | @leave y u z es gs hu hrej h ih =>
    have hne : u ≠ [] := by
      rintro rfl
      exact absurd (first_pos sound_creditCardRule hu) (Nat.lt_irrefl 0)
    have htrim' := trimmed_of_keep htrim
    have hctx' : Severed x u ↔ Severed y u := by
      rwa [severed_append_iff hne, severed_append_iff hne] at hctx
    obtain ⟨gs', hfirst⟩ := first_target_some hes.right hne htrim' hctx' (by rw [h.source]; exact hu)
    have hsame : Severed (x ++ u) z ↔ Severed (y ++ u) z := by
      rw [append_severed_iff x hne, append_severed_iff y hne]
    have hrec := ih hes.right htrim' (x ++ u) hsame
    rw [List.getLast?_append_of_ne_nil _ hne] at hrec
    rw [Edits.target_append, Edits.target_keep, scan_some sound_creditCardRule hfirst, List.take_left,
      List.drop_left, CompiledRule.edits, hrej, if_pos rfl]
    simpa using hrec
  | @cut y u z es copied ins h ih =>
    obtain ⟨hins, hdull⟩ := hes u copied ins List.mem_cons_self
    obtain ⟨_, hend, htrim'⟩ := htrim
    rw [h.source] at hend
    have hleft : Severed (x ++ (u.take copied ++ ins)) z := by
      rw [← List.append_assoc]
      exact (severed_tag (x ++ u.take copied) hins z).1
    have hrec := ih hes.tail htrim' (x ++ (u.take copied ++ ins)) (iff_of_true hleft hend)
    rw [Edits.target_cons, Edit.target, scan_dull (fun c hc => hdull.not_digit hc)]
    simpa using hrec

/-- The edits of the card rule itself keep the candidates that it rejects. -/
theorem follows_own (y text : Str) : Follows y text (scan creditCardRule y.getLast? text) := by
  induction hk : text.length using Nat.strong_induction_on generalizing y text with
  | _ k ih =>
    cases text with
    | nil =>
      rw [scan_nil]
      exact .nil y
    | cons c cs =>
      cases hf : creditCardRe.first y.getLast? (c :: cs) with
      | none =>
        have hrec := ih cs.length (by simp [← hk]) (y ++ [c]) cs rfl
        rw [List.getLast?_concat] at hrec
        rw [scan_none hf]
        exact .pass hf hrec
      | some m =>
        obtain ⟨n, gs⟩ := m
        have hpos := first_pos sound_creditCardRule hf
        have htake := List.length_take_of_le (first_sound hf).1
        have hne : (c :: cs).take n ≠ [] := List.ne_nil_of_length_pos (by omega)
        have hrec := ih ((c :: cs).drop n).length (by rw [List.length_drop, ← hk, List.length_cons]; omega)
          (y ++ (c :: cs).take n) ((c :: cs).drop n) rfl
        rw [List.getLast?_append_of_ne_nil _ hne] at hrec
        rw [scan_some sound_creditCardRule hf, CompiledRule.edits]
        have hsplit := List.take_append_drop n (c :: cs)
        split
        · rename_i hrej
          have hfirst : creditCardRe.first y.getLast? ((c :: cs).take n ++ (c :: cs).drop n) =
              some (((c :: cs).take n).length, gs) := by rwa [hsplit, htake]
          have hleave := Follows.leave hfirst hrej hrec
          rwa [hsplit] at hleave
        · have hcut := Follows.cut (creditCardRule.copied gs) (creditCardRule.inserted gs) hrec
          rwa [hsplit] at hcut

/-- Over a part of the text that no match of the rule meets, the search goes on as behind it. -/
theorem skip_matches {rule : CompiledRule} (h : rule.Sound) (lo hi n : Nat) (prevEnd : Option Nat)
    {y u z : Str} (hlo : lo ≤ y.length) (hhi : y.length + u.length = hi)
    (hall : ∀ m ∈ rule.re.findAllFrom (n + 1) prevEnd ⟨y.length, y.getLast?, u ++ z, []⟩,
      m.stop ≤ lo ∨ hi ≤ m.start) :
    rule.re.findAllFrom (n + 1) prevEnd ⟨y.length, y.getLast?, u ++ z, []⟩ =
        rule.re.findAllFrom (n + 1) prevEnd ⟨(y ++ u).length, (y ++ u).getLast?, z, []⟩ ∧
      scan rule y.getLast? (u ++ z) = Edits.keep u ++ scan rule (y ++ u).getLast? z := by
  induction u generalizing y with
  | nil =>
    rw [List.append_nil]
    exact ⟨rfl, rfl⟩
  | cons c u ih =>
    cases hf : rule.re.first y.getLast? (c :: (u ++ z)) with
    | none =>
      have hnext := findAllFrom_next h.productive n prevEnd (o := y.length) (run_of_first_none hf)
      have hsize : (y ++ [c]).length = y.length + 1 := List.length_append
      rw [List.cons_append, hnext] at hall
      have hrec := ih (y := y ++ [c]) (by omega) (by rw [List.length_cons] at hhi; omega)
        (by rw [List.getLast?_concat, hsize]; exact hall)
      rw [List.getLast?_concat, hsize, List.append_assoc, List.singleton_append] at hrec
      rw [List.cons_append, hnext, scan_none hf, hrec.2]
      exact ⟨hrec.1, rfl⟩
    | some m =>
      obtain ⟨k, gs⟩ := m
      have hpos := first_pos h hf
      rw [List.cons_append, findAllFrom_match n prevEnd h.productive (run_of_first_some hpos hf)] at hall
      have hmeets := hall _ List.mem_cons_self
      rw [List.length_cons] at hhi
      dsimp only at hmeets
      omega

/-- No match of the rule meets a candidate that the card rule takes. -/
def Spares (rule : CompiledRule) (text : Str) : Prop :=
  ∀ m ∈ rule.re.findAll text, ∀ c ∈ creditCardRule.re.findAll text, m.stop ≤ c.start ∨ c.stop ≤ m.start

instance (rule : CompiledRule) (text : Str) : Decidable (Spares rule text) :=
  inferInstanceAs (Decidable (∀ m ∈ rule.re.findAll text, ∀ c ∈ creditCardRule.re.findAll text, _))

section Taken
variable {rule : CompiledRule} (h : rule.Sound) {y text : Str} {l : Nat} {gs : List (Nat × Str)}
  (hf : rule.re.first y.getLast? text = some (l, gs))
include h hf

theorem take_ne_nil : text.take l ≠ [] := by
  have hpos := first_pos h hf
  have htake := List.length_take_of_le (first_sound hf).1
  exact List.ne_nil_of_length_pos (by omega)

theorem drop_length_lt : (text.drop l).length < text.length := by
  have hpos := first_pos h hf
  have hle := (first_sound hf).1
  rw [List.length_drop]
  omega

theorem findAllFrom_taken (n : Nat) (prevEnd : Option Nat) :
    rule.re.findAllFrom (n + 1) prevEnd ⟨y.length, y.getLast?, text, []⟩ =
      ⟨y.length, y.length + l, gs⟩ :: rule.re.findAllFrom n (some (y.length + l))
        ⟨(y ++ text.take l).length, (y ++ text.take l).getLast?, text.drop l, []⟩ := by
  rw [findAllFrom_match n prevEnd h.productive (run_of_first_some (first_pos h hf) hf),
    List.getLast?_append_of_ne_nil _ (take_ne_nil h hf), List.length_append,
    List.length_take_of_le (first_sound hf).1]

theorem scan_taken : scan rule y.getLast? text =
    rule.edits (text.take l) gs ++ scan rule (y ++ text.take l).getLast? (text.drop l) := by
  rw [scan_some h hf, List.getLast?_append_of_ne_nil _ (take_ne_nil h hf)]

end Taken

/-- Where the card rule only rejects, the edits of a rule that spares the candidates keep them. -/
theorem follows_other {rule : CompiledRule} (h : rule.Sound) (hcheck : rule.validate = none)
    (y text : Str) (n n' : Nat) (prevEnd prevEnd' : Option Nat)
    (hspent : Edits.cuts (scan creditCardRule y.getLast? text) = 0)
    (hspares : ∀ m ∈ rule.re.findAllFrom (n + 1) prevEnd ⟨y.length, y.getLast?, text, []⟩,
      ∀ c ∈ creditCardRule.re.findAllFrom (n' + 1) prevEnd' ⟨y.length, y.getLast?, text, []⟩,
        m.stop ≤ c.start ∨ c.stop ≤ m.start)
    (hn : text.length ≤ n) (hn' : text.length ≤ n') : Follows y text (scan rule y.getLast? text) := by
  have hcard := sound_creditCardRule
  induction hk : text.length using Nat.strong_induction_on generalizing y text n n' prevEnd prevEnd' with
  | _ k ih =>
    cases text with
    | nil =>
      rw [scan_nil]
      exact .nil y
    | cons c cs =>
      obtain ⟨n, rfl⟩ := Nat.exists_eq_succ_of_ne_zero (n := n) (by rw [List.length_cons] at hn; omega)
      obtain ⟨n', rfl⟩ := Nat.exists_eq_succ_of_ne_zero (n := n') (by rw [List.length_cons] at hn'; omega)
      cases hf : creditCardRule.re.first y.getLast? (c :: cs) with
      | some m =>
        -- the other rule passes over the candidate
        obtain ⟨l, gs⟩ := m
        have hsplit := List.take_append_drop l (c :: cs)
        have htake : ((c :: cs).take l).length = l := List.length_take_of_le (first_sound hf).1
        have hlt := drop_length_lt hcard hf
        rw [findAllFrom_taken hcard hf] at hspares
        have hskip := skip_matches h y.length (y.length + l) (n + 1) prevEnd (u := (c :: cs).take l)
          (z := (c :: cs).drop l) (Nat.le_refl _) (by rw [htake])
        rw [hsplit] at hskip
        obtain ⟨hmatches, hscan⟩ := hskip fun m hm => hspares m hm _ List.mem_cons_self
        rw [scan_taken hcard hf, CompiledRule.edits] at hspent
        cases hrej : creditCardRule.rejects ((c :: cs).take l) with
        | false =>
          rw [hrej] at hspent
          simp at hspent
        | true =>
          rw [hrej, if_pos rfl, Edits.cuts_append, Edits.cuts_keep, Nat.zero_add] at hspent
          rw [hmatches] at hspares
          have hrec := ih _ (hk ▸ hlt) (y ++ (c :: cs).take l) ((c :: cs).drop l) (n + 1) n' prevEnd _ hspent
            (fun m hm x hx => hspares m hm x (List.mem_cons_of_mem _ hx)) (by omega) (by omega) rfl
          have hfirst : creditCardRe.first y.getLast? ((c :: cs).take l ++ (c :: cs).drop l) =
              some (((c :: cs).take l).length, gs) := by rwa [hsplit, htake]
          have hleave := Follows.leave hfirst hrej hrec
          rwa [hsplit, ← hscan] at hleave
      | none =>
        cases hg : rule.re.first y.getLast? (c :: cs) with
        | none =>
          have hsize : (y ++ [c]).length = y.length + 1 := List.length_append
          rw [findAllFrom_next h.productive (n + 1) prevEnd (run_of_first_none hg),
            findAllFrom_next hcard.productive (n' + 1) prevEnd' (run_of_first_none hf), ← hsize,
            ← List.getLast?_concat (l := y)] at hspares
          rw [scan_none hf, Edits.cuts_cons_kept, ← List.getLast?_concat (l := y)] at hspent
          have hrec := ih cs.length (by simp [← hk]) (y ++ [c]) cs (n + 1) (n' + 1) prevEnd prevEnd'
            hspent hspares (Nat.le_of_succ_le hn) (Nat.le_of_succ_le hn') rfl
          rw [List.getLast?_concat] at hrec
          rw [scan_none hg]
          exact .pass hf hrec
        | some m =>
          -- the card rule passes over what is cut
          obtain ⟨l, gs⟩ := m
          have hsplit := List.take_append_drop l (c :: cs)
          have htake : ((c :: cs).take l).length = l := List.length_take_of_le (first_sound hg).1
          have hlt := drop_length_lt h hg
          rw [findAllFrom_taken h hg] at hspares
          have hskip := skip_matches hcard y.length (y.length + l) (n' + 1) prevEnd' (u := (c :: cs).take l)
            (z := (c :: cs).drop l) (Nat.le_refl _) (by rw [htake])
          rw [hsplit] at hskip
          obtain ⟨hmatches, hscan⟩ := hskip fun x hx => (hspares _ List.mem_cons_self x hx).symm
          rw [hscan, Edits.cuts_append, Edits.cuts_keep, Nat.zero_add] at hspent
          rw [hmatches] at hspares
          have hrec := ih _ (hk ▸ hlt) (y ++ (c :: cs).take l) ((c :: cs).drop l) n (n' + 1) _ prevEnd' hspent
            (fun m hm => hspares m (List.mem_cons_of_mem _ hm)) (by omega) (by omega) rfl
          have hcut := Follows.cut (rule.copied gs) (rule.inserted gs) hrec
          have haccepts : rule.rejects ((c :: cs).take l) = false := by
            rw [CompiledRule.rejects, hcheck]
            rfl
          rw [scan_taken h hg, CompiledRule.edits, haccepts]
          rwa [hsplit] at hcut

/-- The rules, one after the other, spare the candidates. -/
def SparesCards : List CompiledRule → Str → Prop
  | [], _ => True
  | rule :: rules, text => Spares rule text ∧ SparesCards rules (applyRule text rule).1

instance decidableSparesCards : (rules : List CompiledRule) → (text : Str) →
    Decidable (SparesCards rules text)
  | [], _ => .isTrue trivial
  | rule :: rules, text =>
    have := decidableSparesCards rules (applyRule text rule).1
    inferInstanceAs (Decidable (_ ∧ _))

theorem no_check_behind : ∀ rule ∈ rulesBehind, rule.validate = none := by
  simp only [rulesBehind, List.forall_mem_cons, List.not_mem_nil, false_imp_iff, implies_true, and_true]
  exact ⟨rfl, rfl, rfl, rfl⟩

theorem cuts_card (text : Str) :
    Edits.cuts (scan creditCardRule none (applyRule text creditCardRule).1) = 0 := by
  rw [applyRule_scan sound_creditCardRule]
  exact cuts_of_follows (follows_own [] text) (leavesDull_scan List.mem_cons_self none text)
    (trimmed_scan sound_creditCardRule (trims_of_bounded rfl rfl rfl) [] text) [] Iff.rfl

/-- Behind rules that spare the candidates the card rule still masks nothing. -/
theorem cuts_rewritten {rules : List CompiledRule}
    (hrules : ∀ rule ∈ rules, rule ∈ rulesBehind ∧ rule.Trims) {text : Str} (h : SparesCards rules text)
    (hspent : Edits.cuts (scan creditCardRule none text) = 0) :
    Edits.cuts (scan creditCardRule none (rewritten rules text)) = 0 := by
  induction rules generalizing text with
  | nil => exact hspent
  | cons rule rules ih =>
    obtain ⟨⟨hmem, htrims⟩, hrest⟩ := List.forall_mem_cons.mp hrules
    obtain ⟨hspares, hothers⟩ := h
    have hsound := sound_of_mem_builtinRules rule (mem_builtinRules_of_behind hmem)
    have hfollows := follows_other hsound (no_check_behind rule hmem) [] text text.length text.length none none
      hspent hspares (Nat.le_refl _) (Nat.le_refl _)
    have hnext := cuts_of_follows hfollows (leavesDull_scan (List.mem_cons_of_mem _ hmem) none text)
      (trimmed_scan hsound htrims [] text) [] Iff.rfl
    rw [rewritten_cons]
    refine ih hrest hothers ?_
    rw [applyRule_scan hsound]
    exact hnext

end Janus.Redaction
