import Janus.BuiltinRules

/-!
# The rules at a quote

A quote divides the text for every rule but the assignment rule, which may consume one
before and one behind the value. Where no assignment reaches across it, a quote divides
the text for that rule too, except that an assignment that ends at the quote takes it
along (`scan_quote`).
-/

namespace Janus.Redaction

set_option autoImplicit false

open Regex

/-- The assignment pattern up to the value and the quote before it. -/
def assignHeadRe : Regex :=
  .seq .wordBoundary (.seq (.group 1 keywordRe) (.seq (.rep 0 none space)
    (.seq (.set false [(':', ':'), ('=', '=')]) (.rep 0 none space))))

def secretCharRe : Regex :=
  .set true [('A', 'Z'), ('a', 'z'), ('0', '9'), ('_', '_'), ('-', '-'), ('/', '/'), ('+', '+'),
    ('=', '=')]

def assignValueRe : Regex := .group 2 (.rep 32 none secretCharRe)

def quoteRe : Regex := Regex.optional (chars false "\"")

/-- The assignment pattern without the quote behind the value. -/
def assignRe : Regex := .seq (.seq assignHeadRe quoteRe) assignValueRe

theorem run_secretAssignRe (p : Pos) :
    secretAssignRe.run p = (assignRe.run p).flatMap quoteRe.run := by
  have hend : ∀ q : Pos, (Regex.seq quoteRe .empty).run q = quoteRe.run q := by
    intro q
    exact List.flatMap_singleton' _
  have hassoc : secretAssignRe.run p = (assignRe.run p).flatMap (Regex.seq quoteRe .empty).run := by
    simp only [secretAssignRe_eq, secretTail, seqAll, assignRe, assignHeadRe, run, List.flatMap_assoc]
    rfl
  rw [hassoc]
  exact List.flatMap_congr fun q _ => hend q

theorem run_optional (r : Regex) (p : Pos) : (Regex.optional r).run p =
    ((r.run p).flatMap fun q => if q.offset = p.offset then [] else [q]) ++ [p] := by
  simp [Regex.optional, run, exactly, upTo]

theorem run_quoteRe_quote {q : Pos} {z : Str} (h : q.rest = '"' :: z) :
    quoteRe.run q = [{ q with offset := q.offset + 1, prev := some '"', rest := z }, q] := by
  have hchar : (chars false "\"").run q = [{ q with offset := q.offset + 1, prev := some '"', rest := z }] := by
    simp [chars, run, h, accepts, inRanges]
  rw [quoteRe, run_optional, hchar]
  simp

theorem run_quoteRe_other {q : Pos} (h : q.rest.head? ≠ some '"') : quoteRe.run q = [q] := by
  have hset : run (.set false [('"', '"')]) q = [] := by
    apply run_set_of_stops
    intro c hc
    have hne : c ≠ '"' := fun he => h (he ▸ hc)
    exact Bool.eq_false_iff.mpr fun ha => hne (accepts_char.mp ha)
  have hchar : (chars false "\"").run q = [] := by
    show (run (.set false [('"', '"')]) q).flatMap _ = []
    rw [hset, List.flatMap_nil]
  rw [quoteRe, run_optional, hchar]
  rfl

/-- No assignment reaches across a quote between two texts. -/
def Apart (f z : Str) : Prop :=
  (∀ c, z.head? = some c → secretCharRe.consumes c = false) ∨ ∀ y, y <:+ f → ¬ Lang assignHeadRe y

theorem forall₂_mem {α β : Type} {R : α → β → Prop} {xs : List α} {ys : List β}
    (h : List.Forall₂ R xs ys) : List.Forall₂ (fun x y => x ∈ xs ∧ R x y) xs ys := by
  induction h with
  | nil => exact .nil
  | cons h _ ih =>
    refine .cons ⟨List.mem_cons_self, h⟩ (ih.imp ?_)
    rintro x y ⟨hx, hr⟩
    exact ⟨List.mem_cons_of_mem _ hx, hr⟩

theorem run_assignValueRe_of_stops {q : Pos} (h : Stops secretCharRe q.rest) :
    assignValueRe.run q = [] := by
  have hvalue : (Regex.rep 32 none secretCharRe).run q = [] := by
    show ((run secretCharRe q).flatMap _).flatMap _ = []
    rw [secretCharRe, run_set_of_stops h]
    rfl
  show ((Regex.rep 32 none secretCharRe).run q).map _ = []
  rw [hvalue]
  rfl

theorem stops_quote {r : Regex} (h : r.consumes '"' = false) (z : Str) : Stops r ('"' :: z) := by
  intro c hc
  cases hc
  exact h

/-- Up to the value, an assignment in front of a quote is one at the end of the text. -/
theorem values_alike {f z : Str} (hq : '"' ∉ f) (hsafe : Apart f z) (prev : Option Char) :
    List.Forall₂ (Alike f.length f.length ('"' :: z) [])
      (assignRe.run ⟨0, prev, f ++ '"' :: z, []⟩) (assignRe.run ⟨0, prev, f, []⟩) := by
  have hstart : Alike f.length f.length ('"' :: z) [] ⟨0, prev, f ++ '"' :: z, []⟩ ⟨0, prev, f, []⟩ :=
    ⟨⟨f, rfl, (List.append_nil f).symm, Nat.zero_add _, Nat.zero_add _⟩, rfl, rfl⟩
  have hword : ('"' :: z).head?.any isWord = ([] : Str).head?.any isWord :=
    show isWord '"' = false from by decide
  have hheads := run_alike assignHeadRe (stops_quote (by decide) z) (stops_nil _) hword _ _ hstart
  simp only [assignRe, run, List.flatMap_assoc]
  refine List.rel_flatMap (forall₂_mem hheads) ?_
  rintro q q' ⟨hmem, hqq⟩
  obtain ⟨u, hu, hread⟩ := run_sound assignHeadRe _ q hmem
  obtain ⟨g, hg, hg', ho, ho'⟩ := hqq.rest
  rw [List.append_nil] at hg'
  have hf : f = u ++ g := by
    have hrest : f ++ '"' :: z = u ++ q.rest := hread.rest
    rw [hg, ← List.append_assoc] at hrest
    exact List.append_cancel_right hrest
  cases g with
  | nil =>
    rw [List.append_nil] at hf
    have hend : assignValueRe.run q' = [] := run_assignValueRe_of_stops (hg' ▸ stops_nil _)
    have hquote : assignValueRe.run q = [] :=
      run_assignValueRe_of_stops (hg ▸ stops_quote (by decide) z)
    have hbehind : assignValueRe.run { q with offset := q.offset + 1, prev := some '"', rest := z } = [] := by
      rcases hsafe with hz | hhead
      · exact run_assignValueRe_of_stops hz
      · exact absurd (hf ▸ hu) (hhead f (List.suffix_refl f))
    dsimp only
    rw [run_quoteRe_quote hg, run_quoteRe_other (by rw [hg']; simp)]
    simp [hend, hquote, hbehind]
  | cons c g =>
    have hc : c ≠ '"' := by
      rintro rfl
      exact hq (hf ▸ List.mem_append_right u List.mem_cons_self)
    have hhead : q.rest.head? ≠ some '"' := by
      rw [hg]
      simpa using hc
    have hhead' : q'.rest.head? ≠ some '"' := by
      rw [hg']
      simpa using hc
    dsimp only
    rw [run_quoteRe_other hhead, run_quoteRe_other hhead']
    simp only [List.flatMap_cons, List.flatMap_nil, List.append_nil]
    exact run_alike assignValueRe (stops_quote (by decide) z) (stops_nil _) hword q q' hqq

theorem quoteRe_ne_nil (v : Pos) : quoteRe.run v ≠ [] := by
  rw [quoteRe, run_optional]
  exact List.append_ne_nil_of_right_ne_nil _ (List.cons_ne_nil v [])

theorem head?_flatMap_quoteRe (vs : List Pos) :
    (vs.flatMap quoteRe.run).head? = vs.head?.bind fun v => (quoteRe.run v).head? := by
  cases vs with
  | nil => rfl
  | cons v vs =>
    obtain ⟨w, ws, hw⟩ := List.exists_cons_of_ne_nil (quoteRe_ne_nil v)
    simp [hw]

/-- In front of a quote an assignment is found where it is found at the end of the text; one
that ends there takes the quote along. -/
theorem first_quote {f z : Str} (hq : '"' ∉ f) (hsafe : Apart f z) (prev : Option Char) :
    secretAssignRe.first prev (f ++ '"' :: z) =
      (secretAssignRe.first prev f).map fun m => if m.1 = f.length then (m.1 + 1, m.2) else m := by
  have hvalues := forall₂_head? (forall₂_mem (values_alike hq hsafe prev))
  unfold first
  rw [run_secretAssignRe, run_secretAssignRe, head?_flatMap_quoteRe, head?_flatMap_quoteRe]
  generalize (assignRe.run ⟨0, prev, f ++ '"' :: z, []⟩).head? = x at hvalues ⊢
  generalize (assignRe.run ⟨0, prev, f, []⟩).head? = y at hvalues ⊢
  cases hvalues with
  | none => rfl
  | @some v v' hv =>
    obtain ⟨hmem, hv⟩ := hv
    obtain ⟨g, hg, hg', ho, ho'⟩ := hv.rest
    rw [List.append_nil] at hg'
    simp only [Option.bind_some]
    cases g with
    | nil =>
      have hoff : v'.offset = f.length := by simpa using ho'
      have hoff' : v.offset = v'.offset := by simpa [hoff] using ho
      rw [run_quoteRe_quote hg, run_quoteRe_other (by rw [hg']; simp)]
      simp [hoff, hoff', hv.groups]
    | cons c g =>
      obtain ⟨u, _, hread⟩ := run_sound assignRe _ v hmem
      have hf : f = u ++ c :: g := by
        have hrest : f ++ '"' :: z = u ++ v.rest := hread.rest
        rw [hg, ← List.append_assoc] at hrest
        exact List.append_cancel_right hrest
      have hc : c ≠ '"' := by
        rintro rfl
        exact hq (hf ▸ List.mem_append_right u List.mem_cons_self)
      have hoff : v.offset = v'.offset := by omega
      have hlt : v'.offset ≠ f.length := by
        rw [List.length_cons] at ho'
        omega
      rw [run_quoteRe_other (by rw [hg]; simpa using hc), run_quoteRe_other (by rw [hg']; simpa using hc)]
      simp [hoff, hlt, hv.groups]

/-- The last match ends where the text ends. -/
def endsInCut (es : List Edit) : Bool := es.getLast?.any Edit.isCut

theorem endsInCut_append (es : List Edit) {fs : List Edit} (h : fs ≠ []) :
    endsInCut (es ++ fs) = endsInCut fs := by
  unfold endsInCut
  rw [List.getLast?_append_of_ne_nil es h]

theorem endsInCut_kept (c : Char) (es : List Edit) : endsInCut (.kept c :: es) = endsInCut es := by
  cases es with
  | nil => rfl
  | cons e es => exact endsInCut_append [.kept c] (List.cons_ne_nil e es)

theorem scan_ne_nil {rule : CompiledRule} (h : rule.Sound) (prev : Option Char) {text : Str}
    (hne : text ≠ []) : scan rule prev text ≠ [] := by
  intro he
  have hsource := source_scan h prev text
  rw [he] at hsource
  exact hne hsource.symm

theorem Apart.suffix {f g z : Str} (h : Apart f z) (hs : g <:+ f) : Apart g z :=
  h.imp_right fun hheads y hy => hheads y (hy.trans hs)

theorem edits_secretAssignRule (u : Str) (gs : List (Nat × Str)) : secretAssignRule.edits u gs =
    [.cut u (secretAssignRule.copied gs) (secretAssignRule.inserted gs)] := rfl

theorem copied_le {prev : Option Char} {text : Str} {n : Nat} {gs : List (Nat × Str)}
    (h : secretAssignRe.first prev text = some (n, gs)) : secretAssignRule.copied gs ≤ n := by
  have hpre := sound_secretAssignRule.anchored prev text n gs h 1 _ rfl
  exact hpre.length_le.trans (List.length_take_le n text)

/-- The assignment rule at a quote that it does not reach across: the two sides are scanned on
their own, and a match that ends at the quote takes it along. -/
theorem target_quote {f z : Str} (hq : '"' ∉ f) (hsafe : Apart f z) (prev : Option Char) :
    Edits.target (scan secretAssignRule prev (f ++ '"' :: z)) =
      Edits.target (scan secretAssignRule prev f) ++
        (if endsInCut (scan secretAssignRule prev f) then [] else ['"']) ++
        Edits.target (scan secretAssignRule none z) := by
  have hsound := sound_secretAssignRule
  have hnone : ∀ text, scan secretAssignRule (some '"') text = scan secretAssignRule none text :=
    fun text => scan_prev hsound (by decide) text
  induction hk : f.length using Nat.strong_induction_on generalizing prev f with
  | _ k ih =>
    have hfirst := first_quote hq hsafe prev
    cases f with
    | nil =>
      have hnil : secretAssignRe.first prev [] = none := first_nil hsound prev
      rw [hnil] at hfirst
      rw [List.nil_append, scan_none hfirst, hnone, scan_nil]
      rfl
    | cons a f =>
      have hqf : '"' ∉ f := fun hmem => hq (List.mem_cons_of_mem a hmem)
      cases hf : secretAssignRe.first prev (a :: f) with
      | none =>
        rw [hf] at hfirst
        have hrec := ih f.length (by simp [← hk]) hqf (hsafe.suffix (List.suffix_cons a f)) (some a) rfl
        have hfirst' : secretAssignRe.first prev (a :: (f ++ '"' :: z)) = none := hfirst
        rw [List.cons_append, scan_none hfirst', scan_none hf, endsInCut_kept, Edits.target_cons,
          Edits.target_cons, hrec]
        simp only [List.append_assoc]
      | some m =>
        obtain ⟨n, gs⟩ := m
        rw [hf, Option.map_some] at hfirst
        have hn := (first_sound hf).1
        have hpos := first_pos hsound hf
        have hcopied := copied_le hf
        rw [scan_some hsound hf, edits_secretAssignRule]
        by_cases hend : n = (a :: f).length
        · rw [if_pos hend] at hfirst
          have htake : (a :: f ++ '"' :: z).take (n + 1) = a :: f ++ ['"'] := by
            rw [hend, List.take_length_add_append]
            rfl
          have hdrop : (a :: f ++ '"' :: z).drop (n + 1) = z := by
            rw [hend, List.drop_length_add_append]
            rfl
          rw [scan_some hsound hfirst, edits_secretAssignRule, htake, hdrop, hend, List.take_length,
            List.drop_length, scan_nil, List.getLast?_concat, hnone]
          rw [hend] at hcopied
          have hsame : (a :: f ++ ['"']).take (secretAssignRule.copied gs) =
              (a :: f).take (secretAssignRule.copied gs) := List.take_append_of_le_length hcopied
          simpa [Edit.target, endsInCut, Edit.isCut] using hsame
        · rw [if_neg hend] at hfirst
          have hlt : n < (a :: f).length := by omega
          have hne : (a :: f).drop n ≠ [] := by
            intro he
            have hlen := List.drop_eq_nil_iff.mp he
            omega
          have hsuffix : (a :: f).drop n <:+ a :: f := List.drop_suffix n _
          have hrec := ih ((a :: f).drop n).length (by rw [List.length_drop, hk]; omega)
            (fun hmem => hq (hsuffix.subset hmem)) (hsafe.suffix hsuffix) ((a :: f).take n).getLast? rfl
          rw [scan_some hsound hfirst, edits_secretAssignRule, List.take_append_of_le_length hn,
            List.drop_append_of_le_length hn, endsInCut_append _ (scan_ne_nil hsound _ hne)]
          simp only [Edits.target_append, hrec, List.append_assoc]

def earlyRules : List CompiledRule := [emailRule, jwtRule, awsKeyRule, creditCardRule, ibanRule]

def lateRules : List CompiledRule := [bearerRule, openAIKeyRule]

theorem rewritten_builtinRules (text : Str) : rewritten builtinRules text =
    rewritten lateRules (applyRule (rewritten earlyRules text) secretAssignRule).1 := by
  have hsplit : builtinRules = earlyRules ++ secretAssignRule :: lateRules := rfl
  rw [hsplit, rewritten_append, rewritten_cons]

theorem mem_builtinRules_of_early {rule : CompiledRule} (h : rule ∈ earlyRules) :
    rule ∈ builtinRules :=
  List.mem_append_left (secretAssignRule :: lateRules) h

theorem mem_builtinRules_of_late {rule : CompiledRule} (h : rule ∈ lateRules) :
    rule ∈ builtinRules :=
  List.mem_append_right (earlyRules ++ [secretAssignRule]) h

theorem hard_quote_early : ∀ rule ∈ earlyRules, rule.hard '"' = true := by decide

theorem hard_quote_late : ∀ rule ∈ lateRules, rule.hard '"' = true := by decide

theorem early_quote (f z : Str) : rewritten earlyRules (f ++ '"' :: z) =
    rewritten earlyRules f ++ '"' :: rewritten earlyRules z :=
  rewritten_divide (fun rule h => ⟨sound_of_mem_builtinRules rule (mem_builtinRules_of_early h),
    hard_quote_early rule h⟩) f z

theorem late_quote (f z : Str) : rewritten lateRules (f ++ '"' :: z) =
    rewritten lateRules f ++ '"' :: rewritten lateRules z :=
  rewritten_divide (fun rule h => ⟨sound_of_mem_builtinRules rule (mem_builtinRules_of_late h),
    hard_quote_late rule h⟩) f z

theorem late_bracket (f z : Str) : rewritten lateRules (f ++ ']' :: z) =
    rewritten lateRules f ++ ']' :: rewritten lateRules z :=
  rewritten_divide (fun rule h => ⟨sound_of_mem_builtinRules rule (mem_builtinRules_of_late h),
    (hard_bracket rule (mem_builtinRules_of_late h)).2⟩) f z

/-- The assignment rule takes along the quote behind the text. -/
def takesQuote (f : Str) : Bool :=
  endsInCut (scan secretAssignRule none (rewritten earlyRules f))

theorem ends_of_endsInCut {prev : Option Char} {text : Str}
    (h : endsInCut (scan secretAssignRule prev text) = true) :
    ∃ x, Edits.target (scan secretAssignRule prev text) = x ++ [']'] := by
  obtain ⟨e, he, hcut⟩ := (Option.any_eq_true _ _).mp h
  obtain ⟨es, hes⟩ := List.getLast?_eq_some_iff.mp he
  cases e with
  | kept c => cases hcut
  | cut u copied ins =>
    have hmem : Edit.cut u copied ins ∈ scan secretAssignRule prev text :=
      hes ▸ List.mem_append_right es List.mem_cons_self
    obtain ⟨_, _, gs, _, _, rfl, _⟩ := cut_of_mem_scan sound_secretAssignRule hmem
    have hends := inserted_ends secretAssignRule (by simp [builtinRules_eq])
    obtain ⟨y, hy⟩ := List.getLast?_eq_some_iff.mp hends
    have hins : secretAssignRule.inserted gs = y ++ [']'] := hy
    refine ⟨Edits.target es ++ (u.take copied ++ y), ?_⟩
    rw [hes, hins]
    simp [Edit.target]

/-- The text before a quote and the text behind it are redacted on their own. -/
theorem rewritten_quote {f z : Str} (hq : '"' ∉ rewritten earlyRules f)
    (hsafe : Apart (rewritten earlyRules f) (rewritten earlyRules z)) :
    rewritten builtinRules (f ++ '"' :: z) =
        rewritten builtinRules f ++ (if takesQuote f then [] else ['"']) ++ rewritten builtinRules z ∧
      (takesQuote f = true → (rewritten builtinRules f).getLast? = some ']') := by
  simp only [rewritten_builtinRules, early_quote, applyRule_scan sound_secretAssignRule,
    target_quote hq hsafe]
  cases hcut : takesQuote f with
  | false =>
    rw [takesQuote] at hcut
    simp [hcut, late_quote]
  | true =>
    rw [takesQuote] at hcut
    obtain ⟨x, hx⟩ := ends_of_endsInCut hcut
    have hnil : rewritten lateRules [] = [] := by decide
    simp [hcut, hx, late_bracket, hnil]

end Janus.Redaction
