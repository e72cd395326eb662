import Janus.Cleanness
import Janus.Lib.EditTrace

/-!
# The order of the rules

The rules rewrite one text in turn. Where no earlier rule cuts, a rule finds the matches that it
has in the text itself, and what it masks there is masked in the end (`masked_of_untouched`).
Where an earlier rule cuts, this need not be so (`masked_alone_only`).
-/

namespace Janus.Redaction

set_option autoImplicit false

open Regex Marked

/-- The text after some rules, of which each character knows where it comes from. -/
def tracked (rules : List CompiledRule) (m : Marked) : Marked :=
  rules.foldl (fun m rule => Edits.trace (scan rule none (plain m)) m) m

theorem tracked_append (rules rules' : List CompiledRule) (m : Marked) :
    tracked (rules ++ rules') m = tracked rules' (tracked rules m) :=
  List.foldl_append

theorem tracked_cons (rule : CompiledRule) (rules : List CompiledRule) (m : Marked) :
    tracked (rule :: rules) m = tracked rules (Edits.trace (scan rule none (plain m)) m) := rfl

theorem plain_tracked {rules : List CompiledRule} (h : ∀ rule ∈ rules, rule.Sound) (m : Marked) :
    plain (tracked rules m) = rewritten rules (plain m) := by
  induction rules generalizing m with
  | nil => rfl
  | cons rule rules ih =>
    obtain ⟨hsound, hrest⟩ := List.forall_mem_cons.mp h
    rw [tracked_cons, ih hrest, rewritten_cons, applyRule_scan hsound,
      Edits.plain_trace (source_scan hsound none (plain m)).symm]

theorem marks_tracked (rules : List CompiledRule) (m : Marked) :
    (marks (tracked rules m)).Sublist (marks m) := by
  induction rules generalizing m with
  | nil => exact List.Sublist.refl _
  | cons rule rules ih => exact (ih _).trans (Edits.marks_trace _ m)

/-- The character of the text at `i` is still there when the built-in rules have been applied. -/
def Visible (text : Str) (i : Nat) : Prop := i ∈ marks (tracked builtinRules (labelFrom 0 text))

instance (text : Str) (i : Nat) : Decidable (Visible text i) :=
  inferInstanceAs (Decidable (i ∈ marks _))

theorem redactBytes_tracked (text : Str) :
    (builtin.redactBytes text).1 = plain (tracked builtinRules (labelFrom 0 text)) := by
  rw [redactBytes_fst, plain_tracked sound_of_mem_builtinRules, plain_labelFrom]

/-- No rule cuts, when it comes to it, a character from `lo` up to `hi`. -/
def Untouched : List CompiledRule → Nat → Nat → Marked → Prop
  | [], _, _, _ => True
  | rule :: rules, lo, hi, m =>
    (∀ i ∈ marks (Edits.covered (scan rule none (plain m)) m), i < lo ∨ hi ≤ i) ∧
      Untouched rules lo hi (Edits.trace (scan rule none (plain m)) m)

instance decidableUntouched : (rules : List CompiledRule) → (lo hi : Nat) → (m : Marked) →
    Decidable (Untouched rules lo hi m)
  | [], _, _, _ => .isTrue trivial
  | rule :: rules, lo, hi, m =>
    have := decidableUntouched rules lo hi (Edits.trace (scan rule none (plain m)) m)
    inferInstanceAs (Decidable ((∀ i ∈ marks (Edits.covered (scan rule none (plain m)) m),
      i < lo ∨ hi ≤ i) ∧ Untouched rules lo hi (Edits.trace (scan rule none (plain m)) m)))

/-- A match in the text that passes the check of the rule. -/
def CompiledRule.Finds (rule : CompiledRule) (text : Str) (m : Match) : Prop :=
  m ∈ rule.re.findAll text ∧ rule.rejects (slice text m.start m.stop) = false

instance (rule : CompiledRule) (text : Str) (m : Match) : Decidable (rule.Finds text m) :=
  inferInstanceAs (Decidable (_ ∧ _))

/-- What the replacement of a match does not write back: all of it, or what stands behind the group
that the template begins with, the group of the value included. -/
def CompiledRule.Masks (rule : CompiledRule) (m : Match) (i : Nat) : Prop :=
  m.start + rule.copied m.groups ≤ i ∧ i < m.stop

instance (rule : CompiledRule) (m : Match) (i : Nat) : Decidable (rule.Masks m i) :=
  inferInstanceAs (Decidable (_ ∧ _))

theorem exists_cut {rule : CompiledRule} (h : rule.Sound) {m : Match} (pre text : Str)
    (prev : Option Char) (n : Nat) (prevEnd : Option Nat) (hn : text.length ≤ n)
    (hm : m ∈ rule.re.findAllFrom (n + 1) prevEnd ⟨pre.length, prev, text, []⟩)
    (hrej : rule.rejects (slice (pre ++ text) m.start m.stop) = false) :
    ∃ xs u ys, scan rule prev text =
        xs ++ .cut u (rule.copied m.groups) (rule.inserted m.groups) :: ys ∧ u ≠ [] ∧
      m.start = pre.length + (Edits.source xs).length ∧ m.stop = m.start + u.length := by
  induction hlen : text.length using Nat.strong_induction_on generalizing pre text prev n prevEnd with
  | _ k ih =>
    cases hf : rule.re.first prev text with
    | none =>
      cases text with
      | nil =>
        have hrun := run_nil_of_productive h.productive (p := ⟨pre.length, prev, [], []⟩) rfl
        simp only [findAllFrom] at hm
        rw [findFrom_end _ hrun (Or.inl rfl)] at hm
        cases hm
      | cons c cs =>
        rw [findAllFrom_next h.productive n prevEnd (run_of_first_none hf)] at hm
        have hsize : (pre ++ [c]).length = pre.length + 1 := by simp
        have hpre : pre ++ c :: cs = (pre ++ [c]) ++ cs := by simp
        rw [← hsize] at hm
        rw [hpre] at hrej
        simp only [List.length_cons] at hn hlen
        obtain ⟨xs, u, ys, hscan, hu, hstart, hstop⟩ :=
          ih cs.length (by omega) (pre ++ [c]) cs (some c) n prevEnd (by omega) hm hrej rfl
        refine ⟨.kept c :: xs, u, ys, ?_, hu, ?_, hstop⟩
        · rw [scan_none hf, hscan, List.cons_append]
        · rw [hstart, hsize, Edits.source_cons]
          simp only [Edit.source, List.length_append, List.length_cons, List.length_nil]
          omega
    | some first =>
      obtain ⟨len, gs⟩ := first
      have hpos := first_pos h hf
      have hle := (first_sound hf).1
      have htake : (text.take len).length = len := List.length_take_of_le hle
      have hpre : pre ++ text = (pre ++ text.take len) ++ text.drop len := by
        rw [List.append_assoc, List.take_append_drop]
      have hsize : (pre ++ text.take len).length = pre.length + len := by
        rw [List.length_append, htake]
      have hdrop : (text.drop len).length = text.length - len := List.length_drop
      rw [findAllFrom_match n prevEnd h.productive (run_of_first_some hpos hf)] at hm
      rcases List.mem_cons.mp hm with rfl | hm
      · rw [slice_take] at hrej
        refine ⟨[], text.take len, scan rule (text.take len).getLast? (text.drop len), ?_, ?_, rfl, ?_⟩
        · rw [scan_some h hf, CompiledRule.edits, hrej]
          rfl
        · exact List.ne_nil_of_length_pos (by omega)
        · rw [htake]
      · obtain ⟨n, rfl⟩ := Nat.exists_eq_succ_of_ne_zero (n := n) (by omega)
        rw [← hsize] at hm
        rw [hpre] at hrej
        obtain ⟨xs, u, ys, hscan, hu, hstart, hstop⟩ := ih _ (by omega) (pre ++ text.take len)
          (text.drop len) _ n _ (by omega) hm hrej rfl
        refine ⟨rule.edits (text.take len) gs ++ xs, u, ys, ?_, hu, ?_, hstop⟩
        · rw [scan_some h hf, hscan, List.append_assoc]
        · rw [hstart, hsize, Edits.source_append, source_edits, List.length_append, htake]
          omega

theorem cut_of_finds {rule : CompiledRule} (h : rule.Sound) {text : Str} {m : Match}
    (hm : rule.Finds text m) : ∃ xs u ys, scan rule none text =
        xs ++ .cut u (rule.copied m.groups) (rule.inserted m.groups) :: ys ∧ u ≠ [] ∧
      m.start = (Edits.source xs).length ∧ m.stop = m.start + u.length := by
  have hcut := exists_cut h [] text none text.length none (Nat.le_refl _) hm.1 hm.2
  simpa using hcut

theorem ne_nil_of_cut {rule : CompiledRule} (h : rule.Sound) {prev : Option Char} {text u ins : Str}
    {copied : Nat} (hcut : Edit.cut u copied ins ∈ scan rule prev text) : u ≠ [] := by
  obtain ⟨_, _, _, hf, _⟩ := cut_of_mem_scan h hcut
  exact List.ne_nil_of_length_pos (first_pos h hf)

/-- Before and behind a part stand characters that the rule cannot consume. -/
structure Bounded (rule : CompiledRule) (x y : Str) : Prop where
  left : ∀ c, x.getLast? = some c → rule.hard c = true
  right : ∀ c, y.head? = some c → rule.hard c = true

theorem scan_bounded {rule : CompiledRule} (h : rule.Sound) {x y : Str} (hb : Bounded rule x y)
    (f : Str) : ∃ ds fs, scan rule none (x ++ (f ++ y)) = ds ++ (scan rule none f ++ fs) ∧
      Edits.source ds = x ∧ Edits.source fs = y := by
  have hright : ∃ fs, scan rule none (f ++ y) = scan rule none f ++ fs ∧ Edits.source fs = y := by
    cases y with
    | nil => exact ⟨[], by simp, rfl⟩
    | cons c y =>
      refine ⟨.kept c :: scan rule none y, scan_divide h (hb.right c rfl) none f y, ?_⟩
      rw [Edits.source_cons, source_scan h]
      rfl
  obtain ⟨fs, hfs, hsource⟩ := hright
  cases x using List.reverseRecOn with
  | nil => exact ⟨[], fs, hfs, rfl, hsource⟩
  | append_singleton x c =>
    refine ⟨scan rule none x ++ [.kept c], fs, ?_, ?_, hsource⟩
    · rw [List.append_assoc, List.singleton_append,
        scan_divide h (hb.left c List.getLast?_concat) none x (f ++ y), hfs, List.append_assoc,
        List.singleton_append]
    · rw [Edits.source_append, source_scan h]
      rfl

theorem copied_pos_of_group {i : Nat} {r s : Regex} (hs : s.binds i = false) (hmin : 0 < r.minLen)
    {prev : Option Char} {text : Str} {n : Nat} {gs : List (Nat × Str)}
    (hf : (Regex.seq (.group i r) s).first prev text = some (n, gs)) : 0 < (groupText gs i).length := by
  obtain ⟨u, v, hu, _, _, hgroup⟩ := first_group hs hf
  rw [hgroup]
  exact Nat.lt_of_lt_of_le hmin (minLen_of_lang r hu)

/-- A replacement begins like the match or with a bracket. -/
theorem begins_builtin : ∀ rule ∈ builtinRules, ∀ prev text n gs,
    rule.re.first prev text = some (n, gs) →
      0 < rule.copied gs ∨ (rule.inserted []).head? = some '[' :=
  forall_builtinRules.mpr
    ⟨fun _ _ _ _ _ => Or.inr rfl, fun _ _ _ _ _ => Or.inr rfl, fun _ _ _ _ _ => Or.inr rfl,
      fun _ _ _ _ _ => Or.inr rfl, fun _ _ _ _ _ => Or.inr rfl,
      fun _ _ _ _ hf => Or.inl (copied_pos_of_group (by decide) (by decide) (first_boundary hf)),
      fun _ _ _ _ hf => Or.inl (copied_pos_of_group (by decide) (by decide) hf),
      fun _ _ _ _ _ => Or.inr rfl⟩

theorem head_of_cut {other : CompiledRule} (hother : other ∈ builtinRules) {text u ins : Str}
    {copied : Nat} (hcut : Edit.cut u copied ins ∈ scan other none text) (z : Str) {c : Char}
    (hc : (u.take copied ++ ins ++ z).head? = some c) : c = '[' ∨ u.head? = some c := by
  obtain ⟨prev, rest, gs, hf, rfl, rfl, _⟩ :=
    cut_of_mem_scan (sound_of_mem_builtinRules other hother) hcut
  have hlt := copied_lt other hother _ _ _ _ hf
  have hbegins := begins_builtin other hother _ _ _ _ hf
  rw [inserted_builtin other hother gs] at hc
  obtain ⟨d, u, rfl⟩ := List.exists_cons_of_length_pos (Nat.zero_lt_of_lt hlt)
  cases hk : other.copied gs with
  | zero =>
    left
    obtain ⟨ins, hins⟩ := List.head?_eq_some_iff.mp (hbegins.resolve_left (by omega))
    rw [hk, hins] at hc
    exact (Option.some.inj hc).symm
  | succ k =>
    right
    rw [hk] at hc
    exact hc

theorem last_of_cut {other : CompiledRule} (hother : other ∈ builtinRules) {text u ins : Str}
    {copied : Nat} (hcut : Edit.cut u copied ins ∈ scan other none text) (x : Str) :
    (x ++ (u.take copied ++ ins)).getLast? = some ']' := by
  obtain ⟨_, _, gs, _, _, rfl, _⟩ :=
    cut_of_mem_scan (sound_of_mem_builtinRules other hother) hcut
  have hlast := inserted_ends other hother
  have hne : other.inserted [] ≠ [] := by
    intro hnil
    rw [hnil] at hlast
    cases hlast
  rw [inserted_builtin other hother gs, ← List.append_assoc, List.getLast?_append_of_ne_nil _ hne, hlast]

theorem bounded_target {rule other : CompiledRule} (hrule : rule ∈ builtinRules)
    (hother : other ∈ builtinRules) {text : Str} {ds fs : List Edit}
    (hds : ∀ e ∈ ds, e ∈ scan other none text) (hfs : ∀ e ∈ fs, e ∈ scan other none text)
    (hb : Bounded rule (Edits.source ds) (Edits.source fs)) :
    Bounded rule (Edits.target ds) (Edits.target fs) := by
  refine ⟨?_, ?_⟩
  · intro c hc
    cases ds using List.reverseRecOn with
    | nil => cases hc
    | append_singleton ds e =>
      rw [Edits.target_append, Edits.target_cons, Edits.target_nil, List.append_nil] at hc
      cases e with
      | kept d =>
        rw [Edit.target, List.getLast?_concat] at hc
        apply hb.left c
        rw [Edits.source_append, ← hc]
        exact List.getLast?_concat
      | cut u copied ins =>
        have hlast := last_of_cut hother (hds (.cut u copied ins) (by simp)) (Edits.target ds)
        rw [Edit.target, hlast] at hc
        cases hc
        exact (hard_bracket rule hrule).2
  · intro c hc
    cases fs with
    | nil => cases hc
    | cons e fs =>
      cases e with
      | kept d => exact hb.right c hc
      | cut u copied ins =>
        rcases head_of_cut hother (hfs _ List.mem_cons_self) (Edits.target fs) hc with rfl | hu
        · exact (hard_bracket rule hrule).1
        · obtain ⟨u', rfl⟩ := List.head?_eq_some_iff.mp hu
          exact hb.right c rfl

theorem notMem_covered {lo : Nat} {f : Str} {cs : Marked}
    (h : ∀ i ∈ marks cs, i < lo ∨ lo + f.length ≤ i) : ∀ x ∈ labelFrom lo f, x ∉ cs := by
  intro x hx hmem
  obtain ⟨c, o⟩ := x
  cases o with
  | none => exact absurd (some_of_mem_labelFrom hx) Bool.false_ne_true
  | some i =>
    have hi : i ∈ marks (labelFrom lo f) := mem_marks.mpr ⟨c, hx⟩
    rw [marks_labelFrom, List.mem_range'_1] at hi
    have hout := h i (mem_marks.mpr ⟨c, hmem⟩)
    omega

/-- Such a part stays as it is, between the same kind of characters. -/
theorem tracked_untouched {rule : CompiledRule} (hrule : rule ∈ builtinRules)
    {before : List CompiledRule} (hbefore : ∀ other ∈ before, other ∈ builtinRules) {lo : Nat} {f : Str}
    (hf : f ≠ []) {p q : Marked} (hb : Bounded rule (plain p) (plain q))
    (h : Untouched before lo (lo + f.length) (p ++ (labelFrom lo f ++ q))) :
    ∃ p' q', tracked before (p ++ (labelFrom lo f ++ q)) = p' ++ (labelFrom lo f ++ q') ∧
      Bounded rule (plain p') (plain q') := by
  induction before generalizing p q with
  | nil => exact ⟨p, q, rfl, hb⟩
  | cons other before ih =>
    obtain ⟨hother, hrest⟩ := List.forall_mem_cons.mp hbefore
    obtain ⟨hcovered, htouched⟩ := h
    have hsound := sound_of_mem_builtinRules other hother
    have hlabel : labelFrom lo f ≠ [] := by
      intro hnil
      have hlen := congrArg List.length hnil
      rw [length_labelFrom] at hlen
      exact hf (List.length_eq_zero_iff.mp hlen)
    obtain ⟨ds, fs, hscan, hds, hfs⟩ := Edits.split_of_uncovered
      (fun _ _ _ hcut => ne_nil_of_cut hsound hcut) hlabel
      (source_scan hsound none (plain (p ++ (labelFrom lo f ++ q)))) (notMem_covered hcovered)
    have hp : p.length = (Edits.source ds).length := by rw [hds, length_plain]
    have hq : q.length = (Edits.source fs).length := by rw [hfs, length_plain]
    have htrace : Edits.trace (scan other none (plain (p ++ (labelFrom lo f ++ q))))
        (p ++ (labelFrom lo f ++ q)) =
          Edits.trace ds p ++ (labelFrom lo f ++ Edits.trace fs q) := by
      rw [hscan, Edits.trace_append hp, Edits.trace_append (by simp), Edits.trace_keep]
    rw [tracked_cons, htrace]
    rw [htrace] at htouched
    apply ih hrest _ htouched
    rw [Edits.plain_trace hds.symm, Edits.plain_trace hfs.symm]
    rw [← hds, ← hfs] at hb
    have hleft : ∀ e ∈ ds, e ∈ scan other none (plain (p ++ (labelFrom lo f ++ q))) := by
      intro e he
      rw [hscan]
      exact List.mem_append_left _ he
    have hright : ∀ e ∈ fs, e ∈ scan other none (plain (p ++ (labelFrom lo f ++ q))) := by
      intro e he
      rw [hscan]
      exact List.mem_append_right _ (List.mem_append_right _ he)
    exact bounded_target hrule hother hleft hright hb

/-- The cut of a match in a part that the rule reads on its own. -/
theorem cut_in_part {rule : CompiledRule} (h : rule.Sound) {a f b : Str} (hb : Bounded rule a b)
    {m : Match} (hm : rule.Finds (a ++ (f ++ b)) m) (hstart : a.length ≤ m.start)
    (hstop : m.stop ≤ a.length + f.length) : ∃ xs u ys, scan rule none f =
        xs ++ .cut u (rule.copied m.groups) (rule.inserted m.groups) :: ys ∧ u ≠ [] ∧
      m.start = a.length + (Edits.source xs).length ∧ m.stop = m.start + u.length := by
  obtain ⟨xs, u, ys, hscan, hu, hxs, hend⟩ := cut_of_finds h hm
  obtain ⟨ds, fs, hparts, rfl, rfl⟩ := scan_bounded h hb f
  rw [hparts] at hscan
  obtain ⟨xs, ys, hpart, rfl⟩ := Edits.mem_middle hscan.symm hu (by omega)
    (by rw [source_scan h, Edit.source]; omega)
  refine ⟨xs, u, ys, hpart, hu, ?_, hend⟩
  rw [hxs, Edits.source_append, List.length_append]

theorem masked_behind {rule : CompiledRule} (hrule : rule ∈ builtinRules)
    {before behind : List CompiledRule} (hbefore : ∀ other ∈ before, other ∈ builtinRules)
    {a f b : Str} (hb : Bounded rule a b) {m : Match} (hm : rule.Finds (a ++ (f ++ b)) m)
    (hstart : a.length ≤ m.start) (hstop : m.stop ≤ a.length + f.length)
    (h : Untouched before a.length (a.length + f.length) (labelFrom 0 (a ++ (f ++ b)))) {i : Nat}
    (hi : rule.Masks m i) :
    i ∉ marks (tracked (before ++ rule :: behind) (labelFrom 0 (a ++ (f ++ b)))) := by
  have hsound := sound_of_mem_builtinRules rule hrule
  obtain ⟨xs, u, ys, hscan, hu, hxs, hend⟩ := cut_in_part hsound hb hm hstart hstop
  have hf : f ≠ [] := by
    rintro rfl
    rw [scan_nil] at hscan
    cases List.append_eq_nil_iff.mp hscan.symm with
    | intro _ hcons => cases hcons
  have hlabel : labelFrom 0 (a ++ (f ++ b)) =
      labelFrom 0 a ++ (labelFrom a.length f ++ labelFrom (a.length + f.length) b) := by
    rw [labelFrom_append, labelFrom_append, Nat.zero_add]
  have hplain : Bounded rule (plain (labelFrom 0 a)) (plain (labelFrom (a.length + f.length) b)) := by
    rwa [plain_labelFrom, plain_labelFrom]
  have hnodup := (marks_tracked before (labelFrom 0 (a ++ (f ++ b)))).nodup
    (by rw [marks_labelFrom]; exact List.nodup_range')
  rw [hlabel] at h hnodup
  obtain ⟨p, q, htracked, hbounded⟩ := tracked_untouched hrule hbefore hf hplain h
  rw [htracked] at hnodup
  rw [tracked_append, tracked_cons, hlabel, htracked]
  intro hmem
  have hbehind := (marks_tracked behind _).subset hmem
  -- the rule cuts the match out of the part that is still there
  obtain ⟨ds, fs, hparts, hds, hfs⟩ := scan_bounded hsound hbounded f
  have htext : plain (p ++ (labelFrom a.length f ++ q)) = plain p ++ (f ++ plain q) := by simp
  have hsource : f = Edits.source xs ++ (u ++ Edits.source ys) := by
    rw [← source_scan hsound none f, hscan, Edits.source_append, Edits.source_cons]
    rfl
  have hsplit : labelFrom a.length f = labelFrom a.length (Edits.source xs) ++
      (labelFrom m.start u ++ labelFrom (m.start + u.length) (Edits.source ys)) := by
    conv_lhs => rw [hsource, labelFrom_append, labelFrom_append, ← hxs]
  have hcut : scan rule none (plain (p ++ (labelFrom a.length f ++ q))) = (ds ++ xs) ++
      .cut u (rule.copied m.groups) (rule.inserted m.groups) :: (ys ++ fs) := by
    rw [htext, hparts, hscan]
    simp
  have hmarked : p ++ (labelFrom a.length f ++ q) =
      (p ++ labelFrom a.length (Edits.source xs)) ++
        (labelFrom m.start u ++ (labelFrom (m.start + u.length) (Edits.source ys) ++ q)) := by
    rw [hsplit]
    simp
  rw [hcut] at hbehind
  rw [hmarked] at hbehind hnodup
  refine Edits.unmarked_of_cut ?_ (length_labelFrom _ _) hnodup ?_ hbehind
  · rw [Edits.source_append, List.length_append, List.length_append, hds, length_plain, length_labelFrom]
  · obtain ⟨hlo, hhi⟩ := hi
    rw [drop_labelFrom, marks_labelFrom, List.mem_range'_1, List.length_drop]
    omega

/-- What the first rules have masked stays masked. -/
theorem masked_before {before behind : List CompiledRule} (hrules : builtinRules = before ++ behind) {text : Str}
    {i : Nat} (h : i ∉ marks (tracked before (labelFrom 0 text))) : ¬ Visible text i := by
  unfold Visible
  rw [hrules, tracked_append]
  exact fun hmem => h ((marks_tracked behind _).subset hmem)

/-- The first text is a token for the last rule but one, but the card number in it is masked before.
In the second one the digits before the match belong to a card candidate until they are masked. -/
def bearerCard : Str := "Bearer abcdefghij-4111111111111111-xyz".toList

def jwtCard : Str := "eyJaaaaa.bbbbb.cccc-1111111111111111 222-4111111111111111".toList

end Janus.Redaction
