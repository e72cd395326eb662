import Janus.Redaction
import Janus.Lib.Edits
import Janus.Lib.RegexPath

/-!
# A rule as a scan of the text

`applyRule` collects all matches first and then splices the text. For a rule that matches
no empty text this is one scan from left to right (`applyRule_scan`), in which what is
done at a position depends on the text behind it up to the next character that the rule
cannot consume. A character that no rule consumes therefore divides the text into parts
that are redacted on their own (`scan_divide`).
-/

namespace Janus.Redaction

set_option autoImplicit false

open Regex

def tag (cls : Str) : Str := "[REDACTED:".toList ++ cls ++ [']']

/-- How much of a match its template writes back first. -/
def CompiledRule.copied (rule : CompiledRule) (gs : List (Nat × Str)) : Nat :=
  match rule.replaceTpl with
  | .group i :: _ => (groupText gs i).length
  | _ => 0

/-- What is written behind that. -/
def CompiledRule.inserted (rule : CompiledRule) (gs : List (Nat × Str)) : Str :=
  match rule.replaceTpl with
  | [] => tag rule.class
  | .group _ :: tpl => expand tpl ⟨0, 0, gs⟩
  | tpl => expand tpl ⟨0, 0, gs⟩

def CompiledRule.rejects (rule : CompiledRule) (u : Str) : Bool :=
  rule.validate.any fun ok => !ok u

/-- What becomes of a match. -/
def CompiledRule.edits (rule : CompiledRule) (u : Str) (gs : List (Nat × Str)) : List Edit :=
  if rule.rejects u then Edits.keep u else [.cut u (rule.copied gs) (rule.inserted gs)]

def scan (rule : CompiledRule) (prev : Option Char) : Str → List Edit
  | [] => []
  | c :: cs =>
    match rule.re.first prev (c :: cs) with
    | some (n + 1, gs) =>
      rule.edits (c :: cs.take n) gs ++ scan rule (c :: cs.take n).getLast? (cs.drop n)
    | _ => .kept c :: scan rule (some c) cs
termination_by text => text.length

/-- The rule matches no empty text, and the group that its template begins with is where the
match begins. -/
structure CompiledRule.Sound (rule : CompiledRule) : Prop where
  productive : 0 < rule.re.minLen
  anchored : ∀ prev text n gs, rule.re.first prev text = some (n, gs) →
    ∀ i tpl, rule.replaceTpl = .group i :: tpl → groupText gs i <+: text.take n

variable {rule : CompiledRule}

theorem first_pos (h : rule.Sound) {prev : Option Char} {text : Str} {n : Nat}
    {gs : List (Nat × Str)} (hf : rule.re.first prev text = some (n, gs)) : 0 < n := by
  obtain ⟨hn, hlang⟩ := first_sound hf
  have hmin := minLen_of_lang rule.re hlang
  have hpos := h.productive
  rw [List.length_take] at hmin
  omega

@[simp] theorem scan_nil (rule : CompiledRule) (prev : Option Char) : scan rule prev [] = [] := by
  rw [scan]

theorem scan_none {prev : Option Char} {c : Char} {cs : Str}
    (hf : rule.re.first prev (c :: cs) = none) :
    scan rule prev (c :: cs) = .kept c :: scan rule (some c) cs := by
  rw [scan, hf]

theorem scan_some (h : rule.Sound) {prev : Option Char} {text : Str} {n : Nat}
    {gs : List (Nat × Str)} (hf : rule.re.first prev text = some (n, gs)) :
    scan rule prev text =
      rule.edits (text.take n) gs ++ scan rule (text.take n).getLast? (text.drop n) := by
  obtain ⟨n, rfl⟩ := Nat.exists_eq_succ_of_ne_zero (first_pos h hf).ne'
  cases text with
  | nil =>
    have hlen := (first_sound hf).1
    simp at hlen
  | cons c cs =>
    rw [scan, hf]
    rfl

@[simp] theorem source_edits (rule : CompiledRule) (u : Str) (gs : List (Nat × Str)) :
    Edits.source (rule.edits u gs) = u := by
  unfold CompiledRule.edits
  split
  · exact Edits.source_keep u
  · exact List.append_nil u

theorem source_scan (h : rule.Sound) (prev : Option Char) (text : Str) :
    Edits.source (scan rule prev text) = text := by
  induction hk : text.length using Nat.strong_induction_on generalizing prev text with
  | _ k ih =>
    cases text with
    | nil => simp
    | cons c cs =>
      cases hf : rule.re.first prev (c :: cs) with
      | none =>
        rw [scan_none hf, Edits.source_cons, ih cs.length (by simp [← hk]) (some c) cs rfl]
        rfl
      | some m =>
        obtain ⟨n, gs⟩ := m
        have hn := first_pos h hf
        have hlt : ((c :: cs).drop n).length < k := by
          rw [List.length_drop, ← hk]
          simp only [List.length_cons]
          omega
        rw [scan_some h hf, Edits.source_append, source_edits, ih _ hlt _ _ rfl, List.take_append_drop]

/-- What is cut out is a match that passes the check of the rule. -/
theorem cut_of_mem_scan (h : rule.Sound) {prev : Option Char} {text u ins : Str} {copied : Nat}
    (hmem : Edit.cut u copied ins ∈ scan rule prev text) :
    ∃ prev' rest gs, rule.re.first prev' (u ++ rest) = some (u.length, gs) ∧
      copied = rule.copied gs ∧ ins = rule.inserted gs ∧ rule.rejects u = false := by
  induction hk : text.length using Nat.strong_induction_on generalizing prev text with
  | _ k ih =>
    cases text with
    | nil => simp at hmem
    | cons c cs =>
      cases hf : rule.re.first prev (c :: cs) with
      | none =>
        rw [scan_none hf] at hmem
        exact ih cs.length (by simp [← hk]) ((List.mem_cons.mp hmem).resolve_left (by simp)) rfl
      | some m =>
        obtain ⟨n, gs⟩ := m
        have hpos := first_pos h hf
        have hlt : ((c :: cs).drop n).length < k := by
          rw [List.length_drop, hk]
          simp only [List.length_cons] at hk
          omega
        rw [scan_some h hf] at hmem
        rcases List.mem_append.mp hmem with hcut | hrest
        · unfold CompiledRule.edits at hcut
          split at hcut
          · obtain ⟨d, _, hd⟩ := List.mem_map.mp hcut
            cases hd
          · rename_i hrej
            cases List.mem_singleton.mp hcut
            refine ⟨prev, (c :: cs).drop n, gs, ?_, rfl, rfl, by simpa using hrej⟩
            rw [List.take_append_drop, List.length_take_of_le (first_sound hf).1, hf]
        · exact ih _ hlt hrest rfl

theorem run_nil_of_productive {r : Regex} (hp : 0 < r.minLen) {p : Pos} (h : p.rest = []) :
    r.run p = [] := by
  apply List.eq_nil_iff_forall_not_mem.mpr
  intro q hq
  obtain ⟨u, hu, hread⟩ := run_sound r p q hq
  have hlen := minLen_of_lang r hu
  have hrest := congrArg List.length hread.rest
  rw [h, List.length_append, List.length_nil] at hrest
  omega

theorem offset_lt_of_run {r : Regex} (hp : 0 < r.minLen) {p q : Pos}
    (hq : q ∈ r.run { p with groups := [] }) : p.offset < q.offset := by
  obtain ⟨u, hu, hread⟩ := run_sound r _ q hq
  have hlen := minLen_of_lang r hu
  have hoff := hread.offset
  dsimp only at hoff
  omega

theorem findFrom_head {r : Regex} (fuel : Nat) {p q : Pos} {qs : List Pos}
    (h : r.run { p with groups := [] } = q :: qs) :
    r.findFrom fuel p = some (⟨p.offset, q.offset, q.groups⟩, q) := by
  unfold findFrom
  rw [h]

theorem findFrom_next {r : Regex} (fuel : Nat) {p : Pos} {c : Char} {cs : Str}
    (h : r.run { p with groups := [] } = []) (hc : p.rest = c :: cs) :
    r.findFrom (fuel + 1) p = r.findFrom fuel ⟨p.offset + 1, some c, cs, []⟩ := by
  obtain ⟨o, prev, rest, gs⟩ := p
  subst hc
  conv_lhs => unfold findFrom
  dsimp only at h ⊢
  rw [h]

theorem findFrom_end {r : Regex} (fuel : Nat) {p : Pos} (h : r.run { p with groups := [] } = [])
    (hc : p.rest = [] ∨ fuel = 0) : r.findFrom fuel p = none := by
  obtain ⟨o, prev, rest, gs⟩ := p
  unfold findFrom
  dsimp only at h hc ⊢
  rw [h]
  rcases hc with rfl | rfl
  · cases fuel <;> rfl
  · rfl

/-- What a search finds first lies behind the position it starts from. -/
theorem findFrom_stop {r : Regex} (hp : 0 < r.minLen) {fuel : Nat} {p : Pos} {m : Match} {q : Pos}
    (h : r.findFrom fuel p = some (m, q)) : p.offset < m.stop := by
  induction fuel generalizing p with
  | zero =>
    cases hrun : r.run { p with groups := [] } with
    | nil => rw [findFrom_end 0 hrun (Or.inr rfl)] at h; cases h
    | cons q' qs =>
      rw [findFrom_head 0 hrun] at h
      cases h
      exact offset_lt_of_run hp (hrun ▸ List.mem_cons_self)
  | succ fuel ih =>
    cases hrun : r.run { p with groups := [] } with
    | nil =>
      cases hc : p.rest with
      | nil => rw [findFrom_end _ hrun (Or.inl hc)] at h; cases h
      | cons c cs =>
        rw [findFrom_next fuel hrun hc] at h
        exact Nat.lt_of_succ_lt (ih h)
    | cons q' qs =>
      rw [findFrom_head _ hrun] at h
      cases h
      exact offset_lt_of_run hp (hrun ▸ List.mem_cons_self)

theorem run_of_first_none {r : Regex} {o : Nat} {prev : Option Char} {text : Str}
    (h : r.first prev text = none) : r.run ⟨o, prev, text, []⟩ = [] := by
  have hhead := head_run_alike r (stops_nil r) (stops_nil r) rfl (rfl : prev.any isWord = _) text o
  rw [List.append_nil, h] at hhead
  simpa using hhead

theorem run_of_first_some {r : Regex} {o : Nat} {prev : Option Char} {text : Str} {n : Nat}
    {gs : List (Nat × Str)} (hn : 0 < n) (h : r.first prev text = some (n, gs)) :
    (r.run ⟨o, prev, text, []⟩).head? =
      some ⟨o + n, (text.take n).getLast?, text.drop n, gs⟩ := by
  have hhead := head_run_alike r (stops_nil r) (stops_nil r) rfl (rfl : prev.any isWord = _) text o
  rw [List.append_nil, h] at hhead
  obtain ⟨q, hq, he⟩ := Option.map_eq_some_iff.mp hhead
  obtain ⟨u, _, hread⟩ := run_sound r _ q (List.mem_of_mem_head? hq)
  obtain ⟨hoff, hgs⟩ := Prod.mk.inj he
  have hlen : u.length = n := by
    have ho := hread.offset
    dsimp only at hoff ho
    omega
  have htext : text = u ++ q.rest := hread.rest
  have hne : u ≠ [] := by
    intro hu
    rw [hu] at hlen
    exact hn.ne hlen
  obtain ⟨c, hc⟩ := Option.ne_none_iff_exists'.mp (mt List.getLast?_eq_none_iff.mp hne)
  have hprev := hread.prev
  rw [hc, Option.some_or] at hprev
  rw [hq, htext, ← hlen, List.take_left, List.drop_left, hc]
  obtain ⟨o', prev', rest', gs'⟩ := q
  dsimp only at hoff hgs hprev ⊢
  rw [hoff, hgs, hprev, hlen]

/-- What `findAllFrom` lists after a match `m` found from `p`, whose end is `q`. -/
def followers (r : Regex) (n : Nat) (m : Match) (p q : Pos) : List Match :=
  if m.stop = p.offset then
    match p.rest with
    | [] => []
    | c :: cs => r.findAllFrom n (some m.stop) ⟨p.offset + 1, some c, cs, []⟩
  else r.findAllFrom n (some m.stop) { q with groups := [] }

theorem findAllFrom_of_found {r : Regex} (n : Nat) (prevEnd : Option Nat) {p q : Pos} {m : Match}
    (h : r.findFrom p.rest.length p = some (m, q)) :
    r.findAllFrom (n + 1) prevEnd p =
      if !(m.stop = p.offset && some m.start = prevEnd) then m :: followers r n m p q
      else followers r n m p q := by
  rw [findAllFrom, h]
  rfl

/-- At a position where nothing matches the matches are those of the next position. -/
theorem findAllFrom_next {r : Regex} (hp : 0 < r.minLen) (n : Nat) (prevEnd : Option Nat) {o : Nat}
    {prev : Option Char} {c : Char} {cs : Str} (h : r.run ⟨o, prev, c :: cs, []⟩ = []) :
    r.findAllFrom (n + 1) prevEnd ⟨o, prev, c :: cs, []⟩ =
      r.findAllFrom (n + 1) prevEnd ⟨o + 1, some c, cs, []⟩ := by
  have hfind : r.findFrom (c :: cs).length ⟨o, prev, c :: cs, []⟩ =
      r.findFrom cs.length ⟨o + 1, some c, cs, []⟩ := findFrom_next cs.length h rfl
  simp only [findAllFrom]
  rw [hfind]
  cases hm : r.findFrom cs.length ⟨o + 1, some c, cs, []⟩ with
  | none => rfl
  | some m =>
    have hstop := findFrom_stop hp hm
    dsimp only at hstop
    have hne : m.1.stop ≠ o := by omega
    have hne' : m.1.stop ≠ o + 1 := by omega
    simp [hne, hne']

/-- At a position where something matches it is the first of the matches. -/
theorem findAllFrom_match {r : Regex} (n : Nat) (prevEnd : Option Nat) {p q : Pos}
    (hp : 0 < r.minLen) (h : (r.run { p with groups := [] }).head? = some q) :
    r.findAllFrom (n + 1) prevEnd p =
      ⟨p.offset, q.offset, q.groups⟩ :: r.findAllFrom n (some q.offset) { q with groups := [] } := by
  obtain ⟨qs, hrun⟩ := List.head?_eq_some_iff.mp h
  have hlt := offset_lt_of_run hp (p := p) (q := q) (hrun ▸ List.mem_cons_self)
  have hne : q.offset ≠ p.offset := by omega
  rw [findAllFrom_of_found n prevEnd (findFrom_head _ hrun), followers, if_neg hne]
  simp [hne]

theorem slice_full (pre rest : Str) {last : Nat} (h : last ≤ pre.length) (k : Nat) :
    slice (pre ++ rest) last (pre.length + k) = slice (pre ++ rest) last pre.length ++ rest.take k := by
  have hlen : (pre.drop last).length = pre.length - last := List.length_drop
  unfold slice
  rw [List.drop_append_of_le_length h, Nat.sub_add_comm h, ← hlen, List.take_length_add_append,
    List.take_left]

theorem slice_self (text : Str) (n : Nat) : slice text n n = [] := by
  simp [slice]

theorem slice_take (pre rest : Str) (n : Nat) :
    slice (pre ++ rest) pre.length (pre.length + n) = rest.take n := by
  simp [slice]

theorem replacement_eq (h : rule.Sound) {prev : Option Char} {text : Str} {n : Nat}
    {gs : List (Nat × Str)} (hf : rule.re.first prev text = some (n, gs)) (start stop : Nat) :
    replacement rule ⟨start, stop, gs⟩ =
      (text.take n).take (rule.copied gs) ++ rule.inserted gs := by
  unfold replacement CompiledRule.copied CompiledRule.inserted
  cases htpl : rule.replaceTpl with
  | nil =>
    rw [if_neg (fun hne => hne rfl), List.take_zero, List.nil_append]
    rfl
  | cons part tpl =>
    rw [if_pos (List.cons_ne_nil part tpl)]
    cases part with
    | text s =>
      rw [List.take_zero, List.nil_append]
      rfl
    | group i =>
      have hpre := h.anchored prev text n gs hf i tpl htpl
      dsimp only
      rw [← List.prefix_iff_eq_take.mp hpre]
      rfl

/-- The loop over the matches writes what the scan writes. -/
theorem spliceFrom_scan (h : rule.Sound) (pre rest : Str) (prev : Option Char) (last n : Nat)
    (prevEnd : Option Nat) (hlast : last ≤ pre.length) (hn : rest.length < n) :
    spliceFrom (pre ++ rest) rule last
        (rule.re.findAllFrom n prevEnd ⟨pre.length, prev, rest, []⟩) =
      (slice (pre ++ rest) last pre.length ++ Edits.target (scan rule prev rest),
        Edits.cuts (scan rule prev rest)) := by
  obtain ⟨n, rfl⟩ := Nat.exists_eq_succ_of_ne_zero (Nat.ne_of_gt (Nat.zero_lt_of_lt hn))
  induction hk : rest.length using Nat.strong_induction_on generalizing pre rest prev last n prevEnd with
  | _ k ih =>
    cases hf : rule.re.first prev rest with
    | none =>
      cases rest with
      | nil =>
        have hrun := run_nil_of_productive h.productive (p := ⟨pre.length, prev, [], []⟩) rfl
        have hnone : rule.re.findAllFrom (n + 1) prevEnd ⟨pre.length, prev, [], []⟩ = [] := by
          simp only [findAllFrom]
          rw [findFrom_end _ hrun (Or.inl rfl)]
        rw [hnone]
        simp [spliceFrom, slice]
      | cons c cs =>
        rw [findAllFrom_next h.productive n prevEnd (run_of_first_none hf), scan_none hf]
        have happ : pre ++ c :: cs = (pre ++ [c]) ++ cs := by simp
        have hlen : pre.length + 1 = (pre ++ [c]).length := by simp
        rw [happ, hlen, ih cs.length (by simp [← hk]) (pre ++ [c]) cs (some c) last prevEnd
          (by simp; omega) n (by simp at hn; omega) rfl]
        have hslice := slice_full pre (c :: cs) hlast 1
        rw [← hlen, ← happ, hslice]
        simp [Edit.target]
    | some m =>
      obtain ⟨m, gs⟩ := m
      have hpos := first_pos h hf
      have hm := (first_sound hf).1
      have htake : (rest.take m).length = m := List.length_take_of_le hm
      have happ : pre ++ rest = (pre ++ rest.take m) ++ rest.drop m := by
        rw [List.append_assoc, List.take_append_drop]
      have hlen : pre.length + m = (pre ++ rest.take m).length := by
        rw [List.length_append, htake]
      have hdrop : (rest.drop m).length < k := by
        rw [List.length_drop, ← hk]
        omega
      obtain ⟨n, rfl⟩ := Nat.exists_eq_succ_of_ne_zero (n := n) (by omega)
      have hrec := fun last (hl : last ≤ (pre ++ rest.take m).length) =>
        ih _ hdrop (pre ++ rest.take m) (rest.drop m) (rest.take m).getLast? last
          (some (pre.length + m)) hl n (by omega) rfl
      rw [← happ, ← hlen] at hrec
      rw [findAllFrom_match _ prevEnd h.productive (run_of_first_some hpos hf), scan_some h hf]
      simp only [spliceFrom, if_neg (Nat.not_lt.mpr hlast), slice_take]
      have hany : (rule.validate.any fun ok => !ok (rest.take m)) = rule.rejects (rest.take m) := rfl
      rw [hany]
      cases hrej : rule.rejects (rest.take m) with
      | true =>
        rw [if_pos rfl, hrec last (by omega), slice_full pre rest hlast m]
        simp [CompiledRule.edits, hrej]
      | false =>
        rw [if_neg Bool.false_ne_true, hrec _ (Nat.le_refl _), slice_self, replacement_eq h hf]
        simp [CompiledRule.edits, hrej, Edit.target, Nat.add_comm]

/-- Applying a rule is one scan of the text. -/
theorem applyRule_scan (h : rule.Sound) (text : Str) :
    applyRule text rule =
      (Edits.target (scan rule none text), Edits.cuts (scan rule none text)) := by
  have hsplice := spliceFrom_scan h [] text none 0 (text.length + 1) none (Nat.zero_le _)
    (Nat.lt_succ_self _)
  rw [List.nil_append, List.length_nil, slice_self, List.nil_append] at hsplice
  unfold applyRule findAll
  dsimp only
  rw [hsplice]
  dsimp only
  split
  · rename_i hzero
    rw [Edits.target_eq_source hzero, source_scan h, hzero]
  · rfl

/-- A character that is of no word and that the rule cannot consume. -/
def CompiledRule.hard (rule : CompiledRule) (c : Char) : Bool := !isWord c && !rule.re.consumes c

theorem scan_prev (h : rule.Sound) {prev prev' : Option Char}
    (hp : prev.any isWord = prev'.any isWord) (text : Str) :
    scan rule prev text = scan rule prev' text := by
  cases text with
  | nil => simp
  | cons c cs =>
    have hcongr := first_congr rule.re (stops_nil _) (stops_nil _) rfl hp (c :: cs)
    rw [List.append_nil] at hcongr
    cases hf : rule.re.first prev' (c :: cs) with
    | none => rw [scan_none hf, scan_none (hcongr.trans hf)]
    | some m => rw [scan_some h hf, scan_some h (hcongr.trans hf)]

theorem stops_of_hard {c : Char} (hc : rule.hard c = true) (z : Str) : Stops rule.re (c :: z) := by
  intro d hd
  cases hd
  have hcons := (Bool.and_eq_true_iff.mp hc).2
  simpa using hcons

theorem isWord_of_hard {c : Char} (hc : rule.hard c = true) : isWord c = false := by
  have hword := (Bool.and_eq_true_iff.mp hc).1
  simpa using hword

theorem first_of_hard {c : Char} (hc : rule.hard c = true) (prev : Option Char) (f z : Str) :
    rule.re.first prev (f ++ c :: z) = rule.re.first prev f := by
  have hcongr := first_congr rule.re (stops_of_hard hc z) (stops_nil rule.re)
    (by simp [isWord_of_hard hc]) (rfl : prev.any isWord = _) f
  rwa [List.append_nil] at hcongr

theorem first_nil (h : rule.Sound) (prev : Option Char) : rule.re.first prev [] = none := by
  unfold first
  rw [run_nil_of_productive h.productive rfl]
  rfl

/-- Such a character divides the text into two that are scanned on their own. -/
theorem scan_divide (h : rule.Sound) {c : Char} (hc : rule.hard c = true) (prev : Option Char)
    (f z : Str) :
    scan rule prev (f ++ c :: z) = scan rule prev f ++ .kept c :: scan rule none z := by
  induction hk : f.length using Nat.strong_induction_on generalizing prev f with
  | _ k ih =>
    have hfirst := first_of_hard hc prev f z
    cases f with
    | nil =>
      rw [List.nil_append] at hfirst ⊢
      rw [scan_none (hfirst.trans (first_nil h prev)), scan_nil, List.nil_append]
      have hprev : (some c).any isWord = (none : Option Char).any isWord := by
        simp [isWord_of_hard hc]
      rw [scan_prev h hprev]
    | cons a f =>
      cases hf : rule.re.first prev (a :: f) with
      | none =>
        have hfirst' : rule.re.first prev (a :: (f ++ c :: z)) = none := hfirst.trans hf
        rw [scan_none hf, List.cons_append, scan_none hfirst',
          ih f.length (by simp [← hk]) (some a) f rfl, List.cons_append]
      | some m =>
        obtain ⟨n, gs⟩ := m
        rw [hf] at hfirst
        have hpos := first_pos h hf
        have hn := (first_sound hf).1
        have hlt : ((a :: f).drop n).length < k := by
          rw [List.length_drop, hk]
          simp only [List.length_cons] at hk
          omega
        rw [scan_some h hf, scan_some h hfirst, List.take_append_of_le_length hn,
          List.drop_append_of_le_length hn, ih _ hlt _ _ rfl, List.append_assoc]

theorem applyRule_divide (h : rule.Sound) {c : Char} (hc : rule.hard c = true) (f z : Str) :
    applyRule (f ++ c :: z) rule = ((applyRule f rule).1 ++ c :: (applyRule z rule).1,
      (applyRule f rule).2 + (applyRule z rule).2) := by
  simp [applyRule_scan h, scan_divide h hc, Edit.target]

/-- The text after all rules. -/
def rewritten (rules : List CompiledRule) (text : Str) : Str :=
  rules.foldl (fun text rule => (applyRule text rule).1) text

theorem applyRules_fst (rules : List CompiledRule) (text : Str) :
    (applyRules rules text).1 = rewritten rules text := by
  rw [applyRules_eq_foldl]
  suffices hall : ∀ acc, (rules.foldl runRule acc).1 = rewritten rules acc.1 from hall (text, [])
  induction rules with
  | nil => exact fun _ => rfl
  | cons rule rules ih => exact fun acc => ih _

theorem rewritten_append (rules rules' : List CompiledRule) (text : Str) :
    rewritten (rules ++ rules') text = rewritten rules' (rewritten rules text) :=
  List.foldl_append

theorem rewritten_cons (rule : CompiledRule) (rules : List CompiledRule) (text : Str) :
    rewritten (rule :: rules) text = rewritten rules (applyRule text rule).1 := rfl

/-- A character that divides the text for every rule divides what is written. -/
theorem rewritten_divide {rules : List CompiledRule} {c : Char}
    (h : ∀ rule ∈ rules, rule.Sound ∧ rule.hard c = true) (f z : Str) :
    rewritten rules (f ++ c :: z) = rewritten rules f ++ c :: rewritten rules z := by
  induction rules generalizing f z with
  | nil => rfl
  | cons rule rules ih =>
    obtain ⟨⟨hsound, hc⟩, hrest⟩ := List.forall_mem_cons.mp h
    rw [rewritten_cons, applyRule_divide hsound hc, ih hrest]
    rfl

end Janus.Redaction
