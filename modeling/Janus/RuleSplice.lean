import Janus.RuleScan

/-!
# The loop over the matches

Whatever matches of whatever rule it is given, the loop of `applyRule` writes the text with each
accepted match replaced and everything else as it stands (`splice_exact`). The loop copies
from the end of the last accepted match, while the text is cut at the rejected ones as well,
and the step lemma keeps both places apart (`spliceFrom_eq`). It sees a match as two offsets
into a list, whether they count characters or bytes.
-/

namespace Janus.Redaction

set_option autoImplicit false

open Regex

/-- Matches within a text that do not overlap, in increasing order. -/
structure InOrder (text : Str) (ms : List Match) : Prop where
  inRange : ∀ m ∈ ms, m.start ≤ m.stop ∧ m.stop ≤ text.length
  increasing : ms.Pairwise fun m n => m.stop ≤ n.start

/-- `applyRule` behind the search for the matches. -/
def splice (text : Str) (rule : CompiledRule) (ms : List Match) : Str × Nat :=
  let (out, n) := spliceFrom text rule 0 ms
  if n = 0 then (text, 0) else (out, n)

def matched (text : Str) (m : Match) : Str := slice text m.start m.stop

def CompiledRule.accepted (rule : CompiledRule) (text : Str) (m : Match) : Bool :=
  !rule.rejects (matched text m)

/-- What stands in the place of a match afterwards. -/
def CompiledRule.written (rule : CompiledRule) (text : Str) (m : Match) : Str :=
  if rule.accepted text m then replacement rule m else matched text m

/-- The parts of a text before, between and behind the matches. -/
def gaps (text : Str) : Nat → List Match → List Str
  | pos, [] => [text.drop pos]
  | pos, m :: ms => slice text pos m.start :: gaps text m.stop ms

/-- Gaps with the texts of the matches between them. -/
def interleave : List Str → List Str → Str
  | g :: gs, t :: ts => g ++ (t ++ interleave gs ts)
  | g :: _, [] => g
  | [], _ => []

/-- The result of a splice: the text with the accepted matches replaced, and their number. -/
structure Spliced (text : Str) (rule : CompiledRule) (ms : List Match) (result : Str × Nat) : Prop where
  cut : text = interleave (gaps text 0 ms) (ms.map (matched text))
  out : result.1 = interleave (gaps text 0 ms) (ms.map (rule.written text))
  count : result.2 = ms.countP (rule.accepted text)
  unchanged : result.2 = 0 → result.1 = text

theorem slice_append {text : Str} {a b c : Nat} (hab : a ≤ b) (hbc : b ≤ c) :
    slice text a b ++ slice text b c = slice text a c := by
  unfold slice
  obtain ⟨m, rfl⟩ := Nat.exists_eq_add_of_le hab
  obtain ⟨n, rfl⟩ := Nat.exists_eq_add_of_le hbc
  have hm : a + m - a = m := by omega
  have hn : a + m + n - (a + m) = n := by omega
  have hmn : a + m + n - a = m + n := by omega
  rw [hm, hn, hmn, ← List.drop_drop, List.take_add]

theorem slice_append_drop {text : Str} {a b : Nat} (hab : a ≤ b) :
    slice text a b ++ text.drop b = text.drop a := by
  unfold slice
  obtain ⟨m, rfl⟩ := Nat.exists_eq_add_of_le hab
  have hm : a + m - a = m := by omega
  rw [hm, ← List.drop_drop, List.take_append_drop]

/-- The loop has written everything before `last`, and the matches before `pos` are behind it. -/
theorem spliceFrom_eq {text : Str} (rule : CompiledRule) {ms : List Match} {last pos : Nat}
    (hms : InOrder text ms) (hlast : last ≤ pos) (hpos : ∀ m ∈ ms, pos ≤ m.start) :
    spliceFrom text rule last ms =
      (slice text last pos ++ interleave (gaps text pos ms) (ms.map (rule.written text)),
        ms.countP (rule.accepted text)) := by
  induction ms generalizing last pos with
  | nil =>
    rw [spliceFrom, gaps, List.map_nil, interleave, slice_append_drop hlast]
    rfl
  | cons m ms ih =>
    obtain ⟨hrange, hrest⟩ := List.forall_mem_cons.mp hms.inRange
    obtain ⟨hafter, hincreasing⟩ := List.pairwise_cons.mp hms.increasing
    have hms' : InOrder text ms := ⟨hrest, hincreasing⟩
    have hstart := hpos m List.mem_cons_self
    have hnot : ¬ m.start < last := by omega
    have hbefore := @slice_append text _ _ _ hlast hstart
    have hreject : (rule.validate.any fun ok => !ok (slice text m.start m.stop)) = !rule.accepted text m := by
      rw [CompiledRule.accepted, Bool.not_not]
      rfl
    rw [spliceFrom, if_neg hnot, hreject, gaps, List.map_cons, interleave, List.countP_cons]
    cases hacc : rule.accepted text m with
    | false =>
      have hwritten : rule.written text m = slice text m.start m.stop := by
        rw [CompiledRule.written, hacc]
        rfl
      have hmatch := @slice_append text _ _ _ (Nat.le_trans hlast hstart) hrange.1
      rw [Bool.not_false, if_pos rfl, ih hms' (by omega) hafter, hwritten, ← hmatch, ← hbefore]
      simp
    | true =>
      have hwritten : rule.written text m = replacement rule m := by
        rw [CompiledRule.written, hacc]
        rfl
      rw [Bool.not_true, if_neg Bool.false_ne_true, ih hms' (Nat.le_refl _) hafter, hwritten,
        ← hbefore, slice_self]
      simp

/-- With the texts of the matches themselves the cut text is whole. -/
theorem interleave_matched {text : Str} {ms : List Match} {pos : Nat} (hms : InOrder text ms)
    (hpos : ∀ m ∈ ms, pos ≤ m.start) :
    interleave (gaps text pos ms) (ms.map (matched text)) = text.drop pos := by
  induction ms generalizing pos with
  | nil => rfl
  | cons m ms ih =>
    obtain ⟨hrange, hrest⟩ := List.forall_mem_cons.mp hms.inRange
    obtain ⟨hafter, hincreasing⟩ := List.pairwise_cons.mp hms.increasing
    rw [gaps, List.map_cons, interleave, ih ⟨hrest, hincreasing⟩ hafter, matched,
      slice_append_drop hrange.1, slice_append_drop (hpos m List.mem_cons_self)]

theorem written_of_countP {text : Str} {rule : CompiledRule} {ms : List Match}
    (h : ms.countP (rule.accepted text) = 0) : ms.map (rule.written text) = ms.map (matched text) := by
  apply List.map_congr_left
  intro m hm
  rw [CompiledRule.written, if_neg (List.countP_eq_zero.mp h m hm)]

theorem splice_exact (text : Str) (rule : CompiledRule) (ms : List Match) (h : InOrder text ms) :
    Spliced text rule ms (splice text rule ms) := by
  have hloop := spliceFrom_eq rule h (Nat.le_refl 0) fun m _ => Nat.zero_le m.start
  have hwhole := interleave_matched h fun m _ => Nat.zero_le m.start
  rw [slice_self, List.nil_append] at hloop
  rw [List.drop_zero] at hwhole
  unfold splice
  rw [hloop]
  dsimp only
  by_cases hnone : ms.countP (rule.accepted text) = 0
  · rw [if_pos hnone]
    exact ⟨hwhole.symm, by rw [written_of_countP hnone, hwhole], hnone.symm, fun _ => rfl⟩
  · rw [if_neg hnone]
    exact ⟨hwhole.symm, rfl, rfl, fun hzero => absurd hzero hnone⟩

theorem run_bounds {r : Regex} {p q : Pos} (h : q ∈ r.run { p with groups := [] }) :
    p.offset ≤ q.offset ∧ q.offset + q.rest.length = p.offset + p.rest.length := by
  obtain ⟨u, _, hread⟩ := run_sound r _ q h
  have hoffset := hread.offset
  have hrest := congrArg List.length hread.rest
  dsimp only at hoffset hrest
  rw [List.length_append] at hrest
  omega

theorem findFrom_bounds {r : Regex} {fuel : Nat} {p : Pos} {m : Match} {q : Pos}
    (h : r.findFrom fuel p = some (m, q)) :
    p.offset ≤ m.start ∧ m.start ≤ m.stop ∧ q.offset = m.stop ∧
      q.offset + q.rest.length = p.offset + p.rest.length := by
  induction fuel generalizing p with
  | zero =>
    cases hrun : r.run { p with groups := [] } with
    | nil =>
      rw [findFrom_end 0 hrun (Or.inr rfl)] at h
      cases h
    | cons q' qs =>
      rw [findFrom_head 0 hrun] at h
      cases h
      have hbounds := run_bounds (hrun ▸ List.mem_cons_self)
      exact ⟨Nat.le_refl _, hbounds.1, rfl, hbounds.2⟩
  | succ fuel ih =>
    cases hrun : r.run { p with groups := [] } with
    | nil =>
      cases hc : p.rest with
      | nil =>
        rw [findFrom_end _ hrun (Or.inl hc)] at h
        cases h
      | cons c cs =>
        rw [findFrom_next fuel hrun hc] at h
        have hbounds := ih h
        dsimp only at hbounds
        rw [List.length_cons]
        omega
    | cons q' qs =>
      rw [findFrom_head _ hrun] at h
      cases h
      have hbounds := run_bounds (hrun ▸ List.mem_cons_self)
      exact ⟨Nat.le_refl _, hbounds.1, rfl, hbounds.2⟩

/-- The matches behind a position, which the text ends `size` characters after its beginning. -/
structure Behind (size offset : Nat) (ms : List Match) : Prop where
  bounds : ∀ m ∈ ms, offset ≤ m.start ∧ m.start ≤ m.stop ∧ m.stop ≤ size
  increasing : ms.Pairwise fun m n => m.stop ≤ n.start

theorem Behind.nil (size offset : Nat) : Behind size offset [] :=
  ⟨fun _ hm => (by cases hm), .nil⟩

theorem Behind.cons {size offset : Nat} {m : Match} {ms : List Match} (h : Behind size m.stop ms)
    (hstart : offset ≤ m.start) (hle : m.start ≤ m.stop) (hstop : m.stop ≤ size) :
    Behind size offset (m :: ms) where
  bounds := by
    intro n hn
    rcases List.mem_cons.mp hn with rfl | hn
    · exact ⟨hstart, hle, hstop⟩
    · have hbounds := h.bounds n hn
      omega
  increasing := List.pairwise_cons.mpr ⟨fun n hn => (h.bounds n hn).1, h.increasing⟩

theorem Behind.weaken {size offset offset' : Nat} {ms : List Match} (h : Behind size offset ms)
    (hle : offset' ≤ offset) : Behind size offset' ms where
  bounds := by
    intro m hm
    have hbounds := h.bounds m hm
    omega
  increasing := h.increasing

/-- The search goes on behind every match, one character further when the match is empty. -/
theorem behind_findAllFrom (r : Regex) (n : Nat) (prevEnd : Option Nat) (p : Pos) :
    Behind (p.offset + p.rest.length) p.offset (r.findAllFrom n prevEnd p) := by
  induction n generalizing prevEnd p with
  | zero => exact .nil _ _
  | succ n ih =>
    cases hfind : r.findFrom p.rest.length p with
    | none =>
      rw [findAllFrom, hfind]
      exact .nil _ _
    | some found =>
      obtain ⟨m, q⟩ := found
      obtain ⟨hstart, hle, hq, hsize⟩ := findFrom_bounds hfind
      rw [findAllFrom_of_found n prevEnd hfind]
      have hmore : Behind (p.offset + p.rest.length) m.stop (followers r n m p q) := by
        unfold followers
        split
        · rename_i hempty
          cases hrest : p.rest with
          | nil => exact .nil _ _
          | cons c cs =>
            have hnext := ih (some m.stop) ⟨p.offset + 1, some c, cs, []⟩
            dsimp only at hnext ⊢
            have hlen : p.offset + (c :: cs).length = p.offset + 1 + cs.length := by
              rw [List.length_cons]
              omega
            rw [hlen]
            exact hnext.weaken (by omega)
        · have hnext := ih (some m.stop) { q with groups := [] }
          dsimp only at hnext
          rw [hsize] at hnext
          exact hnext.weaken (by omega)
      split
      · exact hmore.cons hstart hle (by omega)
      · exact hmore.weaken (by omega)

theorem inOrder_findAll (r : Regex) (text : Str) : InOrder text (r.findAll text) := by
  have hbehind := behind_findAllFrom r (text.length + 1) none ⟨0, none, text, []⟩
  dsimp only at hbehind
  rw [Nat.zero_add] at hbehind
  exact ⟨fun m hm => (hbehind.bounds m hm).2, hbehind.increasing⟩

/-- Whatever matches in order it is given, the rule splices the text; and it is given those of its
pattern, which are in order. -/
theorem applyRule_splices (text : Str) (rule : CompiledRule) :
    (∀ ms, InOrder text ms → Spliced text rule ms (splice text rule ms)) ∧
      InOrder text (rule.re.findAll text) ∧ applyRule text rule = splice text rule (rule.re.findAll text) :=
  ⟨splice_exact text rule, inOrder_findAll rule.re text, rfl⟩

/-- A rule that does not accept the match `ab`, and writes a group and a mark for any other. -/
def markRule : CompiledRule :=
  ⟨['x'], .empty, some fun u => u ≠ ['a', 'b'], [.group 1, .text ['!']]⟩

/-- A rejected match, a match beside it, an empty one and another rejected one. -/
def markMatches : List Match := [⟨0, 2, []⟩, ⟨2, 3, [(1, ['c'])]⟩, ⟨3, 3, []⟩, ⟨3, 5, []⟩]

theorem spliced_markMatches : Spliced "abcab".toList markRule markMatches ("abc!!ab".toList, 2) := by
  have hrun : splice "abcab".toList markRule markMatches = ("abc!!ab".toList, 2) := by decide
  rw [← hrun]
  exact (applyRule_splices "abcab".toList markRule).1 markMatches ⟨by decide, by decide⟩

end Janus.Redaction
