import Janus.Cleanness
import Janus.Lib.RegexPart

/-!
# Where the rules cut

The matches of a rule begin and end between words (`trimmed_scan`), so what stands beside a
cut is at the boundary of a word before the rule has run and after it.
-/

namespace Janus.Redaction

set_option autoImplicit false

open Regex

theorem severed_of_append {x y z : Str} (h : Severed (x ++ y) z) : Severed y z := by
  cases y using List.reverseRecOn with
  | nil => exact severed_nil z
  | append_singleton y c =>
    rw [← List.append_assoc] at h
    unfold Severed at h ⊢
    rw [List.getLast?_concat] at h ⊢
    exact h

theorem severed_append {x y z : Str} (h : Severed x (y ++ z)) : Severed x y := by
  cases y with
  | nil => exact .of_right rfl
  | cons c y => exact h

/-- Every cut of the edits begins, behind what it copies, and ends between words; `x` stands before
the text. -/
def Trimmed : Str → List Edit → Prop
  | _, [] => True
  | x, .kept c :: es => Trimmed (x ++ [c]) es
  | x, .cut u copied _ :: es =>
    Severed (x ++ u.take copied) (u.drop copied ++ Edits.source es) ∧
      Severed (x ++ u) (Edits.source es) ∧ Trimmed (x ++ u) es

theorem trimmed_keep {x u : Str} {es : List Edit} (h : Trimmed (x ++ u) es) :
    Trimmed x (Edits.keep u ++ es) := by
  induction u generalizing x with
  | nil => rwa [List.append_nil] at h
  | cons c u ih => exact ih (by simpa using h)

/-- A rule whose matches begin and end between words. -/
def CompiledRule.Trims (rule : CompiledRule) : Prop :=
  ∀ x text n gs, rule.re.first x.getLast? text = some (n, gs) →
    Severed (x ++ (text.take n).take (rule.copied gs))
        ((text.take n).drop (rule.copied gs) ++ text.drop n) ∧
      Severed (x ++ text.take n) (text.drop n)

theorem trimmed_scan {rule : CompiledRule} (h : rule.Sound) (ht : rule.Trims) (x text : Str) :
    Trimmed x (scan rule x.getLast? text) := by
  induction hk : text.length using Nat.strong_induction_on generalizing x text with
  | _ k ih =>
    cases text with
    | nil => simp [Trimmed]
    | cons c cs =>
      cases hf : rule.re.first x.getLast? (c :: cs) with
      | none =>
        have hrec := ih cs.length (by simp [← hk]) (x ++ [c]) cs rfl
        rw [List.getLast?_concat] at hrec
        rw [scan_none hf]
        exact hrec
      | some m =>
        obtain ⟨n, gs⟩ := m
        have hpos := first_pos h hf
        have htake := List.length_take_of_le (first_sound hf).1
        have hlt : ((c :: cs).drop n).length < k := by
          rw [List.length_drop, ← hk]
          simp only [List.length_cons]
          omega
        have hlast : (x ++ (c :: cs).take n).getLast? = ((c :: cs).take n).getLast? := by
          apply List.getLast?_append_of_ne_nil
          intro hnil
          rw [hnil, List.length_nil] at htake
          omega
        have hrec := ih _ hlt (x ++ (c :: cs).take n) ((c :: cs).drop n) rfl
        rw [hlast] at hrec
        rw [scan_some h hf]
        unfold CompiledRule.edits
        split
        · exact trimmed_keep hrec
        · obtain ⟨hstart, hend⟩ := ht x (c :: cs) n gs hf
          rw [List.singleton_append]
          refine ⟨?_, ?_, hrec⟩
          · rwa [source_scan h]
          · rwa [source_scan h]

theorem trims_of_bounded {rule : CompiledRule} (hb : rule.re.beginsBounded = true)
    (he : rule.re.endsBounded = true) (htpl : rule.replaceTpl = []) : rule.Trims := by
  intro x text n gs hf
  have hcopied : rule.copied gs = 0 := by
    rw [CompiledRule.copied, htpl]
  rw [hcopied, List.take_zero, List.drop_zero, List.append_nil, List.take_append_drop]
  exact ⟨severed_before hb hf, severed_behind he hf⟩

/-- What stands at a cut. -/
theorem Trimmed.cut {x u ins : Str} {copied : Nat} {fs gs : List Edit}
    (h : Trimmed x (fs ++ .cut u copied ins :: gs)) :
    Severed (x ++ Edits.source fs ++ u.take copied) (u.drop copied ++ Edits.source gs) ∧
      Severed (x ++ Edits.source fs ++ u) (Edits.source gs) := by
  induction fs generalizing x with
  | nil =>
    obtain ⟨hstart, hend, _⟩ := h
    rw [Edits.source_nil, List.append_nil]
    exact ⟨hstart, hend⟩
  | cons e fs ih =>
    cases e with
    | kept c =>
      have hrest := ih (x := x ++ [c]) h
      simpa [Edit.source] using hrest
    | cut v n ins' =>
      have hrest := ih (x := x ++ v) h.2.2
      simpa [Edit.source] using hrest

end Janus.Redaction
