import Janus.Lib.Text

/-!
# Rewritten texts

A text that is rewritten from left to right is a list of edits: characters that stay, and
parts that are cut out and replaced by another text. A word that no replacement can be
part of occurs in the result only where it stood before (`infix_target`), and where nothing
of a cut is copied it is kept there (`exists_kept`).
-/

namespace Janus

set_option autoImplicit false

theorem infix_append_cons {α : Type} {v x y : List α} {c : α} (hc : c ∉ v) :
    v <:+: x ++ c :: y ↔ v <:+: x ∨ v <:+: y := by
  constructor
  · rintro ⟨s, t, h⟩
    rcases List.append_eq_append_iff.mp h with ⟨a, rfl, _⟩ | ⟨a, ha, hy⟩
    · exact Or.inl ⟨s, a, rfl⟩
    · cases a with
      | nil => exact Or.inl ⟨s, [], by simpa using ha⟩
      | cons d a =>
        cases hy
        rcases List.append_eq_append_iff.mp ha with ⟨b, _, rfl⟩ | ⟨b, _, hb⟩
        · exact absurd (List.mem_append_right b List.mem_cons_self) hc
        · cases b with
          | nil =>
            rw [List.nil_append] at hb
            exact absurd (hb ▸ List.mem_cons_self) hc
          | cons e b =>
            cases hb
            exact Or.inr ⟨b, t, rfl⟩
  · rintro (⟨s, t, rfl⟩ | ⟨s, t, rfl⟩)
    · exact ⟨s, t ++ c :: y, by simp⟩
    · exact ⟨x ++ c :: s, t, by simp⟩

/-- A character that stays, or a part of which the first `copied` characters stay and the
others are replaced. -/
inductive Edit where
  | kept (c : Char)
  | cut (u : Str) (copied : Nat) (ins : Str)
  deriving Repr, DecidableEq

namespace Edit

def source : Edit → Str
  | kept c => [c]
  | cut u _ _ => u

def target : Edit → Str
  | kept c => [c]
  | cut u copied ins => u.take copied ++ ins

def isCut : Edit → Bool
  | kept _ => false
  | cut _ _ _ => true

end Edit

namespace Edits

def source (es : List Edit) : Str := es.flatMap Edit.source

def target (es : List Edit) : Str := es.flatMap Edit.target

def cuts (es : List Edit) : Nat := es.countP Edit.isCut

def keep (s : Str) : List Edit := s.map Edit.kept

@[simp] theorem source_nil : source [] = [] := rfl

@[simp] theorem target_nil : target [] = [] := rfl

@[simp] theorem cuts_nil : cuts [] = 0 := rfl

@[simp] theorem source_append (es fs : List Edit) : source (es ++ fs) = source es ++ source fs :=
  List.flatMap_append

@[simp] theorem target_append (es fs : List Edit) : target (es ++ fs) = target es ++ target fs :=
  List.flatMap_append

@[simp] theorem cuts_append (es fs : List Edit) : cuts (es ++ fs) = cuts es + cuts fs :=
  List.countP_append

@[simp] theorem source_cons (e : Edit) (es : List Edit) :
    source (e :: es) = e.source ++ source es := rfl

@[simp] theorem target_cons (e : Edit) (es : List Edit) :
    target (e :: es) = e.target ++ target es := rfl

@[simp] theorem cuts_cons_kept (c : Char) (es : List Edit) : cuts (.kept c :: es) = cuts es :=
  List.countP_cons_of_neg Bool.false_ne_true

@[simp] theorem cuts_cons_cut (u ins : Str) (copied : Nat) (es : List Edit) :
    cuts (.cut u copied ins :: es) = cuts es + 1 :=
  List.countP_cons_of_pos rfl

@[simp] theorem source_keep (s : Str) : source (keep s) = s := by
  induction s with
  | nil => rfl
  | cons c s ih => exact congrArg (c :: ·) ih

@[simp] theorem target_keep (s : Str) : target (keep s) = s := by
  induction s with
  | nil => rfl
  | cons c s ih => exact congrArg (c :: ·) ih

@[simp] theorem cuts_keep (s : Str) : cuts (keep s) = 0 := by
  induction s with
  | nil => rfl
  | cons c s ih => exact (cuts_cons_kept c _).trans ih

theorem eq_keep_of_cuts {es : List Edit} (h : cuts es = 0) : es = keep (source es) := by
  induction es with
  | nil => rfl
  | cons e es ih =>
    cases e with
    | kept c =>
      have heq := ih (by simpa using h)
      show Edit.kept c :: es = Edit.kept c :: keep (source es)
      rw [← heq]
    | cut u copied ins => simp at h

/-- Without a cut the text stays as it is. -/
theorem target_eq_source {es : List Edit} (h : cuts es = 0) : target es = source es := by
  rw [eq_keep_of_cuts h, target_keep, source_keep]

/-- A replacement that keeps a word from reaching into it: between two characters that are not of
the word stands what does not contain it, and before them are no characters of the word. -/
def Shields (v ins : Str) : Prop :=
  ∃ sign b body e, ins = sign ++ b :: (body ++ [e]) ∧ (∀ c ∈ sign, c ∉ v) ∧ b ∉ v ∧ e ∉ v ∧
    ¬ v <:+: body

theorem infix_of_infix_append {v y sign : Str} (hv : v ≠ []) (hsign : ∀ c ∈ sign, c ∉ v)
    (h : v <:+: y ++ sign) : v <:+: y := by
  cases sign with
  | nil => rwa [List.append_nil] at h
  | cons c cs =>
    rcases (infix_append_cons (hsign c List.mem_cons_self)).mp h with hy | hcs
    · exact hy
    · obtain ⟨d, hd⟩ := List.exists_mem_of_ne_nil v hv
      exact absurd hd (hsign d (List.mem_cons_of_mem c (hcs.subset hd)))

/-- The word occurs in the result where it occurs in the text. -/
theorem infix_target {v : Str} {es : List Edit}
    (h : ∀ u copied ins, Edit.cut u copied ins ∈ es → Shields v ins) (x : Str)
    (hv : v <:+: x ++ target es) : v <:+: x ++ source es := by
  induction es generalizing x with
  | nil => exact hv
  | cons e es ih =>
    have hes : ∀ u copied ins, Edit.cut u copied ins ∈ es → Shields v ins :=
      fun u copied ins hmem => h u copied ins (List.mem_cons_of_mem e hmem)
    cases e with
    | kept c =>
      have hrec := ih hes (x ++ [c])
      simp only [target_cons, source_cons, Edit.target, Edit.source, ← List.append_assoc] at hv ⊢
      exact hrec hv
    | cut u copied ins =>
      obtain ⟨sign, b, body, e, rfl, hsign, hb, he, hbody⟩ := h u copied ins List.mem_cons_self
      have hne : v ≠ [] := by
        rintro rfl
        exact hbody List.nil_infix
      have htext : x ++ target (.cut u copied (sign ++ b :: (body ++ [e])) :: es) =
          (x ++ u.take copied ++ sign) ++ b :: (body ++ e :: target es) := by
        simp [Edit.target]
      rw [htext, infix_append_cons hb, infix_append_cons he] at hv
      rcases hv with hfirst | hin | hlast
      · have hx : v <:+: x ++ u.take copied := infix_of_infix_append hne hsign hfirst
        have hprefix : x ++ u.take copied <+: x ++ (u ++ source es) := by
          apply (List.prefix_append_right_inj x).mpr
          exact (List.take_prefix copied u).trans (List.prefix_append u _)
        exact hx.trans hprefix.isInfix
      · exact absurd hin hbody
      · have hrec : v <:+: source es := ih hes [] hlast
        exact hrec.trans ⟨x ++ u, [], by simp [Edit.source]⟩

/-- What begins at a place where no replacement can begin is kept. -/
theorem kept_of_target {v z : Str} {es : List Edit}
    (h : ∀ u copied ins, Edit.cut u copied ins ∈ es → copied = 0 ∧ ∃ b rest, ins = b :: rest ∧ b ∉ v)
    (ht : target es = v ++ z) : ∃ gs, es = keep v ++ gs ∧ target gs = z := by
  induction v generalizing es with
  | nil => exact ⟨es, rfl, ht⟩
  | cons c v ih =>
    cases es with
    | nil => cases ht
    | cons e es =>
      have hes : ∀ u copied ins, Edit.cut u copied ins ∈ es →
          copied = 0 ∧ ∃ b rest, ins = b :: rest ∧ b ∉ v := by
        intro u copied ins hmem
        obtain ⟨hzero, b, rest, hins, hb⟩ := h u copied ins (List.mem_cons_of_mem e hmem)
        exact ⟨hzero, b, rest, hins, fun hv => hb (List.mem_cons_of_mem c hv)⟩
      cases e with
      | kept d =>
        obtain ⟨rfl, hrest⟩ := List.cons.inj ht
        obtain ⟨gs, rfl, hgs⟩ := ih hes hrest
        exact ⟨gs, rfl, hgs⟩
      | cut u copied ins =>
        obtain ⟨rfl, b, rest, rfl, hb⟩ := h u copied ins List.mem_cons_self
        obtain ⟨rfl, _⟩ := List.cons.inj ht
        exact absurd List.mem_cons_self hb

theorem Shields.head {v ins : Str} (h : Shields v ins) : ∃ b rest, ins = b :: rest ∧ b ∉ v := by
  obtain ⟨sign, b, body, e, rfl, hsign, hb, _⟩ := h
  cases sign with
  | nil => exact ⟨b, body ++ [e], rfl, hb⟩
  | cons c sign => exact ⟨c, _, rfl, hsign c List.mem_cons_self⟩

/-- A word that ends behind a replacement does not begin in it. -/
theorem Shields.apart {v x y z t : Str} (h : Shields v (x ++ y)) (hy : y ≠ []) (ht : v ++ z = y ++ t) :
    v = [] := by
  obtain ⟨sign, b, body, e, hins, hsign, hb, he, hbody⟩ := h
  by_contra hv
  have hlast : ∃ y', y = y' ++ [e] := by
    refine ⟨y.dropLast, ?_⟩
    have hend := congrArg List.getLast? hins
    rw [List.getLast?_append_of_ne_nil x hy] at hend
    have hge : y.getLast? = some e := by
      rw [hend, List.getLast?_append_of_ne_nil sign (List.cons_ne_nil b _), ← List.cons_append,
        List.getLast?_concat]
    rw [List.dropLast_append_getLast? e hge]
  obtain ⟨y', rfl⟩ := hlast
  rcases List.append_eq_append_iff.mp ht with ⟨a, ha, _⟩ | ⟨a, ha, _⟩
  · -- the word ends in the replacement
    rcases List.eq_nil_or_concat a with rfl | ⟨a', c, rfl⟩
    · rw [List.append_nil] at ha
      exact he (ha ▸ List.mem_append_right y' List.mem_cons_self)
    · have hsub : v <:+: sign ++ b :: (body ++ [e]) := by
        rw [← hins, ha]
        exact ⟨x, a' ++ [c], by simp⟩
      rcases (infix_append_cons hb).mp hsub with hin | hin
      · obtain ⟨d, hd⟩ := List.exists_mem_of_ne_nil v hv
        exact hsign d (hin.subset hd) hd
      · rcases (infix_append_cons he).mp hin with hin | hin
        · exact hbody hin
        · exact hv (List.infix_nil.mp hin)
  · exact he (ha ▸ by simp)

/-- A word that stands in the result has been kept, where nothing of a cut is copied. -/
theorem exists_kept {v x z : Str} (hv : v ≠ []) {es : List Edit}
    (h : ∀ u copied ins, Edit.cut u copied ins ∈ es → copied = 0 ∧ Shields v ins)
    (ht : target es = x ++ (v ++ z)) :
    ∃ fs gs, es = fs ++ (keep v ++ gs) ∧ target fs = x ∧ target gs = z := by
  induction es generalizing x with
  | nil =>
    obtain ⟨_, hvz⟩ := List.append_eq_nil_iff.mp ht.symm
    exact absurd (List.append_eq_nil_iff.mp hvz).1 hv
  | cons e es ih =>
    have hes : ∀ u copied ins, Edit.cut u copied ins ∈ es → copied = 0 ∧ Shields v ins :=
      fun u copied ins hmem => h u copied ins (List.mem_cons_of_mem e hmem)
    have hbehind {a : Str} (hsplit : e.target ++ a = x) (hrest : target es = a ++ (v ++ z)) :
        ∃ fs gs, e :: es = fs ++ (keep v ++ gs) ∧ target fs = x ∧ target gs = z := by
      obtain ⟨fs, gs, rfl, rfl, hgs⟩ := ih hes hrest
      exact ⟨e :: fs, gs, rfl, hsplit, hgs⟩
    cases x with
    | nil =>
      refine ⟨[], ?_⟩
      have hhead : ∀ u copied ins, Edit.cut u copied ins ∈ e :: es →
          copied = 0 ∧ ∃ b rest, ins = b :: rest ∧ b ∉ v :=
        fun u copied ins hmem => ⟨(h u copied ins hmem).1, (h u copied ins hmem).2.head⟩
      obtain ⟨gs, hgs⟩ := kept_of_target hhead ht
      exact ⟨gs, hgs.1, rfl, hgs.2⟩
    | cons c x =>
      rw [target_cons] at ht
      rcases List.append_eq_append_iff.mp ht with ⟨a, ha, hrest⟩ | ⟨a, ha, hrest⟩
      · exact hbehind ha.symm hrest
      · cases e with
        | kept d =>
          obtain rfl : a = [] := by
            have hlen := congrArg List.length ha
            simp [Edit.target] at hlen
            exact hlen.2
          exact hbehind (a := []) (by simpa using ha) hrest.symm
        | cut u copied ins =>
          obtain ⟨rfl, hshields⟩ := h u copied ins List.mem_cons_self
          rw [Edit.target, List.take_zero, List.nil_append] at ha
          by_cases hnil : a = []
          · subst hnil
            exact hbehind (a := []) (by simpa [Edit.target] using ha) hrest.symm
          · exact absurd ((ha ▸ hshields).apart hnil hrest) hv

end Edits
end Janus
