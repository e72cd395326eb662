import Janus.Lib.Edits

/-!
# Where the characters of a rewritten text come from

The characters of a text are marked with their positions, and edits carry the marks along:
what is inserted has none. A part that no cut covers stays together (`split_of_uncovered`),
and what a cut does not copy is gone (`unmarked_of_cut`).
-/

namespace Janus

set_option autoImplicit false

/-- A text whose characters know their positions in another one. -/
abbrev Marked : Type := List (Char × Option Nat)

namespace Marked

def plain (m : Marked) : Str := m.map Prod.fst

def marks (m : Marked) : List Nat := m.filterMap Prod.snd

/-- The text with the positions of its characters, the first of which is `n`. -/
def labelFrom : Nat → Str → Marked
  | _, [] => []
  | n, c :: s => (c, some n) :: labelFrom (n + 1) s

@[simp] theorem plain_append (m m' : Marked) : plain (m ++ m') = plain m ++ plain m' := List.map_append

@[simp] theorem length_plain (m : Marked) : (plain m).length = m.length := List.length_map _

@[simp] theorem marks_append (m m' : Marked) : marks (m ++ m') = marks m ++ marks m' :=
  List.filterMap_append

theorem mem_marks {m : Marked} {i : Nat} : i ∈ marks m ↔ ∃ c, (c, some i) ∈ m := by
  constructor
  · intro hi
    obtain ⟨⟨c, o⟩, hmem, rfl⟩ := List.mem_filterMap.mp hi
    exact ⟨c, hmem⟩
  · rintro ⟨c, hmem⟩
    exact List.mem_filterMap.mpr ⟨_, hmem, rfl⟩

@[simp] theorem plain_labelFrom (n : Nat) (s : Str) : plain (labelFrom n s) = s := by
  induction s generalizing n with
  | nil => rfl
  | cons c s ih => exact congrArg (c :: ·) (ih (n + 1))

@[simp] theorem length_labelFrom (n : Nat) (s : Str) : (labelFrom n s).length = s.length := by
  rw [← length_plain, plain_labelFrom]

theorem labelFrom_append (n : Nat) (s t : Str) :
    labelFrom n (s ++ t) = labelFrom n s ++ labelFrom (n + s.length) t := by
  induction s generalizing n with
  | nil => rfl
  | cons c s ih =>
    have hlen : n + (c :: s).length = n + 1 + s.length := by
      rw [List.length_cons]
      omega
    rw [hlen]
    exact congrArg ((c, some n) :: ·) (ih (n + 1))

theorem marks_labelFrom (n : Nat) (s : Str) : marks (labelFrom n s) = List.range' n s.length := by
  induction s generalizing n with
  | nil => rfl
  | cons c s ih => exact congrArg (n :: ·) (ih (n + 1))

theorem some_of_mem_labelFrom {n : Nat} {s : Str} {x : Char × Option Nat} (h : x ∈ labelFrom n s) :
    x.2.isSome = true := by
  induction s generalizing n with
  | nil => cases h
  | cons c s ih =>
    rcases List.mem_cons.mp h with rfl | hx
    · rfl
    · exact ih hx

theorem drop_labelFrom (n k : Nat) (s : Str) :
    (labelFrom n s).drop k = labelFrom (n + k) (s.drop k) := by
  induction k generalizing n s with
  | zero => rfl
  | succ k ih =>
    cases s with
    | nil => rfl
    | cons c s =>
      have hshift : n + (k + 1) = n + 1 + k := by omega
      rw [hshift]
      exact ih (n + 1) s

end Marked

namespace Edits

open Marked

/-- The marked text after the edits. -/
def trace : List Edit → Marked → Marked
  | [], _ => []
  | .kept _ :: es, m => m.take 1 ++ trace es (m.drop 1)
  | .cut u copied ins :: es, m =>
    (m.take u.length).take copied ++ ins.map (fun c => (c, none)) ++ trace es (m.drop u.length)

/-- The characters that stand in a cut, those that it copies included. -/
def covered : List Edit → Marked → Marked
  | [], _ => []
  | .kept _ :: es, m => covered es (m.drop 1)
  | .cut u _ _ :: es, m => m.take u.length ++ covered es (m.drop u.length)

theorem plain_take (m : Marked) (n : Nat) : plain (m.take n) = (plain m).take n := List.map_take

theorem plain_drop (m : Marked) (n : Nat) : plain (m.drop n) = (plain m).drop n := List.map_drop

theorem plain_trace {es : List Edit} {m : Marked} (h : plain m = source es) :
    plain (trace es m) = target es := by
  induction es generalizing m with
  | nil => rfl
  | cons e es ih =>
    cases e with
    | kept c =>
      have hdrop : plain (m.drop 1) = source es := by
        rw [plain_drop, h]
        rfl
      rw [trace, plain_append, plain_take, h, ih hdrop]
      rfl
    | cut u copied ins =>
      have hdrop : plain (m.drop u.length) = source es := by
        rw [plain_drop, h, source_cons, Edit.source, List.drop_left]
      have hins : plain (ins.map fun c => (c, none)) = ins := by
        simp [plain, Function.comp_def]
      rw [trace, plain_append, plain_append, plain_take, plain_take, h, source_cons, Edit.source,
        List.take_left, hins, ih hdrop, target_cons, Edit.target]

theorem trace_append {es fs : List Edit} {m m' : Marked} (h : m.length = (source es).length) :
    trace (es ++ fs) (m ++ m') = trace es m ++ trace fs m' := by
  induction es generalizing m with
  | nil =>
    rw [List.length_eq_zero_iff.mp h]
    rfl
  | cons e es ih =>
    cases e with
    | kept c =>
      have hlen : 1 ≤ m.length := by
        rw [h]
        simp [Edit.source]
      rw [List.cons_append, trace, trace, List.take_append_of_le_length hlen,
        List.drop_append_of_le_length hlen, ih, List.append_assoc]
      rw [List.length_drop, h]
      simp [Edit.source]
    | cut u copied ins =>
      have hlen : u.length ≤ m.length := by
        rw [h]
        simp [Edit.source]
      rw [List.cons_append, trace, trace, List.take_append_of_le_length hlen,
        List.drop_append_of_le_length hlen, ih, List.append_assoc, List.append_assoc, List.append_assoc]
      rw [List.length_drop, h]
      simp [Edit.source]

theorem trace_keep (m : Marked) : trace (keep (plain m)) m = m := by
  induction m with
  | nil => rfl
  | cons x m ih => exact congrArg (x :: ·) ih

/-- No mark appears that was not there. -/
theorem marks_trace (es : List Edit) (m : Marked) : (marks (trace es m)).Sublist (marks m) := by
  induction es generalizing m with
  | nil => exact List.nil_sublist _
  | cons e es ih =>
    cases e with
    | kept c =>
      have hsplit : marks m = marks (m.take 1) ++ marks (m.drop 1) := by
        rw [← marks_append, List.take_append_drop]
      rw [trace, marks_append, hsplit]
      exact (List.Sublist.refl _).append (ih _)
    | cut u copied ins =>
      have hsplit : marks m = marks (m.take u.length) ++ marks (m.drop u.length) := by
        rw [← marks_append, List.take_append_drop]
      have hins : marks (ins.map fun c => (c, none)) = [] := by
        simp [marks]
      rw [trace, marks_append, marks_append, hins, List.append_nil, hsplit]
      exact ((List.take_sublist copied _).filterMap _).append (ih _)

theorem mem_of_mem_trace {es : List Edit} {m : Marked} {i : Nat} (h : i ∈ marks (trace es m)) :
    i ∈ marks m :=
  (marks_trace es m).subset h

/-- What a cut does not copy is gone. -/
theorem unmarked_of_cut {es fs : List Edit} {u ins : Str} {copied : Nat} {p w q : Marked}
    (hp : p.length = (source es).length) (hw : w.length = u.length)
    (hnodup : (marks (p ++ (w ++ q))).Nodup) {i : Nat} (hi : i ∈ marks (w.drop copied)) :
    i ∉ marks (trace (es ++ .cut u copied ins :: fs) (p ++ (w ++ q))) := by
  have hsplit : marks w = marks (w.take copied) ++ marks (w.drop copied) := by
    rw [← marks_append, List.take_append_drop]
  have hins : marks (ins.map fun c => (c, none)) = [] := by
    simp [marks]
  have hall : marks (p ++ (w ++ q)) =
      marks p ++ (marks (w.take copied) ++ (marks (w.drop copied) ++ marks q)) := by
    simp [hsplit]
  rw [hall] at hnodup
  have hmiddle := List.disjoint_of_nodup_append (List.nodup_append.mp hnodup).2.1
  have hlast := List.disjoint_of_nodup_append
    (List.nodup_append.mp (List.nodup_append.mp hnodup).2.1).2.1
  rw [trace_append hp, trace, ← hw, List.take_left, List.drop_left]
  simp only [marks_append, hins, List.append_nil, List.mem_append, not_or]
  refine ⟨?_, ?_, ?_⟩
  · intro hmem
    apply List.disjoint_of_nodup_append hnodup (mem_of_mem_trace hmem)
    simp [hi]
  · intro hmem
    exact hmiddle hmem (List.mem_append_left _ hi)
  · intro hmem
    exact hlast hi (mem_of_mem_trace hmem)

theorem kept_of_uncovered {es : List Edit} (hes : ∀ u copied ins, Edit.cut u copied ins ∈ es → u ≠ [])
    {f q : Marked} (hs : source es = plain (f ++ q)) (h : ∀ x ∈ f, x ∉ covered es (f ++ q)) :
    ∃ fs, es = keep (plain f) ++ fs ∧ source fs = plain q := by
  induction f generalizing es with
  | nil => exact ⟨es, rfl, hs⟩
  | cons x f ih =>
    cases es with
    | nil => cases hs
    | cons e es =>
      cases e with
      | kept c =>
        obtain ⟨hc, hrest⟩ := List.cons.inj hs
        have hes' : ∀ u copied ins, Edit.cut u copied ins ∈ es → u ≠ [] :=
          fun u copied ins hmem => hes u copied ins (List.mem_cons_of_mem _ hmem)
        have hf : ∀ y ∈ f, y ∉ covered es (f ++ q) :=
          fun y hy => h y (List.mem_cons_of_mem x hy)
        obtain ⟨fs, rfl, hfs⟩ := ih hes' hrest hf
        exact ⟨fs, congrArg (· :: (keep (plain f) ++ fs)) (congrArg Edit.kept hc), hfs⟩
      | cut u copied ins =>
        have hu := hes u copied ins List.mem_cons_self
        apply absurd _ (h x List.mem_cons_self)
        obtain ⟨c, cs, rfl⟩ := List.exists_cons_of_ne_nil hu
        exact List.mem_append_left _ List.mem_cons_self

/-- A part that no cut covers is kept. -/
theorem split_of_uncovered {es : List Edit}
    (hes : ∀ u copied ins, Edit.cut u copied ins ∈ es → u ≠ []) {p f q : Marked} (hf : f ≠ [])
    (hs : source es = plain (p ++ (f ++ q))) (h : ∀ x ∈ f, x ∉ covered es (p ++ (f ++ q))) :
    ∃ ds fs, es = ds ++ (keep (plain f) ++ fs) ∧ source ds = plain p ∧ source fs = plain q := by
  induction es generalizing p with
  | nil =>
    have hlen := congrArg List.length hs
    have hpos := List.length_pos_of_ne_nil hf
    simp only [source_nil, length_plain, List.length_append, List.length_nil] at hlen
    omega
  | cons e es ih =>
    have hes' : ∀ u copied ins, Edit.cut u copied ins ∈ es → u ≠ [] :=
      fun u copied ins hmem => hes u copied ins (List.mem_cons_of_mem _ hmem)
    cases p with
    | nil =>
      obtain ⟨fs, heq, hfs⟩ := kept_of_uncovered (f := f) hes hs h
      exact ⟨[], fs, heq, rfl, hfs⟩
    | cons x p =>
      cases e with
      | kept c =>
        obtain ⟨hc, hrest⟩ := List.cons.inj hs
        obtain ⟨ds, fs, rfl, hds, hfs⟩ := ih hes' hrest h
        exact ⟨.kept c :: ds, fs, rfl, congrArg₂ List.cons hc hds, hfs⟩
      | cut u copied ins =>
        by_cases hle : u.length ≤ (x :: p).length
        · have hdrop : (x :: p ++ (f ++ q)).drop u.length = (x :: p).drop u.length ++ (f ++ q) :=
            List.drop_append_of_le_length hle
          have hsource : source es = plain ((x :: p).drop u.length ++ (f ++ q)) := by
            rw [← hdrop, plain_drop, ← hs, source_cons, Edit.source, List.drop_left]
          have hcovered : ∀ y ∈ f, y ∉ covered es ((x :: p).drop u.length ++ (f ++ q)) := by
            intro y hy hmem
            rw [← hdrop] at hmem
            exact h y hy (List.mem_append_right _ hmem)
          obtain ⟨ds, fs, rfl, hds, hfs⟩ := ih hes' hsource hcovered
          refine ⟨.cut u copied ins :: ds, fs, rfl, ?_, hfs⟩
          have htake : u = plain ((x :: p).take u.length) := by
            have hcut := congrArg (List.take u.length) hs
            rw [source_cons, Edit.source, List.take_left, ← plain_take,
              List.take_append_of_le_length hle] at hcut
            exact hcut
          rw [source_cons, Edit.source, hds]
          conv_lhs => lhs; rw [htake]
          rw [← plain_append, List.take_append_drop]
        · -- the cut would reach into the part
          obtain ⟨y, f, rfl⟩ := List.exists_cons_of_ne_nil hf
          apply absurd _ (h y List.mem_cons_self)
          apply List.mem_append_left
          obtain ⟨k, hk⟩ : ∃ k, u.length = (x :: p).length + (k + 1) :=
            ⟨u.length - (x :: p).length - 1, by omega⟩
          rw [hk, List.take_length_add_append]
          exact List.mem_append_right _ List.mem_cons_self

/-- A cut that lies in the middle one of three parts. -/
theorem mem_middle {xs ys ds ms fs : List Edit} {e : Edit} (h : xs ++ e :: ys = ds ++ (ms ++ fs))
    (he : e.source ≠ []) (hlo : (source ds).length ≤ (source xs).length)
    (hhi : (source xs).length + e.source.length ≤ (source ds).length + (source ms).length) :
    ∃ xs' ys', ms = xs' ++ e :: ys' ∧ xs = ds ++ xs' := by
  have hpos := List.length_pos_of_ne_nil he
  have hfirst : ∃ xs', xs = ds ++ xs' ∧ xs' ++ e :: ys = ms ++ fs := by
    rcases List.append_eq_append_iff.mp h with ⟨ds', rfl, hds⟩ | ⟨xs', rfl, hxs⟩
    · cases ds' with
      | nil => exact ⟨[], by simp, hds⟩
      | cons d ds' =>
        cases hds
        simp only [source_append, source_cons, List.length_append] at hlo
        omega
    · exact ⟨xs', rfl, hxs.symm⟩
  obtain ⟨xs', rfl, hrest⟩ := hfirst
  rw [source_append, List.length_append] at hhi
  rcases List.append_eq_append_iff.mp hrest with ⟨ms', rfl, hms⟩ | ⟨ys', rfl, hys⟩
  · cases ms' with
    | nil =>
      simp only [List.append_nil] at hhi
      omega
    | cons d ms' =>
      cases hms
      exact ⟨xs', ms', rfl, rfl⟩
  · rw [source_append, List.length_append] at hhi
    omega

end Edits
end Janus
