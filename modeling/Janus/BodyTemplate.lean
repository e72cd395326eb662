import Janus.Gateway
import Janus.Lib.JsonCompact

/-!
# Body templates

A body template is JSON text in which a placeholder stands for a value or inside a
string literal. The client renders it argument by argument, as a replacement in the
text. Cut at its placeholders, the template is a list of segments, and where no
replacement meets anything else, rendering fills the segments one by one.
-/

namespace Janus.Gateway

set_option autoImplicit false

open Storage Vault JsonText

/-- A template cut at its placeholders; those that are a whole string literal are taken
with its quotes. -/
inductive Seg where
  | text (s : Str)
  | quoted (k : Str)
  | inner (k : Str)
  deriving Repr, DecidableEq

def quotedPlaceholder (k : Str) : Str := '"' :: placeholder k ++ ['"']

/-- What an argument is written as outside of a whole literal. -/
def unquoted (v : Json) : Str := Text.trim (· = '"') v.marshal

/-- A segment once the given arguments have been put in. -/
def Seg.at (done : Params) : Seg → Str
  | .text s => s
  | .quoted k => ((lookup k done).map Json.marshal).getD (quotedPlaceholder k)
  | .inner k => ((lookup k done).map unquoted).getD (placeholder k)

def render (done : Params) (segs : List Seg) : Str := segs.flatMap (Seg.at done)

/-- The text cut at the segments that satisfy the test. -/
def cutAt (p : Seg → Bool) (f : Seg → Str) (segs : List Seg) : List Text.Piece :=
  segs.map fun g => if p g then .mark else .text (f g)

/-- The segments between the two replacements of an argument. -/
def Seg.midway (done : Params) (k : Str) (v : Json) (g : Seg) : Str :=
  if g = .quoted k then v.marshal else g.at done

/-- Neither replacement of an argument meets anything but its own placeholders in the
template, and so on for the arguments after it. -/
def NoCapture (segs : List Seg) : Params → Params → Prop
  | _, [] => True
  | done, (k, v) :: rest =>
    Text.OnlyAtMarks (quotedPlaceholder k) (cutAt (· = .quoted k) (Seg.at done) segs) ∧
      Text.OnlyAtMarks (placeholder k) (cutAt (· = .inner k) (Seg.midway done k v) segs) ∧
      NoCapture segs ((k, v) :: done) rest

theorem flatten_cutAt (w : Str) (p : Seg → Bool) (f : Seg → Str) (segs : List Seg) :
    Text.flatten w (cutAt p f segs) = segs.flatMap fun g => if p g then w else f g := by
  induction segs with
  | nil => rfl
  | cons g segs ih =>
    simp only [cutAt, List.map_cons, List.flatMap_cons] at ih ⊢
    by_cases hp : p g = true
    · simp only [hp, if_true, Text.flatten, ih]
    · simp only [hp, if_false, Text.flatten, ih, Bool.false_eq_true]

theorem placeholder_ne_nil (k : Str) : placeholder k ≠ [] := by
  simp [placeholder]

/-- One argument put into the segments. -/
theorem renderParam_render {segs : List Seg} {done : Params} {k : Str} {v : Json}
    (hnew : lookup k done = none)
    (hq : Text.OnlyAtMarks (quotedPlaceholder k) (cutAt (· = .quoted k) (Seg.at done) segs))
    (hi : Text.OnlyAtMarks (placeholder k) (cutAt (· = .inner k) (Seg.midway done k v) segs)) :
    renderParam (render done segs) k v = render ((k, v) :: done) segs := by
  have hbefore : render done segs =
      Text.flatten (quotedPlaceholder k) (cutAt (· = .quoted k) (Seg.at done) segs) := by
    rw [flatten_cutAt, render]
    refine List.flatMap_congr fun g _ => ?_
    by_cases hg : g = .quoted k
    · simp [hg, Seg.at, hnew]
    · simp [hg]
  have hmid : Text.flatten v.marshal (cutAt (· = .quoted k) (Seg.at done) segs) =
      Text.flatten (placeholder k) (cutAt (· = .inner k) (Seg.midway done k v) segs) := by
    rw [flatten_cutAt, flatten_cutAt]
    refine List.flatMap_congr fun g _ => ?_
    by_cases hg : g = .inner k
    · simp [hg, Seg.at, hnew]
    · simp [hg, Seg.midway]
  have hafter : Text.flatten (unquoted v) (cutAt (· = .inner k) (Seg.midway done k v) segs) =
      render ((k, v) :: done) segs := by
    rw [flatten_cutAt, render]
    refine List.flatMap_congr fun g _ => ?_
    cases g with
    | text s => simp [Seg.midway, Seg.at]
    | quoted j =>
      by_cases hj : j = k
      · simp [hj, Seg.midway, Seg.at, lookup, hnew]
      · have hj' : ¬ k = j := fun he => hj he.symm
        simp [hj, hj', Seg.midway, Seg.at, lookup]
    | inner j =>
      by_cases hj : j = k
      · simp [hj, Seg.at, lookup, hnew]
      · have hj' : ¬ k = j := fun he => hj he.symm
        simp [hj, hj', Seg.midway, Seg.at, lookup]
  have hquoted : quotedPlaceholder k ≠ [] := List.cons_ne_nil _ _
  calc renderParam (render done segs) k v
      = Text.replaceAll (Text.replaceAll (render done segs) (quotedPlaceholder k) v.marshal)
          (placeholder k) (unquoted v) := rfl
    _ = Text.replaceAll (Text.flatten v.marshal (cutAt (· = .quoted k) (Seg.at done) segs))
          (placeholder k) (unquoted v) := by rw [hbefore, Text.replaceAll_flatten hquoted _ hq]
    _ = render ((k, v) :: done) segs := by
      rw [hmid, Text.replaceAll_flatten (placeholder_ne_nil k) _ hi, hafter]

/-- All arguments put into the segments, one after the other. -/
theorem renderTemplate_render {segs : List Seg} {todo done : Params}
    (hnodup : (todo.map Prod.fst).Nodup) (hnew : ∀ m ∈ todo, lookup m.1 done = none)
    (h : NoCapture segs done todo) :
    renderTemplate (render done segs) todo = render (todo.reverse ++ done) segs := by
  induction todo generalizing done with
  | nil => rfl
  | cons m todo ih =>
    obtain ⟨k, v⟩ := m
    obtain ⟨hq, hi, hrest⟩ := h
    obtain ⟨hk, hnodup⟩ := List.nodup_cons.mp hnodup
    have hstep := renderParam_render (hnew (k, v) List.mem_cons_self) hq hi
    have hnew' : ∀ m ∈ todo, lookup m.1 ((k, v) :: done) = none := by
      intro m hm
      have hne : ¬ k = m.1 := by
        intro he
        exact hk (List.mem_map.mpr ⟨m, hm, he.symm⟩)
      simp [lookup, hnew m (List.mem_cons_of_mem _ hm), hne]
    rw [renderTemplate, List.foldl_cons]
    dsimp only
    rw [hstep, List.reverse_cons, List.append_assoc]
    exact ih hnodup hnew' hrest

def StrPart.seg : StrPart Str → Seg
  | .lit c => .text c.text
  | .hole k => .inner k

def literalSegs : List (StrPart Str) → List Seg
  | [.hole k] => [.quoted k]
  | ps => .text ['"'] :: (ps.map StrPart.seg ++ [.text ['"']])

mutual
def cstSegs : Cst Str → List Seg
  | .null => [.text "null".toList]
  | .bool true => [.text "true".toList]
  | .bool false => [.text "false".toList]
  | .num n => [.text n.text]
  | .str ps => literalSegs ps
  | .hole k => [.inner k]
  | .arrEmpty ws => [.text ('[' :: (ws.text ++ [']']))]
  | .arr xs => .text ['['] :: itemsSegs xs
  | .objEmpty ws => [.text ('{' :: (ws.text ++ ['}']))]
  | .obj ms => .text ['{'] :: membersSegs ms
def itemsSegs : Items Str → List Seg
  | .one w v w' => .text w.text :: (cstSegs v ++ [.text (w'.text ++ [']'])])
  | .more w v w' rest => .text w.text :: (cstSegs v ++ .text (w'.text ++ [',']) :: itemsSegs rest)
def membersSegs : Members Str → List Seg
  | .one w k m w' v w'' =>
    .text w.text :: (literalSegs k ++ .text (m.text ++ ':' :: w'.text) ::
      (cstSegs v ++ [.text (w''.text ++ ['}'])]))
  | .more w k m w' v w'' rest =>
    .text w.text :: (literalSegs k ++ .text (m.text ++ ':' :: w'.text) ::
      (cstSegs v ++ .text (w''.text ++ [',']) :: membersSegs rest))
end

/-- A template: a tree with placeholders, and the white space around it. -/
structure BodyTemplate where
  before : Space
  tree : Cst Str
  after : Space

def BodyTemplate.text (t : BodyTemplate) : Str :=
  t.before.text ++ (t.tree.print placeholder ++ t.after.text)

def BodyTemplate.segs (t : BodyTemplate) : List Seg :=
  .text t.before.text :: (cstSegs t.tree ++ [.text t.after.text])

theorem render_append (done : Params) (a b : List Seg) :
    render done (a ++ b) = render done a ++ render done b := List.flatMap_append

theorem render_cons (done : Params) (g : Seg) (segs : List Seg) :
    render done (g :: segs) = g.at done ++ render done segs := List.flatMap_cons

theorem render_nil (done : Params) : render done [] = [] := rfl

theorem render_partSegs_nil (ps : List (StrPart Str)) :
    render [] (ps.map StrPart.seg) = printParts placeholder ps := by
  induction ps with
  | nil => rfl
  | cons p ps ih =>
    rw [List.map_cons, render_cons, ih]
    cases p <;> rfl

theorem literal_cases (ps : List (StrPart Str)) :
    (∃ k, ps = [.hole k]) ∨ ∀ k, ps ≠ [.hole k] := by
  by_cases h : ∃ k, ps = [.hole k]
  · exact Or.inl h
  · exact Or.inr fun k hk => h ⟨k, hk⟩

theorem literalSegs_parts {ps : List (StrPart Str)} (h : ∀ k, ps ≠ [.hole k]) :
    literalSegs ps = .text ['"'] :: (ps.map StrPart.seg ++ [.text ['"']]) := by
  unfold literalSegs
  split
  · exact absurd rfl (h _)
  · rfl

/-- A string literal in segments. -/
theorem render_literalSegs {done : Params} {ps : List (StrPart Str)} (h : ∀ k, ps ≠ [.hole k]) :
    render done (literalSegs ps) = '"' :: (render done (ps.map StrPart.seg) ++ ['"']) := by
  rw [literalSegs_parts h, render_cons, render_append]
  rfl

theorem render_literalSegs_nil (ps : List (StrPart Str)) :
    render [] (literalSegs ps) = '"' :: (printParts placeholder ps ++ ['"']) := by
  rcases literal_cases ps with ⟨k, rfl⟩ | hne
  · simp [literalSegs, render, Seg.at, lookup, quotedPlaceholder, printParts, StrPart.print]
  · rw [render_literalSegs hne, render_partSegs_nil]

/-! The segments of a tree, constructor by constructor. -/

section Segments
variable (done : Params)

theorem render_arr (xs : Items Str) :
    render done (cstSegs (.arr xs)) = '[' :: render done (itemsSegs xs) := by
  rw [cstSegs, render_cons]
  rfl

theorem render_obj (ms : Members Str) :
    render done (cstSegs (.obj ms)) = '{' :: render done (membersSegs ms) := by
  rw [cstSegs, render_cons]
  rfl

theorem render_items_one (w : Space) (v : Cst Str) (w' : Space) :
    render done (itemsSegs (.one w v w')) =
      w.text ++ (render done (cstSegs v) ++ (w'.text ++ [']'])) := by
  simp only [itemsSegs, render_cons, render_append, render_nil, Seg.at, List.append_nil]

theorem render_items_more (w : Space) (v : Cst Str) (w' : Space) (rest : Items Str) :
    render done (itemsSegs (.more w v w' rest)) =
      w.text ++ (render done (cstSegs v) ++ (w'.text ++ ',' :: render done (itemsSegs rest))) := by
  simp only [itemsSegs, render_cons, render_append, Seg.at, List.append_assoc, List.cons_append,
    List.nil_append]

theorem render_members_one (w : Space) (k : List (StrPart Str)) (m w' : Space) (v : Cst Str)
    (w'' : Space) :
    render done (membersSegs (.one w k m w' v w'')) =
      w.text ++ (render done (literalSegs k) ++ (m.text ++ ':' :: (w'.text ++
        (render done (cstSegs v) ++ (w''.text ++ ['}']))))) := by
  simp only [membersSegs, render_cons, render_append, render_nil, Seg.at, List.append_assoc,
    List.cons_append, List.append_nil]

theorem render_members_more (w : Space) (k : List (StrPart Str)) (m w' : Space) (v : Cst Str)
    (w'' : Space) (rest : Members Str) :
    render done (membersSegs (.more w k m w' v w'' rest)) =
      w.text ++ (render done (literalSegs k) ++ (m.text ++ ':' :: (w'.text ++
        (render done (cstSegs v) ++ (w''.text ++ ',' :: render done (membersSegs rest)))))) := by
  simp only [membersSegs, render_cons, render_append, Seg.at, List.append_assoc, List.cons_append,
    List.nil_append]

end Segments

mutual
theorem render_cstSegs_nil (v : Cst Str) : render [] (cstSegs v) = v.print placeholder := by
  match v with
  | .null => rfl
  | .bool true => rfl
  | .bool false => rfl
  | .num n => simp only [cstSegs, render_cons, render_nil, Seg.at, Cst.print, List.append_nil]
  | .str ps => simp only [cstSegs, render_literalSegs_nil, Cst.print]
  | .hole k =>
    simp only [cstSegs, render_cons, render_nil, Seg.at, lookup, Option.map_none, Option.getD_none,
      Cst.print, List.append_nil]
  | .arrEmpty ws => simp only [cstSegs, render_cons, render_nil, Seg.at, Cst.print, List.append_nil]
  | .arr xs => rw [render_arr, render_itemsSegs_nil xs, Cst.print]
  | .objEmpty ws => simp only [cstSegs, render_cons, render_nil, Seg.at, Cst.print, List.append_nil]
  | .obj ms => rw [render_obj, render_membersSegs_nil ms, Cst.print]
theorem render_itemsSegs_nil (xs : Items Str) : render [] (itemsSegs xs) = xs.print placeholder := by
  match xs with
  | .one w v w' => rw [render_items_one, render_cstSegs_nil v, Items.print]
  | .more w v w' rest =>
    rw [render_items_more, render_cstSegs_nil v, render_itemsSegs_nil rest, Items.print]
theorem render_membersSegs_nil (ms : Members Str) :
    render [] (membersSegs ms) = ms.print placeholder := by
  match ms with
  | .one w k m w' v w'' =>
    rw [render_members_one, render_literalSegs_nil, render_cstSegs_nil v, Members.print]
    simp only [List.append_assoc, List.cons_append, List.nil_append]
  | .more w k m w' v w'' rest =>
    rw [render_members_more, render_literalSegs_nil, render_cstSegs_nil v,
      render_membersSegs_nil rest, Members.print]
    simp only [List.append_assoc, List.cons_append, List.nil_append]
end

theorem render_segs_nil (t : BodyTemplate) : render [] t.segs = t.text := by
  simp only [BodyTemplate.segs, render_cons, render_append, render_nil, Seg.at,
    render_cstSegs_nil, BodyTemplate.text, List.append_nil]

end Janus.Gateway
