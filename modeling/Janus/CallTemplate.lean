import Janus.Gateway
import Janus.Lib.UrlText

/-!
# Path templates

Cut at its placeholders, the path of an endpoint is a list of pieces. Rendering replaces
the placeholders argument by argument in the text. Where no replacement meets anything
else, it fills the pieces one by one; in a template that is read in one way this holds of
every argument whose name has no brace, since encoded values have none.
-/

namespace Janus.Gateway

set_option autoImplicit false

open Storage Vault

inductive PathPiece where
  | text (s : Str)
  | hole (k : Str)
  deriving Repr, DecidableEq

namespace PathPiece

/-- The piece once the given arguments have been put in. -/
def fill (params : Params) : PathPiece → Str
  | text s => s
  | hole k => ((lookup k params).map fun v => Url.pathEscape v.formatV).getD (placeholder k)

theorem fill_hole_some {params : Params} {k : Str} {v : Json} (h : lookup k params = some v) :
    (hole k).fill params = Url.pathEscape v.formatV := by
  rw [fill, h]
  rfl

theorem fill_hole_none {params : Params} {k : Str} (h : lookup k params = none) :
    (hole k).fill params = placeholder k := by
  rw [fill, h]
  rfl

end PathPiece

def fillPieces (params : Params) (pieces : List PathPiece) : Str :=
  pieces.flatMap (PathPiece.fill params)

theorem fillPieces_append (params : Params) (a b : List PathPiece) :
    fillPieces params (a ++ b) = fillPieces params a ++ fillPieces params b := List.flatMap_append

theorem fillPieces_cons (params : Params) (p : PathPiece) (pieces : List PathPiece) :
    fillPieces params (p :: pieces) = p.fill params ++ fillPieces params pieces := List.flatMap_cons

/-- Groups of pieces with a separator between them. -/
def joinPieces (sep : Str) : List (List PathPiece) → List PathPiece
  | [] => []
  | [group] => group
  | group :: rest => group ++ .text sep :: joinPieces sep rest

theorem fillPieces_joinPieces (params : Params) (sep : Str) (groups : List (List PathPiece)) :
    fillPieces params (joinPieces sep groups) = Text.join sep (groups.map (fillPieces params)) := by
  fun_induction joinPieces sep groups with
  | case1 => rfl
  | case2 group => rfl
  | case3 group rest hne ih =>
    obtain ⟨t, ts, rfl⟩ := List.exists_cons_of_ne_nil hne
    rw [fillPieces_append, fillPieces_cons, ih]
    simp [Text.join, PathPiece.fill]

theorem mem_joinPieces {sep : Str} {groups : List (List PathPiece)} {p : PathPiece}
    (h : p ∈ joinPieces sep groups) : p = .text sep ∨ ∃ group ∈ groups, p ∈ group := by
  fun_induction joinPieces sep groups with
  | case1 => cases h
  | case2 group => exact .inr ⟨group, List.mem_singleton.mpr rfl, h⟩
  | case3 group rest hne ih =>
    obtain h | h := List.mem_append.mp h
    · exact .inr ⟨group, List.mem_cons_self, h⟩
    · obtain h | h := List.mem_cons.mp h
      · exact .inl h
      · exact (ih h).imp_right fun ⟨g, hg, hp⟩ => ⟨g, List.mem_cons_of_mem _ hg, hp⟩

/-- The pieces with the placeholders of one argument as marks. -/
def marked (k : Str) (done : Params) (pieces : List PathPiece) : List Text.Piece :=
  pieces.map fun p => if p = .hole k then .mark else .text (p.fill done)

/-- No replacement meets anything but the placeholders of its argument in the template. -/
def Uncaptured (pieces : List PathPiece) : Params → Params → Prop
  | _, [] => True
  | done, (k, v) :: rest =>
    Text.OnlyAtMarks (placeholder k) (marked k done pieces) ∧ Uncaptured pieces (done ++ [(k, v)]) rest

theorem flatten_marked (w k : Str) (done : Params) (pieces : List PathPiece) :
    Text.flatten w (marked k done pieces) =
      pieces.flatMap fun p => if p = .hole k then w else p.fill done := by
  induction pieces with
  | nil => rfl
  | cons p pieces ih =>
    rw [List.flatMap_cons, ← ih, marked, List.map_cons]
    by_cases hp : p = .hole k
    · rw [if_pos hp, if_pos hp]
      rfl
    · rw [if_neg hp, if_neg hp]
      rfl

theorem flatten_marked_placeholder {k : Str} {done : Params} (hnew : lookup k done = none)
    (pieces : List PathPiece) :
    Text.flatten (placeholder k) (marked k done pieces) = fillPieces done pieces := by
  rw [flatten_marked]
  refine List.flatMap_congr fun p _ => ?_
  split
  · rename_i hp
    rw [hp, PathPiece.fill_hole_none hnew]
  · rfl

theorem lookup_concat (j k : Str) (v : Json) (done : Params) :
    lookup j (done ++ [(k, v)]) = if k = j then some v else lookup j done := by
  induction done with
  | nil => rfl
  | cons m done ih =>
    rw [List.cons_append, lookup, ih, lookup]
    split
    · rfl
    · rfl

theorem fill_concat_of_ne {p : PathPiece} {k : Str} (h : p ≠ .hole k) (v : Json) (done : Params) :
    p.fill (done ++ [(k, v)]) = p.fill done := by
  cases p with
  | text s => rfl
  | hole j =>
    have hne : k ≠ j := fun he => h (by rw [he])
    rw [PathPiece.fill, PathPiece.fill, lookup_concat, if_neg hne]

/-- One argument put into the pieces. -/
theorem replaceAll_fillPieces {pieces : List PathPiece} {k : Str} {v : Json} {done : Params}
    (hnew : lookup k done = none) (h : Text.OnlyAtMarks (placeholder k) (marked k done pieces)) :
    Text.replaceAll (fillPieces done pieces) (placeholder k) (Url.pathEscape v.formatV) =
      fillPieces (done ++ [(k, v)]) pieces := by
  have hne : placeholder k ≠ [] := List.cons_ne_nil _ _
  rw [← flatten_marked_placeholder hnew pieces, Text.replaceAll_flatten hne _ h, flatten_marked]
  refine List.flatMap_congr fun p _ => ?_
  split
  · rename_i hp
    rw [hp, PathPiece.fill_hole_some (v := v)]
    rw [lookup_concat, if_pos rfl]
  · rename_i hp
    exact (fill_concat_of_ne hp v done).symm

/-- All arguments put into the pieces, one after the other. -/
theorem renderPath_fillPieces {pieces : List PathPiece} {todo done : Params}
    (hnodup : (todo.map Prod.fst).Nodup) (hnew : ∀ m ∈ todo, lookup m.1 done = none)
    (h : Uncaptured pieces done todo) :
    renderPath (fillPieces done pieces) todo = fillPieces (done ++ todo) pieces := by
  induction todo generalizing done with
  | nil =>
    rw [List.append_nil]
    rfl
  | cons m todo ih =>
    obtain ⟨k, v⟩ := m
    obtain ⟨hmarks, hrest⟩ := h
    obtain ⟨hk, hnodup⟩ := List.nodup_cons.mp hnodup
    have hstep := replaceAll_fillPieces (v := v) (hnew (k, v) List.mem_cons_self) hmarks
    have hassoc : done ++ (k, v) :: todo = (done ++ [(k, v)]) ++ todo := by simp
    rw [renderPath, List.foldl_cons]
    dsimp only
    rw [hstep, hassoc]
    apply ih hnodup _ hrest
    intro m hm
    rw [lookup_concat, if_neg, hnew m (List.mem_cons_of_mem _ hm)]
    intro he
    exact hk (List.mem_map.mpr ⟨m, hm, he.symm⟩)

def NameOnly (k : Str) : Prop := '{' ∉ k ∧ '}' ∉ k

instance : DecidablePred NameOnly := fun k => inferInstanceAs (Decidable ('{' ∉ k ∧ '}' ∉ k))

/-- The text up to the next placeholder, and the brace that opens it. -/
def leadText : List PathPiece → Str
  | [] => []
  | .text s :: rest => s ++ leadText rest
  | .hole _ :: _ => ['{']

/-- No placeholder opens in a stretch of text, and no name has a brace in it. -/
def Readable : List PathPiece → Prop
  | [] => True
  | .text s :: rest => ¬ ['{', '{'] <:+: s ++ leadText rest ∧ Readable rest
  | .hole k :: rest => NameOnly k ∧ Readable rest

instance instDecidableReadable : (pieces : List PathPiece) → Decidable (Readable pieces)
  | [] => .isTrue trivial
  | .text _ :: rest =>
    have := instDecidableReadable rest
    inferInstanceAs (Decidable (_ ∧ _))
  | .hole _ :: rest =>
    have := instDecidableReadable rest
    inferInstanceAs (Decidable (_ ∧ _))

/-- The placeholders of a template. -/
def holes (pieces : List PathPiece) : List Str :=
  pieces.filterMap fun
    | .text _ => none
    | .hole k => some k

theorem mem_holes {pieces : List PathPiece} {k : Str} : k ∈ holes pieces ↔ .hole k ∈ pieces := by
  unfold holes
  rw [List.mem_filterMap]
  constructor
  · rintro ⟨p, hp, hk⟩
    cases p with
    | text s => cases hk
    | hole j =>
      cases hk
      exact hp
  · exact fun h => ⟨_, h, rfl⟩

theorem count_leadText {pieces : List PathPiece} (h : ∀ s, .text s ∈ pieces → '{' ∉ s) :
    (leadText pieces).count '{' ≤ 1 := by
  induction pieces with
  | nil => simp [leadText]
  | cons p pieces ih =>
    cases p with
    | hole k => simp [leadText]
    | text s =>
      have hs := List.count_eq_zero_of_not_mem (h s List.mem_cons_self)
      have hrest := ih fun t ht => h t (List.mem_cons_of_mem _ ht)
      rw [leadText, List.count_append]
      omega

/-- Without a brace in the text there is nothing to misread. -/
theorem readable_of_noBrace {pieces : List PathPiece} (h : ∀ s, .text s ∈ pieces → '{' ∉ s)
    (hnames : ∀ k, .hole k ∈ pieces → NameOnly k) : Readable pieces := by
  induction pieces with
  | nil => trivial
  | cons p pieces ih =>
    have hrest := ih (fun t ht => h t (List.mem_cons_of_mem _ ht))
      fun k hk => hnames k (List.mem_cons_of_mem _ hk)
    cases p with
    | hole k => exact ⟨hnames k List.mem_cons_self, hrest⟩
    | text s =>
      refine ⟨fun hi => ?_, hrest⟩
      have hcount := hi.sublist.count_le '{'
      have hlead : (leadText (.text s :: pieces)).count '{' ≤ 1 := count_leadText h
      have htwo : ['{', '{'].count '{' = 2 := by decide
      rw [leadText] at hlead
      omega

theorem Readable.nameOnly {pieces : List PathPiece} (h : Readable pieces) :
    ∀ k ∈ holes pieces, NameOnly k := by
  induction pieces with
  | nil => simp [holes]
  | cons p pieces ih =>
    intro k hk
    rw [mem_holes] at hk
    cases p with
    | text s =>
      obtain hk | hk := List.mem_cons.mp hk
      · cases hk
      · exact ih h.2 k (mem_holes.mpr hk)
    | hole j =>
      obtain hk | hk := List.mem_cons.mp hk
      · cases hk
        exact h.1
      · exact ih h.2 k (mem_holes.mpr hk)

theorem brace_notMem_pathEscape (s : Str) : '{' ∉ Url.pathEscape s :=
  Url.notMem_escape (by decide) (by decide) _

theorem slash_notMem_pathEscape (s : Str) : '/' ∉ Url.pathEscape s :=
  Url.notMem_escape (by decide) (by decide) _

/-- Only where a placeholder or a text begins with a brace do filled pieces begin with one. -/
theorem brace_of_head {done : Params} {pieces : List PathPiece} (h : Readable pieces)
    (hhead : (fillPieces done pieces).head? = some '{') : (leadText pieces).head? = some '{' := by
  induction pieces with
  | nil => cases hhead
  | cons p pieces ih =>
    cases p with
    | hole k => rfl
    | text s =>
      rw [fillPieces, List.flatMap_cons, PathPiece.fill] at hhead
      rw [leadText]
      cases s with
      | nil => exact ih h.2 hhead
      | cons c s => exact hhead

theorem noneStarts_of_notMem {s : Str} (h : '{' ∉ s) (k rest : Str) :
    Text.NoneStarts (placeholder k) s rest := by
  induction s with
  | nil => trivial
  | cons c s ih =>
    obtain ⟨hc, hs⟩ := not_or.mp (List.mem_cons.not.mp h)
    refine ⟨?_, ih hs⟩
    rw [placeholder, List.cons_append, List.isPrefixOf, beq_eq_false_iff_ne.mpr hc, Bool.false_and]

/-- No placeholder starts in a stretch of text. -/
theorem noneStarts_text {s : Str} {rest : List PathPiece} (hr : Readable rest)
    (h : ¬ ['{', '{'] <:+: s ++ leadText rest) (k : Str) (done : Params) :
    Text.NoneStarts (placeholder k) s (fillPieces done rest) := by
  induction s with
  | nil => trivial
  | cons c s ih =>
    refine ⟨?_, ih fun hi => h (hi.trans (List.suffix_cons c _).isInfix)⟩
    rw [← Bool.not_eq_true, List.isPrefixOf_iff_prefix]
    intro hp
    obtain ⟨rfl, hbrace⟩ := List.cons_prefix_cons.mp hp
    have hsecond : (s ++ fillPieces done rest).head? = some '{' := by
      obtain ⟨t, ht⟩ : '{' :: (k ++ ['}', '}']) <+: s ++ fillPieces done rest := hbrace
      rw [← ht]
      rfl
    have hlead : (s ++ leadText rest).head? = some '{' := by
      cases s with
      | nil => exact brace_of_head hr hsecond
      | cons d s => exact hsecond
    obtain ⟨t, ht⟩ : ∃ t, s ++ leadText rest = '{' :: t := by
      cases hcons : s ++ leadText rest with
      | nil =>
        rw [hcons] at hlead
        cases hlead
      | cons d t =>
        rw [hcons] at hlead
        cases hlead
        exact ⟨t, rfl⟩
    apply h
    rw [List.cons_append, ht]
    exact ⟨[], t, rfl⟩

/-- A name is read up to the braces that close it. -/
theorem name_unique {j k rest : Str} (hj : '}' ∉ j) (hk : '}' ∉ k)
    (h : k ++ ['}', '}'] <+: j ++ '}' :: rest) : k = j := by
  induction k generalizing j with
  | nil =>
    cases j with
    | nil => rfl
    | cons d j =>
      have hd := (List.cons_prefix_cons.mp h).1
      exact absurd (hd ▸ List.mem_cons_self) hj
  | cons c k ih =>
    obtain ⟨hc, hk⟩ := not_or.mp (List.mem_cons.not.mp hk)
    cases j with
    | nil => exact absurd (List.cons_prefix_cons.mp h).1.symm hc
    | cons d j =>
      obtain ⟨_, hj'⟩ := not_or.mp (List.mem_cons.not.mp hj)
      obtain ⟨rfl, hrest⟩ := List.cons_prefix_cons.mp h
      rw [ih hj' hk hrest]

theorem noneStarts_placeholder {j k : Str} (hj : NameOnly j) (hk : NameOnly k) (hne : j ≠ k)
    (rest : Str) : Text.NoneStarts (placeholder k) (placeholder j) rest := by
  have htail : '{' ∉ j ++ ['}', '}'] := by simp [hj.1]
  refine ⟨?_, ?_, noneStarts_of_notMem htail k rest⟩
  · rw [← Bool.not_eq_true, List.isPrefixOf_iff_prefix]
    intro hp
    have hname := (List.cons_prefix_cons.mp (List.cons_prefix_cons.mp hp).2).2
    have hclose : (j ++ ['}', '}']).append rest = j ++ '}' :: '}' :: rest := by simp
    rw [hclose] at hname
    exact hne (name_unique hj.2 hk.2 hname).symm
  · -- the brace behind the first one would begin the name or close it
    rw [← Bool.not_eq_true, List.isPrefixOf_iff_prefix]
    intro hp
    have hsecond := (List.cons_prefix_cons.mp hp).2
    obtain ⟨c, cs, hcs⟩ := List.exists_cons_of_ne_nil
      (List.append_ne_nil_of_right_ne_nil j (List.cons_ne_nil '}' ['}']))
    rw [hcs] at hsecond htail
    have hc := (List.cons_prefix_cons.mp hsecond).1
    exact absurd (hc ▸ List.mem_cons_self) htail

theorem onlyAtMarks_marked {k : Str} (hk : NameOnly k) {done : Params} (hnew : lookup k done = none)
    {pieces : List PathPiece} (h : Readable pieces) :
    Text.OnlyAtMarks (placeholder k) (marked k done pieces) := by
  induction pieces with
  | nil => trivial
  | cons p pieces ih =>
    cases p with
    | text s =>
      refine ⟨?_, ih h.2⟩
      have hstart := noneStarts_text h.2 h.1 k done
      rwa [← flatten_marked_placeholder hnew] at hstart
    | hole j =>
      rw [marked, List.map_cons]
      split
      · exact ih h.2
      · rename_i hne
        have hjk : j ≠ k := fun he => hne (by rw [he])
        refine ⟨?_, ih h.2⟩
        cases hj : lookup j done with
        | none =>
          rw [PathPiece.fill_hole_none hj]
          exact noneStarts_placeholder h.1 hk hjk _
        | some v =>
          rw [PathPiece.fill_hole_some hj]
          exact noneStarts_of_notMem (brace_notMem_pathEscape _) k _

/-- An argument whose name has a brace in it has no placeholder in the template filled with
the arguments before it. -/
def Unspanned (pieces : List PathPiece) (params : Params) : Prop :=
  ∀ before k v after, params = before ++ (k, v) :: after →
    NameOnly k ∨ ¬ placeholder k <:+: fillPieces before pieces

theorem uncaptured_of_readable {pieces : List PathPiece} (h : Readable pieces) {todo done : Params}
    (hnodup : (todo.map Prod.fst).Nodup) (hnew : ∀ m ∈ todo, lookup m.1 done = none)
    (hspan : ∀ before k v after, todo = before ++ (k, v) :: after →
      NameOnly k ∨ ¬ placeholder k <:+: fillPieces (done ++ before) pieces) :
    Uncaptured pieces done todo := by
  induction todo generalizing done with
  | nil => trivial
  | cons m todo ih =>
    obtain ⟨k, v⟩ := m
    obtain ⟨hk, hnodup⟩ := List.nodup_cons.mp hnodup
    have hfirst := hspan [] k v todo rfl
    have hnone := hnew (k, v) List.mem_cons_self
    rw [List.append_nil] at hfirst
    refine ⟨?_, ih hnodup ?_ ?_⟩
    · obtain hname | habsent := hfirst
      · exact onlyAtMarks_marked hname hnone h
      · apply Text.onlyAtMarks_of_absent
        rwa [flatten_marked_placeholder hnone]
    · intro m hm
      rw [lookup_concat, if_neg, hnew m (List.mem_cons_of_mem _ hm)]
      intro he
      exact hk (List.mem_map.mpr ⟨m, hm, he.symm⟩)
    · intro before j w after hsplit
      rw [List.append_assoc]
      exact hspan ((k, v) :: before) j w after (by rw [hsplit]; rfl)

theorem renderPath_readable {pieces : List PathPiece} (h : Readable pieces) {params : Params}
    (hnodup : (params.map Prod.fst).Nodup) (hspan : Unspanned pieces params) :
    renderPath (fillPieces [] pieces) params = fillPieces params pieces := by
  have huncaptured : Uncaptured pieces [] params :=
    uncaptured_of_readable h hnodup (fun _ _ => rfl) hspan
  exact renderPath_fillPieces hnodup (fun _ _ => rfl) huncaptured

/-- The template contains the placeholders that it was cut at, and no others. -/
theorem placeholder_infix_iff {pieces : List PathPiece} (h : Readable pieces) {k : Str}
    (hk : NameOnly k) : placeholder k <:+: fillPieces [] pieces ↔ k ∈ holes pieces := by
  constructor
  · intro hi
    by_contra hno
    have hmark : ∀ p ∈ marked k [] pieces, p ≠ .mark := by
      intro p hp he
      obtain ⟨q, hq, hqp⟩ := List.mem_map.mp hp
      split at hqp
      · rename_i hhole
        exact hno (mem_holes.mpr (hhole ▸ hq))
      · rw [he] at hqp
        cases hqp
    have hne : placeholder k ≠ [] := List.cons_ne_nil _ _
    apply Text.absent_of_onlyAtMarks hne (onlyAtMarks_marked hk rfl h) hmark
    rwa [flatten_marked_placeholder rfl]
  · intro hmem
    obtain ⟨before, after, hsplit⟩ := List.append_of_mem (mem_holes.mp hmem)
    refine ⟨fillPieces [] before, fillPieces [] after, ?_⟩
    simp only [hsplit, fillPieces, List.flatMap_append, List.flatMap_cons]
    rw [PathPiece.fill_hole_none rfl, List.append_assoc]

end Janus.Gateway
