import Janus.BodyTemplate
import Janus.Lib.JsonLiteral

/-!
# Filled templates

The tree of a template with its arguments in it, and which arguments fit which places.
The rendered text of a template whose arguments fit is the text of the filled tree.
-/

namespace Janus.Gateway

set_option autoImplicit false

open Storage Vault JsonText

def arg (params : Params) (k : Str) : Json := (lookup k params).getD .null

/-- What an argument stands for inside a string literal: a string for its characters, any
other value for its JSON text. -/
def argText : Json → Str
  | .str s => s
  | v => v.marshal

def fillText (params : Params) (ps : List (StrPart Str)) : Str :=
  ps.flatMap fun
    | .lit c => [c.char]
    | .hole k => argText (arg params k)

def fillLiteral (params : Params) : List (StrPart Str) → Json
  | [.hole k] => (arg params k).sorted
  | ps => .str (fillText params ps)

mutual
/-- The tree with every placeholder filled. The members of an object that is put in stand
in the order of their names, as the encoder writes them. -/
def fillCst (params : Params) : Cst Str → Json
  | .null => .null
  | .bool b => .bool b
  | .num n => .num n
  | .str ps => fillLiteral params ps
  | .hole k => (arg params k).sorted
  | .arrEmpty _ => .arr []
  | .arr xs => .arr (fillItems params xs)
  | .objEmpty _ => .obj []
  | .obj ms => .obj (fillMembers params ms)
def fillItems (params : Params) : Items Str → List Json
  | .one _ v _ => [fillCst params v]
  | .more _ v _ rest => fillCst params v :: fillItems params rest
def fillMembers (params : Params) : Members Str → List (Str × Json)
  | .one _ k _ _ v _ => [(fillText params k, fillCst params v)]
  | .more _ k _ _ v _ rest => (fillText params k, fillCst params v) :: fillMembers params rest
end

/-- Inside a literal: a string that does not end in a quote, or a value with no string in it. -/
def FitsText : Json → Prop
  | .str s => s.getLast? ≠ some '"'
  | v => '"' ∉ v.marshal

def FitsParts (params : Params) (ps : List (StrPart Str)) : Prop :=
  ∀ k, StrPart.hole k ∈ ps → ∃ v, lookup k params = some v ∧ FitsText v

/-- A whole literal is any value. -/
def FitsLiteral (params : Params) : List (StrPart Str) → Prop
  | [.hole k] => ∃ v, lookup k params = some v
  | ps => FitsParts params ps

/-- A whole literal that is a member name is a string. -/
def FitsName (params : Params) : List (StrPart Str) → Prop
  | [.hole k] => ∃ s, lookup k params = some (.str s)
  | ps => FitsParts params ps

mutual
/-- Every placeholder has an argument that fits its place; one without quotes is no string. -/
def FitsCst (params : Params) : Cst Str → Prop
  | .null | .bool _ | .num _ | .arrEmpty _ | .objEmpty _ => True
  | .str ps => FitsLiteral params ps
  | .hole k => ∃ v, lookup k params = some v ∧ v.isStr = false
  | .arr xs => FitsItems params xs
  | .obj ms => FitsMembers params ms
def FitsItems (params : Params) : Items Str → Prop
  | .one _ v _ => FitsCst params v
  | .more _ v _ rest => FitsCst params v ∧ FitsItems params rest
def FitsMembers (params : Params) : Members Str → Prop
  | .one _ k _ _ v _ => FitsName params k ∧ FitsCst params v
  | .more _ k _ _ v _ rest => FitsName params k ∧ FitsCst params v ∧ FitsMembers params rest
end

theorem unquoted_of_not_str {v : Json} (h : v.isStr = false) : unquoted v = v.marshal := by
  obtain ⟨hhead, hlast⟩ := compact_ends (v := v.sorted) (by rw [Json.isStr_sorted, h])
  apply Text.trim_eq_self
  · intro c hc
    simpa using fun he => hhead (by rw [← he]; exact hc)
  · intro c hc
    simpa using fun he => hlast (by rw [← he]; exact hc)

theorem unquoted_str {s : Str} (h : s.getLast? ≠ some '"') : unquoted (.str s) = escapeChars s :=
  Text.trim_quotes (by simp) (head_escapeChars s) (getLast_escapeChars h)

/-- An argument that fits inside a literal is written there as its text. -/
theorem exists_argParts {v : Json} (h : FitsText v) :
    ∃ qs : List (StrPart Empty), printParts Empty.elim qs = unquoted v ∧ plainChars qs = argText v := by
  by_cases hs : ∃ s, v = .str s
  · obtain ⟨s, rfl⟩ := hs
    exact ⟨litParts s, by rw [printParts_litParts, unquoted_str h], plainChars_litParts s⟩
  · have hstr : v.isStr = false := by
      cases v with
      | str s => exact absurd ⟨s, rfl⟩ hs
      | _ => rfl
    have hplain : '"' ∉ v.marshal := by
      cases v with
      | str s => exact absurd ⟨s, rfl⟩ hs
      | _ => exact h
    have htext : argText v = v.marshal := by
      cases v with
      | str s => exact absurd ⟨s, rfl⟩ hs
      | _ => rfl
    obtain ⟨qs, hprint, hchars⟩ := exists_plainParts (compact_plain v.sorted hplain)
    exact ⟨qs, by rw [hprint, unquoted_of_not_str hstr]; rfl, by rw [hchars, htext]; rfl⟩

section Filling
variable {params : Params}

theorem fitsLiteral_parts {ps : List (StrPart Str)} (h : ∀ k, ps ≠ [.hole k]) :
    FitsLiteral params ps ↔ FitsParts params ps := by
  unfold FitsLiteral
  split
  · exact absurd rfl (h _)
  · rfl

theorem fitsName_parts {ps : List (StrPart Str)} (h : ∀ k, ps ≠ [.hole k]) :
    FitsName params ps ↔ FitsParts params ps := by
  unfold FitsName
  split
  · exact absurd rfl (h _)
  · rfl

theorem fillLiteral_parts {ps : List (StrPart Str)} (h : ∀ k, ps ≠ [.hole k]) :
    fillLiteral params ps = .str (fillText params ps) := by
  unfold fillLiteral
  split
  · exact absurd rfl (h _)
  · rfl

theorem fillText_hole (k : Str) (ps : List (StrPart Str)) :
    fillText params (.hole k :: ps) = argText (arg params k) ++ fillText params ps := rfl

theorem exists_parts {ps : List (StrPart Str)} (h : FitsParts params ps) :
    ∃ qs : List (StrPart Empty), printParts Empty.elim qs = render params (ps.map StrPart.seg) ∧
      plainChars qs = fillText params ps := by
  induction ps with
  | nil => exact ⟨[], rfl, rfl⟩
  | cons p ps ih =>
    obtain ⟨qs, hprint, hchars⟩ := ih fun k hk => h k (List.mem_cons_of_mem p hk)
    cases p with
    | lit c =>
      refine ⟨.lit c :: qs, ?_, ?_⟩
      · rw [List.map_cons, render_cons, ← hprint]
        rfl
      · rw [fillText, List.flatMap_cons, ← fillText, ← hchars]
        rfl
    | hole k =>
      obtain ⟨v, hv, hfits⟩ := h k List.mem_cons_self
      obtain ⟨rs, hrprint, hrchars⟩ := exists_argParts hfits
      refine ⟨rs ++ qs, ?_, ?_⟩
      · have hat : (StrPart.seg (.hole k)).at params = unquoted v := by
          simp [StrPart.seg, Seg.at, hv]
        rw [List.map_cons, render_cons, hat, ← hprint, ← hrprint, printParts, printParts, printParts,
          List.flatMap_append]
      · have harg : argText (arg params k) = argText v := by simp [arg, hv]
        rw [fillText_hole, ← hchars, harg, ← hrchars, plainChars, plainChars, plainChars,
          List.map_append]

/-- A literal that is more than one placeholder. -/
theorem exists_literalParts {ps : List (StrPart Str)} (hps : ∀ k, ps ≠ [.hole k])
    (h : FitsParts params ps) :
    ∃ qs : List (StrPart Empty), '"' :: (printParts Empty.elim qs ++ ['"']) =
        render params (literalSegs ps) ∧ plainChars qs = fillText params ps := by
  obtain ⟨qs, hprint, hchars⟩ := exists_parts h
  exact ⟨qs, by rw [render_literalSegs hps, hprint], hchars⟩

theorem exists_literal {ps : List (StrPart Str)} (h : FitsLiteral params ps) :
    ∃ c : Cst Empty, c.print Empty.elim = render params (literalSegs ps) ∧
      c.value = fillLiteral params ps := by
  rcases literal_cases ps with ⟨k, rfl⟩ | hne
  · obtain ⟨v, hv⟩ := h
    refine ⟨Cst.ofJson v.sorted, ?_, ?_⟩
    · rw [print_ofJson, literalSegs, render_cons, render_nil, List.append_nil, Seg.at, hv]
      rfl
    · rw [value_ofJson, fillLiteral, arg, hv]
      rfl
  · obtain ⟨qs, hprint, hchars⟩ := exists_literalParts hne ((fitsLiteral_parts hne).mp h)
    exact ⟨.str qs, by rw [Cst.print, hprint], by rw [Cst.value, hchars, fillLiteral_parts hne]⟩

theorem exists_name {ps : List (StrPart Str)} (h : FitsName params ps) :
    ∃ qs : List (StrPart Empty), '"' :: (printParts Empty.elim qs ++ ['"']) =
        render params (literalSegs ps) ∧ plainChars qs = fillText params ps := by
  rcases literal_cases ps with ⟨k, rfl⟩ | hne
  · obtain ⟨s, hs⟩ := h
    refine ⟨litParts s, ?_, ?_⟩
    · rw [printParts_litParts, literalSegs, render_cons, render_nil, List.append_nil, Seg.at, hs]
      rfl
    · simp [plainChars_litParts, fillText, arg, hs, argText]
  · exact exists_literalParts hne ((fitsName_parts hne).mp h)

mutual
/-- The rendered text of a tree whose arguments fit is the text of the filled tree. -/
theorem exists_cst (v : Cst Str) (h : FitsCst params v) :
    ∃ c : Cst Empty, c.print Empty.elim = render params (cstSegs v) ∧ c.value = fillCst params v := by
  match v with
  | .null => exact ⟨.null, rfl, rfl⟩
  | .bool true => exact ⟨.bool true, rfl, rfl⟩
  | .bool false => exact ⟨.bool false, rfl, rfl⟩
  | .num n =>
    refine ⟨.num n, ?_, rfl⟩
    simp only [Cst.print, cstSegs, render_cons, render_nil, Seg.at, List.append_nil]
  | .str ps => exact exists_literal h
  | .hole k =>
    obtain ⟨x, hx, hstr⟩ := h
    refine ⟨Cst.ofJson x.sorted, ?_, ?_⟩
    · rw [print_ofJson, cstSegs, render_cons, render_nil, List.append_nil, Seg.at, hx, Option.map_some,
        Option.getD_some, unquoted_of_not_str hstr, Json.marshal]
    · rw [value_ofJson, fillCst, arg, hx, Option.getD_some]
  | .arrEmpty ws =>
    refine ⟨.arrEmpty ws, ?_, rfl⟩
    simp only [Cst.print, cstSegs, render_cons, render_nil, Seg.at, List.append_nil]
  | .arr xs =>
    obtain ⟨ys, hprint, hvalues⟩ := exists_items xs h
    exact ⟨.arr ys, by rw [Cst.print, hprint, render_arr], by rw [Cst.value, hvalues, fillCst]⟩
  | .objEmpty ws =>
    refine ⟨.objEmpty ws, ?_, rfl⟩
    simp only [Cst.print, cstSegs, render_cons, render_nil, Seg.at, List.append_nil]
  | .obj ms =>
    obtain ⟨ns, hprint, hvalues⟩ := exists_members ms h
    exact ⟨.obj ns, by rw [Cst.print, hprint, render_obj], by rw [Cst.value, hvalues, fillCst]⟩
theorem exists_items (xs : Items Str) (h : FitsItems params xs) :
    ∃ ys : Items Empty, ys.print Empty.elim = render params (itemsSegs xs) ∧
      ys.values = fillItems params xs := by
  match xs with
  | .one w v w' =>
    obtain ⟨c, hprint, hvalue⟩ := exists_cst v h
    refine ⟨.one w c w', ?_, by rw [Items.values, hvalue, fillItems]⟩
    rw [Items.print, hprint, render_items_one]
  | .more w v w' rest =>
    obtain ⟨c, hprint, hvalue⟩ := exists_cst v h.1
    obtain ⟨ys, hprints, hvalues⟩ := exists_items rest h.2
    refine ⟨.more w c w' ys, ?_, by rw [Items.values, hvalue, hvalues, fillItems]⟩
    rw [Items.print, hprint, hprints, render_items_more]
theorem exists_members (ms : Members Str) (h : FitsMembers params ms) :
    ∃ ns : Members Empty, ns.print Empty.elim = render params (membersSegs ms) ∧
      ns.values = fillMembers params ms := by
  match ms with
  | .one w k m w' v w'' =>
    obtain ⟨qs, hname, hchars⟩ := exists_name h.1
    obtain ⟨c, hprint, hvalue⟩ := exists_cst v h.2
    refine ⟨.one w qs m w' c w'', ?_, by rw [Members.values, hchars, hvalue, fillMembers]⟩
    rw [Members.print, hprint, render_members_one, ← hname]
    simp only [List.append_assoc, List.cons_append, List.nil_append]
  | .more w k m w' v w'' rest =>
    obtain ⟨qs, hname, hchars⟩ := exists_name h.1
    obtain ⟨c, hprint, hvalue⟩ := exists_cst v h.2.1
    obtain ⟨ns, hprints, hvalues⟩ := exists_members rest h.2.2
    refine ⟨.more w qs m w' c w'' ns, ?_, by rw [Members.values, hchars, hvalue, hvalues, fillMembers]⟩
    rw [Members.print, hprint, hprints, render_members_more, ← hname]
    simp only [List.append_assoc, List.cons_append, List.nil_append]
end

end Filling

theorem fitsText_of_not_str {v : Json} (h : v.isStr = false) : FitsText v ↔ '"' ∉ v.marshal := by
  cases v with
  | str s => cases h
  | _ => rfl

theorem argText_of_not_str {v : Json} (h : v.isStr = false) : argText v = v.marshal := by
  cases v with
  | str s => cases h
  | _ => rfl

/-- A string that ends in a quote loses it, and its escape stays. -/
theorem unquoted_str_quote (s : Str) : unquoted (.str (s ++ ['"'])) = escapeChars s ++ ['\\'] := by
  have hesc : escapeChars (s ++ ['"']) = escapeChars s ++ ['\\', '"'] := by simp [escapeChars, escapeChar]
  have hhead : (escapeChars s ++ ['\\']).head? ≠ some '"' := by
    have := head_escapeChars s
    cases hs : escapeChars s with
    | nil => decide
    | cons c cs =>
      rw [hs] at this
      simpa using this
  have hlast : (escapeChars s ++ ['\\']).getLast? ≠ some '"' := by simp
  have hmarshal : (Json.str (s ++ ['"'])).marshal =
      '"' :: ((escapeChars s ++ ['\\']) ++ ['"', '"']) := by
    simp only [Json.marshal, Json.sorted, Json.compact, quoteChars, hesc, List.append_assoc,
      List.cons_append, List.nil_append]
  rw [unquoted, hmarshal]
  exact Text.trim_quotes (by simp) hhead hlast

/-- The pieces of an argument inside a literal, which are all proper only when it fits. -/
theorem exists_argAtoms (v : Json) :
    ∃ as : List Atom, atomsText as = unquoted v ∧ atomsChars as = argText v ∧
      ((∀ a ∈ as, a.isOk = true) → FitsText v) := by
  by_cases hs : v.isStr = true
  · obtain ⟨s, rfl⟩ : ∃ s, v = .str s := by
      cases v with
      | str s => exact ⟨s, rfl⟩
      | _ => cases hs
    by_cases hlast : s.getLast? = some '"'
    · obtain ⟨s', rfl⟩ := List.getLast?_eq_some_iff.mp hlast
      obtain ⟨as, htext, hchars⟩ := exists_escapedAtoms s'
      refine ⟨as ++ [.dangling], ?_, ?_, ?_⟩
      · rw [atomsText_append, htext, unquoted_str_quote]
        rfl
      · rw [atomsChars_append, hchars]
        rfl
      · intro hok
        exact absurd (hok .dangling (by simp)) (by simp [Atom.isOk])
    · obtain ⟨as, htext, hchars⟩ := exists_escapedAtoms s
      exact ⟨as, by rw [htext, unquoted_str hlast], hchars, fun _ => hlast⟩
  · have hstr : v.isStr = false := by simpa using hs
    rw [unquoted_of_not_str hstr, argText_of_not_str hstr, fitsText_of_not_str hstr]
    by_cases hquote : '"' ∈ v.marshal
    · obtain ⟨before, c, after, htext, hplain, hc⟩ :=
        compact_first_quote v.sorted (by rw [Json.isStr_sorted, hstr]) hquote
      obtain ⟨as, hatext, hachars⟩ := exists_plainAtoms hplain
      refine ⟨as ++ [.closing c after (isPlain_of_isOpener hc) (not_isEscapeChar_of_isOpener hc)],
        ?_, ?_, ?_⟩
      · rw [atomsText_append, hatext, Json.marshal, htext]
        simp [atomsText, Atom.text]
      · rw [atomsChars_append, hachars, Json.marshal, htext]
        simp [atomsChars, Atom.chars]
      · intro hok
        exact absurd (hok _ (List.mem_append_right _ List.mem_cons_self)) (by simp [Atom.isOk])
    · obtain ⟨as, htext, hchars⟩ := exists_plainAtoms (compact_plain v.sorted hquote)
      exact ⟨as, htext, hchars, fun _ => hquote⟩

end Janus.Gateway
