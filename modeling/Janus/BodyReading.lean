import Janus.BodyFilling
import Janus.Lib.JsonReading

/-!
# Reading a rendered template

A rendered template that is read as the filled tree has arguments that fit: an argument
that does not ends a literal early, takes the quote behind it, or stands without quotes.
-/

namespace Janus.Gateway

set_option autoImplicit false

open Storage Vault JsonText

/-- Every placeholder of the segments names an argument. -/
def Named (params : Params) (segs : List Seg) : Prop :=
  ∀ k, Seg.quoted k ∈ segs ∨ Seg.inner k ∈ segs → ∃ v, lookup k params = some v

section Reading
variable {params : Params}

theorem named_nil : Named params [] := by
  rintro k (h | h) <;> cases h

theorem named_text (s : Str) (segs : List Seg) : Named params (.text s :: segs) ↔ Named params segs := by
  simp [Named]

theorem named_append (as bs : List Seg) :
    Named params (as ++ bs) ↔ Named params as ∧ Named params bs := by
  constructor
  · intro h
    exact ⟨fun k hk => h k (hk.imp (List.mem_append_left _) (List.mem_append_left _)),
      fun k hk => h k (hk.imp (List.mem_append_right _) (List.mem_append_right _))⟩
  · rintro ⟨ha, hb⟩ k (hk | hk)
    · exact (List.mem_append.mp hk).elim (fun hk => ha k (Or.inl hk)) fun hk => hb k (Or.inl hk)
    · exact (List.mem_append.mp hk).elim (fun hk => ha k (Or.inr hk)) fun hk => hb k (Or.inr hk)

theorem named_parts_iff (ps : List (StrPart Str)) :
    Named params (ps.map StrPart.seg) ↔ ∀ k, StrPart.hole k ∈ ps → ∃ v, lookup k params = some v := by
  have hinner (k : Str) : Seg.inner k ∈ ps.map StrPart.seg ↔ StrPart.hole k ∈ ps := by
    constructor
    · intro h
      obtain ⟨p, hp, he⟩ := List.mem_map.mp h
      cases p with
      | lit c => cases he
      | hole j =>
        cases he
        exact hp
    · intro h
      exact List.mem_map.mpr ⟨_, h, rfl⟩
  have hquoted (k : Str) : Seg.quoted k ∉ ps.map StrPart.seg := by
    intro h
    obtain ⟨p, _, he⟩ := List.mem_map.mp h
    cases p <;> cases he
  simp only [Named, hinner, hquoted, false_or]

theorem named_literal_parts {ps : List (StrPart Str)} (h : ∀ k, ps ≠ [.hole k]) :
    Named params (literalSegs ps) ↔ Named params (ps.map StrPart.seg) := by
  rw [literalSegs_parts h, named_text, named_append, named_text]
  exact and_iff_left named_nil

theorem exists_partAtoms {ps : List (StrPart Str)} (h : Named params (ps.map StrPart.seg)) :
    ∃ as : List Atom, atomsText as = render params (ps.map StrPart.seg) ∧
      atomsChars as = fillText params ps ∧ ((∀ a ∈ as, a.isOk = true) → FitsParts params ps) := by
  induction ps with
  | nil =>
    refine ⟨[], rfl, rfl, ?_⟩
    intro _ k hk
    cases hk
  | cons p ps ih =>
    obtain ⟨as, htext, hchars, hfits⟩ := ih ((named_append [_] _).mp h).2
    cases p with
    | lit c =>
      refine ⟨.ok c :: as, ?_, ?_, ?_⟩
      · rw [List.map_cons, render_cons, ← htext]
        rfl
      · rw [fillText, List.flatMap_cons, ← fillText, ← hchars]
        rfl
      · intro hok k hk
        rcases List.mem_cons.mp hk with hk | hk
        · cases hk
        · exact hfits (fun a ha => hok a (List.mem_cons_of_mem _ ha)) k hk
    | hole k =>
      obtain ⟨v, hv⟩ := h k (Or.inr List.mem_cons_self)
      obtain ⟨bs, hbtext, hbchars, hbfits⟩ := exists_argAtoms v
      refine ⟨bs ++ as, ?_, ?_, ?_⟩
      · have hat : (StrPart.seg (.hole k)).at params = unquoted v := by
          simp [StrPart.seg, Seg.at, hv]
        rw [List.map_cons, render_cons, hat, ← htext, ← hbtext, atomsText_append]
      · have harg : argText (arg params k) = argText v := by simp [arg, hv]
        rw [fillText_hole, ← hchars, harg, ← hbchars, atomsChars_append]
      · intro hok j hj
        rcases List.mem_cons.mp hj with hj | hj
        · cases hj
          exact ⟨v, hv, hbfits fun a ha => hok a (List.mem_append_left _ ha)⟩
        · exact hfits (fun a ha => hok a (List.mem_append_right _ ha)) j hj

/-- A literal that is read as the filled one has arguments that fit. -/
theorem fitsParts_of_readString {ps : List (StrPart Str)} {s r : Str}
    (hnamed : Named params (ps.map StrPart.seg)) (hs : Tail s)
    (h : readString (render params (ps.map StrPart.seg) ++ '"' :: s) = some (fillText params ps, r)) :
    FitsParts params ps := by
  obtain ⟨as, htext, hchars, hfits⟩ := exists_partAtoms hnamed
  rw [← htext, ← hchars] at h
  exact hfits (isOk_of_readFrom hs as h)

/-- The rendered text of a tree whose arguments fit is read as the filled tree. -/
theorem parseValue_fits (w : Space) {v : Cst Str} (hv : FitsCst params v) {n : Nat} {s : Str}
    (hn : (render params (cstSegs v)).length ≤ n) (hs : Delimited s) :
    parseValue (n + 1) (w.text ++ (render params (cstSegs v) ++ s)) = some (fillCst params v, s) := by
  obtain ⟨c, hprint, hvalue⟩ := exists_cst v hv
  rw [← hprint, ← hvalue]
  exact parseValue_print w c n s (by rw [hprint]; exact hn) hs

theorem readString_fits {ps : List (StrPart Str)} (h : FitsName params ps) {s t : Str}
    (ht : render params (literalSegs ps) ++ s = '"' :: t) :
    readString t = some (fillText params ps, s) := by
  obtain ⟨qs, hprint, hchars⟩ := exists_name h
  rw [← hprint, List.cons_append, List.append_assoc] at ht
  rw [← (List.cons.inj ht).2, ← hchars]
  exact readString_parts qs s

/-- A bare string is not read as a string. -/
theorem not_read_unquoted_str (w : Space) {x y s r : Str} {n : Nat}
    (hs : (skipSpace s).head? ≠ some '"') :
    parseValue n (w.text ++ (unquoted (.str x) ++ s)) ≠ some (.str y, r) := by
  intro h
  obtain ⟨t, ht, _⟩ := parseValue_str h
  rw [skipSpace_space] at ht
  have hnot : (skipSpace (unquoted (.str x) ++ s)).head? ≠ some '"' := by
    by_cases hlast : x.getLast? = some '"'
    · obtain ⟨x', rfl⟩ := List.getLast?_eq_some_iff.mp hlast
      rw [unquoted_str_quote, List.append_assoc]
      exact skipSpace_escapeChars (by simp [skipSpace, isSpace])
    · rw [unquoted_str hlast]
      exact skipSpace_escapeChars hs
  rw [ht] at hnot
  exact hnot rfl

/-- A literal in more than one part that is read as the filled one. -/
theorem fitsParts_of_literal {ps : List (StrPart Str)} (hne : ∀ k, ps ≠ [.hole k]) {s t r : Str}
    (hnamed : Named params (literalSegs ps)) (hs : Tail s)
    (ht : render params (literalSegs ps) ++ s = '"' :: t)
    (h : readString t = some (fillText params ps, r)) : FitsParts params ps := by
  rw [named_literal_parts hne] at hnamed
  rw [render_literalSegs hne, List.cons_append, List.append_assoc] at ht
  rw [← (List.cons.inj ht).2] at h
  exact fitsParts_of_readString hnamed hs h

theorem fitsLiteral_of_parseValue (w : Space) {ps : List (StrPart Str)} {n : Nat} {s r : Str}
    (hnamed : Named params (literalSegs ps)) (hs : Tail s)
    (h : parseValue n (w.text ++ (render params (literalSegs ps) ++ s)) =
      some (fillLiteral params ps, r)) : FitsLiteral params ps := by
  rcases literal_cases ps with ⟨k, rfl⟩ | hne
  · exact hnamed k (Or.inl List.mem_cons_self)
  · rw [fillLiteral_parts hne] at h
    obtain ⟨t, ht, hread⟩ := parseValue_str h
    rw [skipSpace_space] at ht
    have htext : render params (literalSegs ps) ++ s = '"' :: t := by
      rw [render_literalSegs hne] at ht ⊢
      exact ht
    exact (fitsLiteral_parts hne).mpr (fitsParts_of_literal hne hnamed hs htext hread)

theorem fitsName_of_readString (w : Space) {ps : List (StrPart Str)} {s t r : Str}
    (hnamed : Named params (literalSegs ps)) (hs : Tail s)
    (ht : skipSpace (w.text ++ (render params (literalSegs ps) ++ s)) = '"' :: t)
    (h : readString t = some (fillText params ps, r)) :
    FitsName params ps ∧ render params (literalSegs ps) ++ s = '"' :: t := by
  rw [skipSpace_space] at ht
  rcases literal_cases ps with ⟨k, rfl⟩ | hne
  · obtain ⟨v, hv⟩ := hnamed k (Or.inl List.mem_cons_self)
    have hat : render params (literalSegs [.hole k]) = v.marshal := by
      rw [literalSegs, render_cons, render_nil, List.append_nil, Seg.at, hv]
      rfl
    by_cases hstr : v.isStr = true
    · cases v with
      | str x =>
        rw [hat] at ht ⊢
        exact ⟨⟨x, hv⟩, ht⟩
      | _ => cases hstr
    · obtain ⟨c, cs, hc, hsp, hquote⟩ := compact_start (v := v.sorted)
        (by rw [Json.isStr_sorted]; simpa using hstr)
      rw [hat, Json.marshal, hc, List.cons_append, skipSpace,
        List.dropWhile_cons_of_neg (by simp [hsp])] at ht
      exact absurd (List.cons.inj ht).1 hquote
  · have htext : render params (literalSegs ps) ++ s = '"' :: t := by
      rw [render_literalSegs hne] at ht ⊢
      exact ht
    exact ⟨(fitsName_parts hne).mpr (fitsParts_of_literal hne hnamed hs htext h), htext⟩

theorem head_skipSpace_append (w : Space) {c : Char} (hc : isSpace c = false) (hq : c ≠ '"') (s : Str) :
    (skipSpace (w.text ++ c :: s)).head? ≠ some '"' := by
  rw [skipSpace_append w hc]
  simpa using hq

mutual
/-- A rendered tree that is read as the filled one has arguments that fit. -/
theorem fits_of_parseValue (w : Space) (v : Cst Str) (n : Nat) (s r : Str)
    (hnamed : Named params (cstSegs v)) (hn : (render params (cstSegs v)).length ≤ n)
    (hs : Tail s) (hq : (skipSpace s).head? ≠ some '"')
    (h : parseValue (n + 1) (w.text ++ (render params (cstSegs v) ++ s)) = some (fillCst params v, r)) :
    FitsCst params v := by
  match v with
  | .null => trivial
  | .bool _ => trivial
  | .num _ => trivial
  | .str ps => exact fitsLiteral_of_parseValue w hnamed hs h
  | .hole k =>
    obtain ⟨x, hx⟩ := hnamed k (Or.inr List.mem_cons_self)
    refine ⟨x, hx, ?_⟩
    cases x with
    | str y =>
      have htext : render params (cstSegs (.hole k)) = unquoted (.str y) := by
        rw [cstSegs, render_cons, render_nil, List.append_nil, Seg.at, hx]
        rfl
      have hfill : fillCst params (.hole k) = .str y := by
        rw [fillCst, arg, hx]
        rfl
      rw [htext, hfill] at h
      exact absurd h (not_read_unquoted_str w hq)
    | _ => rfl
  | .arrEmpty _ => trivial
  | .arr xs =>
    rw [render_arr, List.length_cons] at hn
    rw [render_arr, fillCst] at h
    have hne : fillItems params xs ≠ [] := by
      cases xs <;> simp [fillItems]
    rw [cstSegs, named_text] at hnamed
    exact fits_of_parseItems xs n s r hnamed hn (parseValue_arr hne h)
  | .objEmpty _ => trivial
  | .obj ms =>
    rw [render_obj, List.length_cons] at hn
    rw [render_obj, fillCst] at h
    have hne : fillMembers params ms ≠ [] := by
      cases ms <;> simp [fillMembers]
    rw [cstSegs, named_text] at hnamed
    exact fits_of_parseMembers ms n s r hnamed hn (parseValue_obj hne h)
theorem fits_of_parseItems (xs : Items Str) (n : Nat) (s r : Str)
    (hnamed : Named params (itemsSegs xs)) (hn : (render params (itemsSegs xs)).length < n)
    (h : parseItems n (render params (itemsSegs xs) ++ s) = some (fillItems params xs, r)) :
    FitsItems params xs := by
  match xs with
  | .one w v w' =>
    rw [itemsSegs, named_text, named_append] at hnamed
    obtain ⟨hv, _⟩ := hnamed
    rw [render_items_one] at hn
    simp only [List.length_append, List.length_cons, List.length_nil] at hn
    obtain ⟨n, rfl⟩ : ∃ k, n = k + 2 := ⟨n - 2, by omega⟩
    rw [render_items_one, fillItems] at h
    simp only [List.append_assoc, List.cons_append, List.nil_append] at h
    obtain ⟨r', hread, _⟩ := parseItems_cons h
    exact fits_of_parseValue w v n (w'.text ++ ']' :: s) r' hv (by omega)
      (tail_append_space w' (Or.inr (Or.inr (Or.inl rfl))))
      (head_skipSpace_append w' rfl (by decide) s) hread
  | .more w v w' rest =>
    rw [itemsSegs, named_text, named_append, named_text] at hnamed
    obtain ⟨hv, hrest⟩ := hnamed
    rw [render_items_more] at hn
    simp only [List.length_append, List.length_cons] at hn
    obtain ⟨n, rfl⟩ : ∃ k, n = k + 2 := ⟨n - 2, by omega⟩
    rw [render_items_more, fillItems] at h
    simp only [List.append_assoc, List.cons_append] at h
    obtain ⟨r', hread, hmore⟩ := parseItems_cons h
    have htail : Tail (w'.text ++ ',' :: (render params (itemsSegs rest) ++ s)) :=
      tail_append_space w' (Or.inr (Or.inl rfl))
    have hfits := fits_of_parseValue w v n _ r' hv (by omega) htail
      (head_skipSpace_append w' rfl (by decide) _) hread
    -- What was read of the first item is its whole text, so the others start behind the comma.
    rw [parseValue_fits w hfits (by omega) (delimited_of_tail htail)] at hread
    cases hread
    exact ⟨hfits, fits_of_parseItems rest (n + 1) s r hrest (by omega)
      (hmore _ (skipSpace_append w' rfl _))⟩
theorem fits_of_parseMembers (ms : Members Str) (n : Nat) (s r : Str)
    (hnamed : Named params (membersSegs ms)) (hn : (render params (membersSegs ms)).length < n)
    (h : parseMembers n (render params (membersSegs ms) ++ s) = some (fillMembers params ms, r)) :
    FitsMembers params ms := by
  match ms with
  | .one w k m w' v w'' =>
    rw [membersSegs, named_text, named_append, named_text, named_append] at hnamed
    obtain ⟨hk, hv, _⟩ := hnamed
    rw [render_members_one] at hn
    simp only [List.length_append, List.length_cons, List.length_nil] at hn
    obtain ⟨n, rfl⟩ : ∃ k, n = k + 2 := ⟨n - 2, by omega⟩
    rw [render_members_one, fillMembers] at h
    simp only [List.append_assoc, List.cons_append, List.nil_append] at h
    obtain ⟨t, r₁, ht, hname, hvalue⟩ := parseMembers_cons h
    have hcolon : Tail (m.text ++ ':' :: (w'.text ++ (render params (cstSegs v) ++
        (w''.text ++ '}' :: s)))) := tail_append_space m (Or.inr (Or.inr (Or.inr (Or.inr rfl))))
    obtain ⟨hfitsName, htname⟩ := fitsName_of_readString w hk hcolon ht hname
    rw [readString_fits hfitsName htname] at hname
    cases hname
    obtain ⟨r₃, hread, _⟩ := hvalue _ (skipSpace_append m rfl _)
    have hfits := fits_of_parseValue w' v n (w''.text ++ '}' :: s) r₃ hv (by omega)
      (tail_append_space w'' (Or.inr (Or.inr (Or.inr (Or.inl rfl)))))
      (head_skipSpace_append w'' rfl (by decide) s) hread
    exact ⟨hfitsName, hfits⟩
  | .more w k m w' v w'' rest =>
    rw [membersSegs, named_text, named_append, named_text, named_append, named_text] at hnamed
    obtain ⟨hk, hv, hrest⟩ := hnamed
    rw [render_members_more] at hn
    simp only [List.length_append, List.length_cons] at hn
    obtain ⟨n, rfl⟩ : ∃ k, n = k + 2 := ⟨n - 2, by omega⟩
    rw [render_members_more, fillMembers] at h
    simp only [List.append_assoc, List.cons_append] at h
    obtain ⟨t, r₁, ht, hname, hvalue⟩ := parseMembers_cons h
    have hcolon : Tail (m.text ++ ':' :: (w'.text ++ (render params (cstSegs v) ++
        (w''.text ++ ',' :: (render params (membersSegs rest) ++ s))))) :=
      tail_append_space m (Or.inr (Or.inr (Or.inr (Or.inr rfl))))
    obtain ⟨hfitsName, htname⟩ := fitsName_of_readString w hk hcolon ht hname
    rw [readString_fits hfitsName htname] at hname
    cases hname
    obtain ⟨r₃, hread, hmore⟩ := hvalue _ (skipSpace_append m rfl _)
    have htail : Tail (w''.text ++ ',' :: (render params (membersSegs rest) ++ s)) :=
      tail_append_space w'' (Or.inr (Or.inl rfl))
    have hfits := fits_of_parseValue w' v n _ r₃ hv (by omega) htail
      (head_skipSpace_append w'' rfl (by decide) _) hread
    rw [parseValue_fits w' hfits (by omega) (delimited_of_tail htail)] at hread
    cases hread
    exact ⟨hfitsName, hfits, fits_of_parseMembers rest (n + 1) s r hrest (by omega)
      (hmore _ (skipSpace_append w'' rfl _))⟩
end

end Reading

end Janus.Gateway
