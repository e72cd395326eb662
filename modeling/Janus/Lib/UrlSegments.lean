import Janus.Lib.UrlParts

/-!
# Path segments

A path is a list of segments, and a client may remove the segments `.` and `..` from it
before it asks for it. Removal never adds a segment, leaves no dot segment, and keeps a
path without one.
-/

namespace Janus.Text

set_option autoImplicit false

theorem splitOn_ne_nil (sep : Char) (s : Str) : splitOn sep s ≠ [] := by
  cases s with
  | nil => exact List.cons_ne_nil _ _
  | cons c s =>
    rw [splitOn]
    split
    · exact List.cons_ne_nil _ _
    · split <;> exact List.cons_ne_nil _ _

theorem splitOn_append_cons (sep : Char) (x y : Str) :
    splitOn sep (x ++ sep :: y) = splitOn sep x ++ splitOn sep y := by
  have hnil : splitOn sep (sep :: y) = [] :: splitOn sep y := splitOn_append_sep List.not_mem_nil
  induction x with
  | nil => exact hnil
  | cons c x ih =>
    obtain ⟨part, parts, hx⟩ := List.exists_cons_of_ne_nil (splitOn_ne_nil sep x)
    rw [List.cons_append, splitOn, ih, splitOn, hx]
    dsimp only [List.cons_append]
    split <;> rfl

theorem mem_of_mem_splitOn {sep : Char} {s part : Str} (h : part ∈ splitOn sep s) {c : Char}
    (hc : c ∈ part) : c ∈ s := by
  induction s generalizing part with
  | nil =>
    obtain rfl := List.mem_singleton.mp h
    cases hc
  | cons d s ih =>
    obtain ⟨first, parts, hs⟩ := List.exists_cons_of_ne_nil (splitOn_ne_nil sep s)
    rw [hs] at ih
    simp only [splitOn, hs] at h
    split at h
    · obtain rfl | h := List.mem_cons.mp h
      · cases hc
      · exact List.mem_cons_of_mem _ (ih h hc)
    · obtain rfl | h := List.mem_cons.mp h
      · obtain rfl | hc := List.mem_cons.mp hc
        · exact List.mem_cons_self
        · exact List.mem_cons_of_mem _ (ih List.mem_cons_self hc)
      · exact List.mem_cons_of_mem _ (ih (List.mem_cons_of_mem _ h) hc)

theorem notMem_of_mem_splitOn {sep : Char} {s part : Str} (h : part ∈ splitOn sep s) : sep ∉ part := by
  induction s generalizing part with
  | nil =>
    obtain rfl := List.mem_singleton.mp h
    exact List.not_mem_nil
  | cons d s ih =>
    obtain ⟨first, parts, hs⟩ := List.exists_cons_of_ne_nil (splitOn_ne_nil sep s)
    rw [hs] at ih
    simp only [splitOn, hs] at h
    split at h
    · obtain rfl | h := List.mem_cons.mp h
      · exact List.not_mem_nil
      · exact ih h
    · rename_i hd
      obtain rfl | h := List.mem_cons.mp h
      · exact List.not_mem_cons_of_ne_of_not_mem (fun he => hd he.symm) (ih List.mem_cons_self)
      · exact ih (List.mem_cons_of_mem _ h)

theorem mem_splitOn {sep : Char} {s : Str} {c : Char} (h : c ∈ s) :
    c = sep ∨ ∃ part ∈ splitOn sep s, c ∈ part := by
  induction s with
  | nil => cases h
  | cons d s ih =>
    obtain ⟨first, parts, hs⟩ := List.exists_cons_of_ne_nil (splitOn_ne_nil sep s)
    rw [hs] at ih
    simp only [splitOn, hs]
    by_cases hd : d = sep
    · rw [if_pos hd]
      obtain rfl | h := List.mem_cons.mp h
      · exact .inl hd
      · obtain rfl | ⟨part, hpart, hc⟩ := ih h
        · exact .inl rfl
        · exact .inr ⟨part, List.mem_cons_of_mem _ hpart, hc⟩
    · rw [if_neg hd]
      obtain rfl | h := List.mem_cons.mp h
      · exact .inr ⟨c :: first, List.mem_cons_self, List.mem_cons_self⟩
      · obtain rfl | ⟨part, hpart, hc⟩ := ih h
        · exact .inl rfl
        · obtain rfl | hpart := List.mem_cons.mp hpart
          · exact .inr ⟨d :: part, List.mem_cons_self, List.mem_cons_of_mem _ hc⟩
          · exact .inr ⟨part, List.mem_cons_of_mem _ hpart, hc⟩

end Janus.Text

namespace Janus.Url

set_option autoImplicit false

/-- The segments of a rooted path. -/
def pathSegments (path : Str) : List Str := (Text.splitOn '/' path).tail

/-- A segment that stands for a place and not for a name. -/
def IsDots (s : Str) : Prop := s = ['.'] ∨ s = ['.', '.']

instance : DecidablePred IsDots := fun s => inferInstanceAs (Decidable (s = ['.'] ∨ s = ['.', '.']))

/-- Removal of the dot segments behind the segments that are kept already. At the end of a
path a dot segment leaves an empty one. -/
def dotsFrom : List Str → List Str → List Str
  | out, [] => out
  | out, s :: rest =>
    if s = ['.'] then if rest = [] then out ++ [[]] else dotsFrom out rest
    else if s = ['.', '.'] then if rest = [] then out.dropLast ++ [[]] else dotsFrom out.dropLast rest
    else dotsFrom (out ++ [s]) rest

def removeDots (segs : List Str) : List Str := dotsFrom [] segs

example : removeDots ["a".toList, "b".toList, "..".toList, ".".toList, "c".toList, "..".toList] =
    ["a".toList, []] := by decide

theorem dotsFrom_length (out segs : List Str) :
    (dotsFrom out segs).length ≤ out.length + segs.length := by
  induction segs generalizing out with
  | nil => exact Nat.le_refl _
  | cons s rest ih =>
    have hkeep := ih out
    have hdrop := ih out.dropLast
    have hadd := ih (out ++ [s])
    rw [List.length_dropLast] at hdrop
    rw [List.length_append, List.length_singleton] at hadd
    rw [List.length_cons]
    by_cases hone : s = ['.']
    · rw [dotsFrom, if_pos hone]
      split
      · simp
      · omega
    · rw [dotsFrom, if_neg hone]
      split
      · split
        · simp only [List.length_append, List.length_dropLast, List.length_singleton]
          omega
        · omega
      · omega

theorem dotsFrom_mem {out segs : List Str} {s : Str} (h : s ∈ dotsFrom out segs) :
    s ∈ out ∨ s = [] ∨ s ∈ segs ∧ ¬ IsDots s := by
  induction segs generalizing out with
  | nil => exact .inl h
  | cons t rest ih =>
    have hlast (o : List Str) (hs : s ∈ o ++ [[]]) : s ∈ o ∨ s = [] :=
      (List.mem_append.mp hs).imp_right List.mem_singleton.mp
    have hrest (o : List Str) (hs : s ∈ dotsFrom o rest) :
        s ∈ o ∨ s = [] ∨ s ∈ t :: rest ∧ ¬ IsDots s :=
      (ih hs).imp_right (Or.imp_right (And.imp_left (List.mem_cons_of_mem t)))
    simp only [dotsFrom] at h
    split at h
    · split at h
      · exact (hlast out h).imp_right .inl
      · exact hrest out h
    · rename_i hone
      split at h
      · have hkept (hs : s ∈ out.dropLast) : s ∈ out := List.mem_of_mem_dropLast hs
        split at h
        · exact (hlast _ h).imp hkept .inl
        · exact (hrest _ h).imp_left hkept
      · rename_i htwo
        obtain hs | hs := hrest _ h
        · obtain hs | hs := List.mem_append.mp hs
          · exact .inl hs
          · obtain rfl := List.mem_singleton.mp hs
            exact .inr (.inr ⟨List.mem_cons_self, not_or.mpr ⟨hone, htwo⟩⟩)
        · exact .inr hs

theorem dotsFrom_of_not {out segs : List Str} (h : ∀ s ∈ segs, ¬ IsDots s) :
    dotsFrom out segs = out ++ segs := by
  induction segs generalizing out with
  | nil => rw [dotsFrom, List.append_nil]
  | cons s rest ih =>
    obtain ⟨hs, hrest⟩ := List.forall_mem_cons.mp h
    obtain ⟨hone, htwo⟩ := not_or.mp hs
    rw [dotsFrom, if_neg hone, if_neg htwo, ih hrest, List.append_assoc, List.singleton_append]

theorem removeDots_length (segs : List Str) : (removeDots segs).length ≤ segs.length := by
  have h := dotsFrom_length [] segs
  rwa [List.length_nil, Nat.zero_add] at h

theorem not_isDots_removeDots {segs : List Str} {s : Str} (h : s ∈ removeDots segs) : ¬ IsDots s := by
  obtain h | rfl | ⟨_, h⟩ := dotsFrom_mem h
  · cases h
  · decide
  · exact h

theorem mem_of_mem_removeDots {segs : List Str} {s : Str} (h : s ∈ removeDots segs) :
    s = [] ∨ s ∈ segs := by
  obtain h | h | ⟨h, _⟩ := dotsFrom_mem h
  · cases h
  · exact .inl h
  · exact .inr h

theorem removeDots_of_not {segs : List Str} (h : ∀ s ∈ segs, ¬ IsDots s) : removeDots segs = segs :=
  dotsFrom_of_not h

theorem pathSegments_append (x y : Str) :
    pathSegments (x ++ '/' :: y) = pathSegments x ++ Text.splitOn '/' y := by
  unfold pathSegments
  rw [Text.splitOn_append_cons, List.tail_append_of_ne_nil (Text.splitOn_ne_nil '/' x)]

theorem mem_of_mem_pathSegments {path s : Str} (h : s ∈ pathSegments path) {c : Char} (hc : c ∈ s) :
    c ∈ path :=
  Text.mem_of_mem_splitOn (List.mem_of_mem_tail h) hc

/-- A rooted path consists of separators and of what its segments consist of. -/
theorem forall_mem_path {path : Str} {P : Char → Prop} (hroot : ∀ c, path.head? = some c → c = '/')
    (hslash : P '/') (h : ∀ s ∈ pathSegments path, ∀ c ∈ s, P c) : ∀ c ∈ path, P c := by
  intro c hc
  cases path with
  | nil => cases hc
  | cons d r =>
    obtain rfl := hroot d rfl
    have hsegments := pathSegments_append [] r
    obtain rfl | hc := List.mem_cons.mp hc
    · exact hslash
    · obtain rfl | ⟨s, hs, hcs⟩ := @Text.mem_splitOn '/' r c hc
      · exact hslash
      · refine h s ?_ c hcs
        rw [List.nil_append] at hsegments
        rw [hsegments]
        exact List.mem_append_right _ hs

theorem validEncodedChar_escape {bs : List Nat} {c : Char} (h : c ∈ escape .path bs) :
    validEncodedChar .path c = true := by
  obtain ⟨b, _, hc⟩ := List.mem_flatMap.mp h
  unfold escapeByte at hc
  rw [if_neg (by simp)] at hc
  split at hc
  · have hhex (n : Nat) : validEncodedChar .path (upperHex n) = true := by
      have hdigits : ∀ d ∈ "+%0123456789ABCDEF".toList, validEncodedChar .path d = true := by decide
      exact hdigits _ (upperHex_mem n)
    simp only [List.mem_cons, List.not_mem_nil, or_false] at hc
    obtain rfl | rfl | rfl := hc
    · decide
    · exact hhex _
    · exact hhex _
  · rename_i hbare
    obtain rfl := List.mem_singleton.mp hc
    have hb := Bool.eq_false_iff.mpr hbare
    unfold validEncodedChar
    rw [toNat_ofNat_ascii (bare_byte b .path hb).1, hb]
    simp

theorem validEncodedChar_escapedPath {u : URL} {c : Char} (hc : c ∈ u.escapedPath) :
    validEncodedChar .path c = true := by
  unfold URL.escapedPath escapedForm at hc
  split at hc
  · obtain rfl := List.mem_singleton.mp hc
    decide
  · split at hc
    · rename_i hok
      simp only [Bool.and_eq_true] at hok
      exact List.all_eq_true.mp hok.1.2 c hc
    · exact validEncodedChar_escape hc

/-- What follows a path from a query or fragment mark on leaves it as it is. -/
theorem exists_parts_of_path {scheme a path x : Str} (hweb : IsWeb (lower scheme)) (ha : NoEnd a)
    (hroot : ∀ c, path.head? = some c → c = '/') (hquery : '?' ∉ path) (hfrag : '#' ∉ path)
    (hx : ∀ c, x.head? = some c → c = '?' ∨ c = '#') :
    ∃ p : Parts, scheme ++ ':' :: '/' :: '/' :: (a ++ (path ++ x)) = p.text ∧ p.path = path := by
  obtain ⟨f, hf, hmain⟩ := exists_cut '#' x
  generalize (cutAt '#' x).1 = y at hf hmain
  obtain ⟨q, hq, hz⟩ := exists_cut '?' y
  generalize (cutAt '?' y).1 = z at hq hz
  subst hq hf
  simp only [List.mem_append, not_or] at hmain
  obtain rfl : z = [] := by
    cases z with
    | nil => rfl
    | cons c z =>
      obtain rfl | rfl := hx c rfl
      · exact absurd List.mem_cons_self hz
      · exact absurd List.mem_cons_self hmain.1
  have hclean (q' : Str) (hq' : q = some q') : '#' ∉ q' := by
    have hm := hmain.2
    rw [hq'] at hm
    simpa [optionText] using hm
  exact ⟨⟨scheme, a, path, q, f, hweb, ha, hroot, hquery, hfrag, hclean⟩,
    by simp [Parts.text, Parts.hierText], rfl⟩

end Janus.Url
