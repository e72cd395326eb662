import Janus.Lib.UrlHost

/-!
# Web URLs in parts

The text of a web URL with an authority is its scheme, authority, path, query and
fragment put together. Parsing reads the parts back (`parse_text`), every text that
parses into such a URL has them (`exists_parts`), and printing a parsed URL and parsing
it again keeps its scheme, host and encoded path (`parse_string`).
-/

namespace Janus.Url

set_option autoImplicit false

/-- The parts of a web URL, each without the characters that end it. -/
structure Parts where
  scheme : Str
  authority : Str
  path : Str
  query : Option Str
  fragment : Option Str
  web : IsWeb (lower scheme)
  noEnd : NoEnd authority
  rooted : ∀ c, path.head? = some c → c = '/'
  pathNoQuery : '?' ∉ path
  pathNoFragment : '#' ∉ path
  queryNoFragment : ∀ q, query = some q → '#' ∉ q

def optionText (mark : Char) (part : Option Str) : Str := part.elim [] (mark :: ·)

namespace Parts

/-- The part between the scheme and the fragment. -/
def hierText (p : Parts) : Str := '/' :: '/' :: (p.authority ++ (p.path ++ optionText '?' p.query))

def text (p : Parts) : Str := p.scheme ++ ':' :: (p.hierText ++ optionText '#' p.fragment)

end Parts

theorem isLetter_of_lower {c : Char}
    (h : isLetter (if 'A' ≤ c && c ≤ 'Z' then Char.ofNat (c.toNat + 32) else c) = true) :
    isLetter c = true := by
  split at h
  · rename_i hupper
    unfold isLetter
    rw [hupper, Bool.or_true]
  · exact h

theorem letters_of_web {scheme : Str} (h : IsWeb (lower scheme)) :
    scheme ≠ [] ∧ ∀ c ∈ scheme, isLetter c = true := by
  have hlower : lower scheme ≠ [] ∧ ∀ c ∈ lower scheme, isLetter c = true := by
    rcases h with h | h
    · rw [h]
      decide
    · rw [h]
      decide
  refine ⟨fun he => hlower.1 (by rw [he]; rfl), fun c hc => ?_⟩
  exact isLetter_of_lower (hlower.2 _ (List.mem_map_of_mem hc))

theorem getSchemeFrom_letters {scheme : Str} (h : ∀ c ∈ scheme, isLetter c = true) (done rest : Str)
    (hne : done ++ scheme ≠ []) :
    getSchemeFrom done (scheme ++ ':' :: rest) = .found (done ++ scheme) rest := by
  induction scheme generalizing done with
  | nil =>
    rw [List.append_nil] at hne
    simp [getSchemeFrom, isLetter, isSchemeChar, hne]
  | cons c scheme ih =>
    obtain ⟨hc, hrest⟩ := List.forall_mem_cons.mp h
    rw [List.cons_append, getSchemeFrom, if_pos hc, ih hrest _ (by simp)]
    simp

theorem getSchemeFrom_found {done s scheme rest : Str} (h : getSchemeFrom done s = .found scheme rest) :
    done ++ s = scheme ++ ':' :: rest := by
  induction s generalizing done with
  | nil => cases h
  | cons c s ih =>
    have hstep : done ++ c :: s = (done ++ [c]) ++ s := by simp
    rw [getSchemeFrom] at h
    split at h
    · rw [hstep, ih h]
    · split at h
      · split at h
        · cases h
        · rw [hstep, ih h]
      · split at h
        · rename_i hc
          split at h
          · cases h
          · cases h
            rw [hc]
        · cases h

theorem notMem_scheme {scheme : Str} (h : IsWeb (lower scheme)) {c : Char} (hc : isLetter c = false) :
    c ∉ scheme := by
  intro hm
  rw [(letters_of_web h).2 c hm] at hc
  cases hc

theorem parseRest_parts {u : URL} {a path : Str} (hs : u.scheme ≠ []) (ha : '/' ∉ a)
    (hp : ∀ c, path.head? = some c → c = '/') :
    parseRest u ('/' :: '/' :: (a ++ path)) =
      (parseAuthority a).bind fun (user, host) => setPath { u with user := user, host := host } path := by
  have hdrop : (a ++ path).dropWhile (· ≠ '/') = path := by
    have happ := List.takeWhile_append_dropWhile (p := (decide <| · ≠ '/')) (l := a ++ path)
    rw [takeWhile_authority ha hp] at happ
    exact List.append_cancel_left happ
  simp only [parseRest, List.head?_cons, ne_eq, not_true_eq_false, decide_false, Bool.false_and,
    Bool.false_eq_true, if_false, hs, not_false_eq_true, decide_true, Bool.true_or, if_true]
  rw [takeWhile_authority ha hp]
  simp only [ne_eq] at hdrop
  simp only [hdrop]

theorem parseAfterScheme_parts (p : Parts) {scheme : Str} (hs : scheme ≠ []) :
    ∃ force, parseAfterScheme scheme p.hierText = (parseAuthority p.authority).bind fun (user, host) =>
      setPath { empty with
        scheme := scheme, user := user, host := host, rawQuery := p.query.getD [],
        forceQuery := force } p.path := by
  have hslash : '/' ∉ p.authority := p.noEnd.notMem (.inl rfl)
  have hmark : '?' ∉ '/' :: '/' :: (p.authority ++ p.path) := by
    simp [p.noEnd.notMem (.inr (.inl rfl)), p.pathNoQuery]
  have hassoc : p.hierText = ('/' :: '/' :: (p.authority ++ p.path)) ++ optionText '?' p.query := by
    simp [Parts.hierText]
  rw [hassoc]
  unfold parseAfterScheme
  cases p.query with
  | none =>
    rw [optionText, Option.elim_none, List.append_nil, if_neg]
    · rw [cutAt, Option.getD_eq_iff.mpr (.inr ⟨?_, rfl⟩)]
      · exact ⟨false, parseRest_parts hs hslash p.rooted⟩
      · cases hcut : Text.cut '?' ('/' :: '/' :: (p.authority ++ p.path)) with
        | none => rfl
        | some q =>
          refine absurd ?_ hmark
          rw [(cut_eq_some (a := q.1) (b := q.2) hcut).1]
          simp
    · intro h
      simp only [Bool.and_eq_true, decide_eq_true_eq] at h
      exact hmark (List.mem_of_getLast? h.1)
  | some q =>
    rw [optionText, Option.elim_some]
    have hcount : (('/' :: '/' :: (p.authority ++ p.path)) ++ '?' :: q).count '?' = 1 + q.count '?' := by
      rw [List.count_append, List.count_eq_zero_of_not_mem hmark, List.count_cons_self]
      omega
    split
    · rename_i hforce
      simp only [Bool.and_eq_true, decide_eq_true_eq] at hforce
      rw [hcount] at hforce
      have hq : '?' ∉ q := List.count_eq_zero.mp (by omega)
      obtain rfl : q = [] := by
        by_contra hne
        rw [List.getLast?_append_of_ne_nil _ (List.cons_ne_nil _ _), List.getLast?_cons,
          List.getLast?_eq_some_getLast hne] at hforce
        have hlast : q.getLast hne = '?' := by simpa using hforce.1
        exact hq (hlast ▸ List.getLast_mem hne)
      rw [List.dropLast_concat]
      exact ⟨true, parseRest_parts hs hslash p.rooted⟩
    · rw [cutAt, cut_append hmark]
      exact ⟨false, parseRest_parts hs hslash p.rooted⟩

/-- A URL read from parts. -/
structure ReadFrom (p : Parts) (u : URL) : Prop where
  scheme : u.scheme = lower p.scheme
  authority : parseAuthority p.authority = some (u.user, u.host)
  opaqueRest : u.opaqueRest = []
  path : unescape .path p.path = some u.path
  rawPath : u.rawPath = if escape .path u.path = p.path then [] else p.path
  rawQuery : u.rawQuery = p.query.getD []

theorem readFrom_of_parseAfterScheme {p : Parts} {u : URL}
    (h : parseAfterScheme (lower p.scheme) p.hierText = some u) : ReadFrom p u := by
  have hne : lower p.scheme ≠ [] := by
    obtain h | h := p.web
    · rw [h]
      decide
    · rw [h]
      decide
  obtain ⟨force, hparse⟩ := parseAfterScheme_parts p hne
  rw [hparse] at h
  obtain ⟨⟨user, host⟩, hauth, hset⟩ := Option.bind_eq_some_iff.mp h
  obtain ⟨path, hpath, rfl⟩ := Option.map_eq_some_iff.mp hset
  exact ⟨rfl, hauth, rfl, hpath, rfl, rfl⟩

theorem any_isControl_of_parse {s : Str} {u : URL} (h : parse s = some u) :
    (cutAt '#' s).1.any isControl = false := by
  obtain ⟨v, hv, _⟩ := parse_eq_some h
  cases hctl : (cutAt '#' s).1.any isControl with
  | false => rfl
  | true =>
    unfold parseNoFragment at hv
    rw [hctl, if_pos rfl] at hv
    cases hv

theorem cutAt_text (p : Parts) :
    cutAt '#' p.text = (p.scheme ++ ':' :: p.hierText, p.fragment.getD []) := by
  have hcolon : '#' ∉ p.scheme ++ ':' :: p.hierText := by
    have hquery : '#' ∉ optionText '?' p.query := by
      cases hq : p.query with
      | none => simp [optionText]
      | some q => simp [optionText, p.queryNoFragment q hq]
    simp [Parts.hierText, notMem_scheme p.web (c := '#') rfl, p.noEnd.notMem (.inr (.inr rfl)),
      p.pathNoFragment, hquery]
  have htext : p.text = (p.scheme ++ ':' :: p.hierText) ++ optionText '#' p.fragment := by
    simp [Parts.text]
  rw [htext, cutAt]
  cases p.fragment with
  | none =>
    cases hc : Text.cut '#' ((p.scheme ++ ':' :: p.hierText) ++ optionText '#' none) with
    | none => simp [optionText]
    | some q =>
      refine absurd ?_ hcolon
      have hsplit := (cut_eq_some (a := q.1) (b := q.2) hc).1
      rw [optionText, Option.elim_none, List.append_nil] at hsplit
      rw [hsplit]
      simp
  | some f =>
    rw [optionText, Option.elim_some, cut_append hcolon]
    rfl

/-- What stands before the fragment is parsed after its scheme. -/
theorem parseNoFragment_parts (p : Parts) (hctl : (p.scheme ++ ':' :: p.hierText).any isControl = false) :
    parseNoFragment (p.scheme ++ ':' :: p.hierText) = parseAfterScheme (lower p.scheme) p.hierText := by
  obtain ⟨hne, hletters⟩ := letters_of_web p.web
  have hstar : p.scheme ++ ':' :: p.hierText ≠ ['*'] := by
    intro he
    have hlen := congrArg List.length he
    simp [Parts.hierText] at hlen
    omega
  rw [parseNoFragment_eq hctl hstar, getSchemeFrom_letters hletters [] _ (by simpa using hne)]
  rfl

/-- Parsing reads the parts of the text. -/
theorem parse_text {p : Parts} {u : URL} (h : parse p.text = some u) : ReadFrom p u := by
  have hctl := any_isControl_of_parse h
  unfold parse at h
  rw [cutAt_text] at h hctl
  obtain ⟨v, hv, hu⟩ := Option.bind_eq_some_iff.mp h
  rw [parseNoFragment_parts p hctl] at hv
  have hread := readFrom_of_parseAfterScheme hv
  split at hu
  · cases hu
    exact hread
  · obtain ⟨f, _, rfl⟩ := Option.map_eq_some_iff.mp hu
    exact ⟨hread.scheme, hread.authority, hread.opaqueRest, hread.path, hread.rawPath, hread.rawQuery⟩

/-- A text without a fragment is parsed if its authority and its path can be. -/
theorem exists_parse {p : Parts} (hfrag : p.fragment = none) (hctl : p.text.any isControl = false)
    {user : Option Str} {host : Str} (hauth : parseAuthority p.authority = some (user, host))
    {bs : List Nat} (hpath : unescape .path p.path = some bs) :
    ∃ u, parse p.text = some u ∧ u.path = bs := by
  have htext : p.text = p.scheme ++ ':' :: p.hierText := by simp [Parts.text, hfrag, optionText]
  have hne : lower p.scheme ≠ [] := by
    obtain h | h := p.web
    · rw [h]
      decide
    · rw [h]
      decide
  obtain ⟨force, hparse⟩ := parseAfterScheme_parts p hne
  unfold parse
  rw [cutAt_text, hfrag]
  dsimp only [Option.getD_none]
  rw [parseNoFragment_parts p (htext ▸ hctl), hparse, hauth]
  dsimp only [Option.bind_some, setPath]
  rw [hpath]
  exact ⟨_, rfl, rfl⟩

theorem parseRest_split {u v : URL} {rest : Str} (hu : u.host = []) (h : parseRest u rest = some v) :
    v.scheme = u.scheme ∧ (v.host ≠ [] → ∃ r, rest = '/' :: '/' :: r) := by
  have hplain {w : URL} {p : Str} (hw : w.scheme = u.scheme) (hwh : w.host = [])
      (hp : setPath w p = some v) : v.scheme = u.scheme ∧ (v.host ≠ [] → ∃ r, rest = '/' :: '/' :: r) := by
    obtain ⟨hscheme, _, hhost, _⟩ := setPath_eq_some hp
    exact ⟨hscheme.trans hw, fun hne => absurd (hhost.trans hwh) hne⟩
  unfold parseRest at h
  split at h
  · cases h
    exact ⟨rfl, fun hne => absurd hu hne⟩
  · split at h
    · cases h
    · split at h
      · rename_i r _ _
        split at h
        · obtain ⟨⟨user, host⟩, _, hp⟩ := Option.bind_eq_some_iff.mp h
          exact ⟨(setPath_eq_some hp).1, fun _ => ⟨r, rfl⟩⟩
        · exact hplain rfl hu h
      · split at h
        · exact hplain (w := { u with omitHost := true }) rfl hu h
        · exact hplain rfl hu h

/-- A text without a fragment mark, cut at its first query mark. -/
theorem parseAfterScheme_split {scheme rest : Str} {v : URL}
    (h : parseAfterScheme scheme rest = some v) :
    ∃ r q, rest = r ++ optionText '?' q ∧ '?' ∉ r ∧ v.scheme = scheme ∧
      (v.host ≠ [] → ∃ t, r = '/' :: '/' :: t) := by
  unfold parseAfterScheme at h
  split at h
  · rename_i hforce
    simp only [Bool.and_eq_true, decide_eq_true_eq] at hforce
    obtain ⟨hlast, hcount⟩ := hforce
    obtain ⟨r, rfl⟩ := List.getLast?_eq_some_iff.mp hlast
    rw [List.dropLast_concat] at h
    obtain ⟨hscheme, hhost⟩ := parseRest_split rfl h
    refine ⟨r, some [], rfl, ?_, hscheme, hhost⟩
    rw [List.count_append, List.count_singleton_self] at hcount
    exact List.count_eq_zero.mp (by omega)
  · obtain ⟨hscheme, hhost⟩ := parseRest_split rfl h
    cases hcut : Text.cut '?' rest with
    | none =>
      rw [cutAt, hcut] at hhost
      exact ⟨rest, none, by simp [optionText], notMem_of_cut_none hcut, hscheme, hhost⟩
    | some p =>
      obtain ⟨hrest, hmark⟩ := cut_eq_some (a := p.1) (b := p.2) hcut
      rw [cutAt, hcut] at hhost
      exact ⟨p.1, some p.2, hrest, hmark, hscheme, hhost⟩

theorem exists_cut (mark : Char) (s : Str) :
    ∃ q, s = (cutAt mark s).1 ++ optionText mark q ∧ mark ∉ (cutAt mark s).1 := by
  unfold cutAt
  cases hcut : Text.cut mark s with
  | none => exact ⟨none, by simp [optionText], notMem_of_cut_none hcut⟩
  | some p =>
    obtain ⟨hsplit, ha⟩ := cut_eq_some (a := p.1) (b := p.2) hcut
    exact ⟨some p.2, hsplit, ha⟩

/-- Whatever follows the authority is a path, a query and a fragment. -/
theorem exists_parts_of_tail {scheme a t : Str} (hweb : IsWeb (lower scheme)) (ha : NoEnd a)
    (ht : Tail t) : ∃ p : Parts, scheme ++ ':' :: '/' :: '/' :: (a ++ t) = p.text ∧
      p.scheme = scheme ∧ p.authority = a := by
  obtain ⟨f, hf, hmain⟩ := exists_cut '#' t
  generalize (cutAt '#' t).1 = main at hf hmain
  obtain ⟨q, hq, hpath⟩ := exists_cut '?' main
  generalize (cutAt '?' main).1 = path at hq hpath
  subst hq hf
  simp only [List.mem_append, not_or] at hmain
  have hroot (c : Char) (hc : path.head? = some c) : c = '/' := by
    cases path with
    | nil => cases hc
    | cons d path =>
      cases hc
      obtain rfl | rfl | rfl := ht c rfl
      · rfl
      · exact absurd List.mem_cons_self hpath
      · exact absurd List.mem_cons_self hmain.1
  have hclean (q' : Str) (hq' : q = some q') : '#' ∉ q' := by
    have hm := hmain.2
    rw [hq'] at hm
    simpa [optionText] using hm
  exact ⟨⟨scheme, a, path, q, f, hweb, ha, hroot, hpath, hmain.1, hclean⟩,
    by simp [Parts.text, Parts.hierText], rfl, rfl⟩

theorem Parts.tail (p : Parts) :
    Tail (p.path ++ (optionText '?' p.query ++ optionText '#' p.fragment)) := by
  intro c hc
  cases hpath : p.path with
  | cons d path =>
    rw [hpath] at hc
    cases hc
    exact .inl (p.rooted c (by rw [hpath]; rfl))
  | nil =>
    rw [hpath] at hc
    cases hquery : p.query with
    | some q =>
      rw [hquery] at hc
      cases hc
      exact .inr (.inl rfl)
    | none =>
      rw [hquery] at hc
      cases hfrag : p.fragment with
      | some f =>
        rw [hfrag] at hc
        cases hc
        exact .inr (.inr rfl)
      | none =>
        rw [hfrag] at hc
        cases hc

theorem exists_authority (t : Str) :
    ∃ a path, t = a ++ path ∧ '/' ∉ a ∧ ∀ c, path.head? = some c → c = '/' := by
  refine ⟨t.takeWhile (· ≠ '/'), t.dropWhile (· ≠ '/'), List.takeWhile_append_dropWhile.symm, ?_, ?_⟩
  · intro hm
    simpa using List.mem_takeWhile_imp hm
  · intro c hc
    have hnot := List.head?_dropWhile_not (p := (decide <| · ≠ '/')) (l := t)
    rw [hc] at hnot
    simpa using hnot

/-- The text of a web URL with a host has parts. -/
theorem exists_parts {s : Str} {u : URL} (h : parse s = some u) (hweb : IsWeb u.scheme)
    (hhost : u.host ≠ []) : ∃ p : Parts, s = p.text := by
  obtain ⟨v, hv, hscheme, _, hhost', _⟩ := parse_eq_some h
  rw [hscheme] at hweb
  rw [hhost'] at hhost
  obtain ⟨f, hs, hmark⟩ := exists_cut '#' s
  generalize (cutAt '#' s).1 = main at hv hs hmark
  have hschemeless {rest : Str} (hparse : parseAfterScheme [] rest = some v) : False := by
    obtain ⟨_, _, _, _, he, _⟩ := parseAfterScheme_split hparse
    rw [he] at hweb
    exact absurd hweb (by unfold IsWeb; decide)
  cases hctl : main.any isControl with
  | true =>
    unfold parseNoFragment at hv
    rw [hctl, if_pos rfl] at hv
    cases hv
  | false =>
    have hstar : main ≠ ['*'] := by
      rintro rfl
      cases hv
      exact hhost rfl
    rw [parseNoFragment_eq hctl hstar] at hv
    split at hv
    · cases hv
    · rename_i scheme rest hscan
      have hmain := getSchemeFrom_found hscan
      rw [List.nil_append] at hmain
      obtain ⟨r, q, hrest, hquery, he, hsplit⟩ := parseAfterScheme_split hv
      obtain ⟨t, rfl⟩ := hsplit hhost
      rw [he] at hweb
      rw [hmain, hrest] at hmark hs
      simp only [List.mem_append, List.mem_cons, not_or] at hmark hquery
      obtain ⟨a, path, rfl, ha, hpath⟩ := exists_authority t
      simp only [List.mem_append, not_or] at hmark hquery
      have hend : NoEnd a := by
        rintro c hc (rfl | rfl | rfl)
        · exact ha hc
        · exact hquery.2.2.1 hc
        · exact hmark.2.2.1.2.2.1 hc
      have hclean (q' : Str) (hq' : q = some q') : '#' ∉ q' := by
        have hm := hmark.2.2.2
        rw [hq'] at hm
        simpa [optionText] using hm
      refine ⟨⟨scheme, a, path, q, f, hweb, hend, hpath, hquery.2.2.2, hmark.2.2.1.2.2.2, hclean⟩, ?_⟩
      rw [hs]
      simp [Parts.text, Parts.hierText]
    · exact (hschemeless hv).elim

theorem unhex_lt {c : Char} {x : Nat} (h : unhex c = some x) : x < 16 := by
  have hle {a b : Char} (hab : decide (a ≤ b) = true) : a.toNat ≤ b.toNat := of_decide_eq_true hab
  unfold unhex at h
  split at h
  · rename_i hc
    have hhigh := hle (Bool.and_eq_true_iff.mp hc).2
    have hnine : '9'.toNat = '0'.toNat + 9 := rfl
    cases h
    omega
  · split at h
    · rename_i hc
      have hhigh := hle (Bool.and_eq_true_iff.mp hc).2
      have hf : 'f'.toNat = 'a'.toNat + 5 := rfl
      cases h
      omega
    · split at h
      · rename_i hc
        have hhigh := hle (Bool.and_eq_true_iff.mp hc).2
        have hf : 'F'.toNat = 'A'.toNat + 5 := rfl
        cases h
        omega
      · cases h

theorem unescape_lt {mode : Mode} {s : Str} {bs : List Nat} (h : unescape mode s = some bs) :
    ∀ b ∈ bs, b < 256 := by
  fun_induction unescape mode s generalizing bs with
  | case1 =>
    cases h
    simp
  | case2 => cases h
  | case3 a b s x y hy hx _ ih =>
    obtain ⟨r, hr, rfl⟩ := Option.map_eq_some_iff.mp h
    have hxlt := unhex_lt hx
    have hylt := unhex_lt hy
    exact List.forall_mem_cons.mpr ⟨by omega, ih hr⟩
  | case4 => cases h
  | case5 => cases h
  | case6 c s _ _ _ ih =>
    obtain ⟨r, hr, rfl⟩ := Option.map_eq_some_iff.mp h
    exact List.forall_mem_cons.mpr ⟨by decide, ih hr⟩
  | case7 => cases h
  | case8 c s _ _ _ _ ih =>
    obtain ⟨r, hr, rfl⟩ := Option.map_eq_some_iff.mp h
    intro b hb
    obtain hb | hb := List.mem_append.mp hb
    · exact Text.utf8_lt hb
    · exact ih hr b hb

theorem reads_path : Reads .path .path := ⟨by decide, by decide, by decide⟩

namespace ReadFrom

variable {p : Parts} {u : URL} (h : ReadFrom p u)
include h

theorem path_cases : (p.path = [] ∧ u.path = []) ∨
    ∃ r bs, p.path = '/' :: r ∧ u.path = 0x2F :: bs := by
  have hpath := h.path
  cases hp : p.path with
  | nil =>
    rw [hp] at hpath
    exact .inl ⟨rfl, (Option.some.inj hpath).symm⟩
  | cons c r =>
    obtain rfl := p.rooted c (by rw [hp]; rfl)
    rw [hp, unescape_bare (by decide)] at hpath
    obtain ⟨bs, _, hbs⟩ := Option.map_eq_some_iff.mp hpath
    exact .inr ⟨r, bs, rfl, hbs.symm⟩

/-- The encoded path is the path of the text, or the decoded path encoded anew. -/
theorem escapedPath_cases : u.escapedPath = p.path ∨ u.escapedPath = escape .path u.path := by
  have hstar : u.path ≠ [0x2A] := by
    obtain ⟨_, hu⟩ | ⟨_, _, _, hu⟩ := h.path_cases
    · rw [hu]
      decide
    · rw [hu]
      intro he
      cases he
  unfold URL.escapedPath escapedForm
  rw [if_neg hstar, h.rawPath]
  by_cases he : escape .path u.path = p.path
  · rw [if_pos he]
    exact .inr rfl
  · rw [if_neg he]
    split
    · exact .inl rfl
    · exact .inr rfl

/-- Where every character of the path can stand in an encoded path, it is kept as it is. -/
theorem escapedPath_eq (hvalid : p.path.all (validEncodedChar .path) = true) :
    u.escapedPath = p.path := by
  obtain ⟨hp, hu⟩ | ⟨r, bs, hp, hu⟩ := h.path_cases
  · obtain he | he := h.escapedPath_cases
    · exact he
    · rw [he, hu, hp]
      rfl
  · have hstar : u.path ≠ [0x2A] := by
      rw [hu]
      intro he
      cases he
    unfold URL.escapedPath escapedForm
    rw [if_neg hstar, h.rawPath]
    by_cases he : escape .path u.path = p.path
    · rw [if_pos he]
      exact he
    · rw [if_neg he, if_pos]
      simp only [Bool.and_eq_true, decide_eq_true_eq]
      exact ⟨⟨by rw [hp]; exact List.cons_ne_nil _ _, hvalid⟩, h.path⟩

theorem unescape_escapedPath : unescape .path u.escapedPath = some u.path := by
  obtain he | he := h.escapedPath_cases
  · rw [he]
    exact h.path
  · rw [he]
    exact unescape_escape reads_path (unescape_lt h.path)

theorem escapedPath_rooted : ∀ c, u.escapedPath.head? = some c → c = '/' := by
  intro c hc
  obtain he | he := h.escapedPath_cases
  · rw [he] at hc
    exact p.rooted c hc
  · obtain ⟨_, hu⟩ | ⟨r, bs, _, hu⟩ := h.path_cases
    · rw [he, hu] at hc
      cases hc
    · rw [he, hu] at hc
      exact (Option.some.inj hc).symm

theorem notMem_escapedPath {c : Char} (hc : c = '?' ∨ c = '#') : c ∉ u.escapedPath := by
  have hescape : c ∉ escape .path u.path := by
    obtain rfl | rfl := hc
    · exact notMem_escape (by decide) (by decide) _
    · exact notMem_escape (by decide) (by decide) _
  obtain he | he := h.escapedPath_cases
  · rw [he]
    obtain rfl | rfl := hc
    · exact p.pathNoQuery
    · exact p.pathNoFragment
  · rw [he]
    exact hescape

/-- An encoded path is encoded as itself. -/
theorem escapedPath_again {p' : Parts} {u' : URL} (h' : ReadFrom p' u') (hp : p'.path = u.escapedPath) :
    u'.path = u.path ∧ u'.escapedPath = u.escapedPath := by
  have hpath : u'.path = u.path := by
    have hread := h'.path
    rw [hp, h.unescape_escapedPath] at hread
    exact (Option.some.inj hread).symm
  refine ⟨hpath, ?_⟩
  obtain he | he := h'.escapedPath_cases
  · rw [he, hp]
  · by_cases hraw : escape .path u.path = u.escapedPath
    · rw [he, hpath, hraw]
    · -- the encoding that was kept is a valid one, so it is kept again
      have hkept : p'.path.all (validEncodedChar .path) = true := by
        rw [hp]
        unfold URL.escapedPath escapedForm at hraw ⊢
        split
        · rfl
        · rename_i hstar
          rw [if_neg hstar] at hraw
          split
          · rename_i hok
            simp only [Bool.and_eq_true] at hok
            exact hok.1.2
          · rename_i hno
            rw [if_neg hno] at hraw
            exact absurd rfl hraw
      rw [h'.escapedPath_eq hkept, hp]

end ReadFrom

theorem string_rooted {u : URL} (hne : u.scheme ≠ []) (hhost : u.host ≠ []) (hrest : u.opaqueRest = [])
    (hroot : ∀ c, u.escapedPath.head? = some c → c = '/') :
    u.string = u.scheme ++ ':' :: '/' :: '/' :: (authorityText u.user u.host ++ (u.escapedPath ++
      ((if u.forceQuery || u.rawQuery ≠ [] then '?' :: u.rawQuery else []) ++
        (if u.fragment ≠ [] then '#' :: escapedForm .fragment u.fragment u.rawFragment else [])))) := by
  have hslash : (u.escapedPath ≠ [] && u.escapedPath.head? ≠ some '/') = false := by
    cases he : u.escapedPath with
    | nil => rfl
    | cons c r =>
      obtain rfl := hroot c (by rw [he]; rfl)
      rfl
  unfold URL.string
  simp only [hrest, hslash]
  simp [hne, hhost, authorityText]

/-- The printed form of a URL with other query text. -/
theorem string_parts {p : Parts} {u : URL} (h : ReadFrom p u) (hw : WellParsed u) (hhost : u.host ≠ [])
    {q : Str} (hq : '#' ∉ q) :
    ∃ p' : Parts, { u with rawQuery := q }.string = p'.text ∧ p'.scheme = u.scheme ∧
      p'.authority = authorityText u.user u.host ∧ p'.path = u.escapedPath ∧ p'.query.getD [] = q := by
  have hweb : IsWeb u.scheme := h.scheme ▸ p.web
  have hne : u.scheme ≠ [] := by
    obtain h | h := hweb
    · rw [h]
      decide
    · rw [h]
      decide
  have hlower : lower u.scheme = u.scheme := (getScheme_web hweb []).2
  refine ⟨⟨u.scheme, authorityText u.user u.host, u.escapedPath,
    if u.forceQuery || q ≠ [] then some q else none,
    if u.fragment ≠ [] then some (escapedForm .fragment u.fragment u.rawFragment) else none,
    hlower.symm ▸ hweb, noEnd_authorityText hw.user u.host, h.escapedPath_rooted,
    h.notMem_escapedPath (.inl rfl), h.notMem_escapedPath (.inr rfl), ?_⟩, ?_, rfl, rfl, rfl, ?_⟩
  · intro q' hq'
    split at hq'
    · cases hq'
      exact hq
    · cases hq'
  · refine (string_rooted (u := { u with rawQuery := q }) hne hhost h.opaqueRest h.escapedPath_rooted).trans ?_
    have hquery : optionText '?' (if u.forceQuery || q ≠ [] then some q else none) =
        if u.forceQuery || q ≠ [] then '?' :: q else [] := by
      split <;> rfl
    have hfragment : optionText '#'
        (if u.fragment ≠ [] then some (escapedForm .fragment u.fragment u.rawFragment) else none) =
        if u.fragment ≠ [] then '#' :: escapedForm .fragment u.fragment u.rawFragment else [] := by
      split <;> rfl
    simp only [Parts.text, Parts.hierText, hquery, hfragment, List.cons_append, List.append_assoc]
    rfl
  · split
    · rfl
    · rename_i hno
      simp only [Bool.or_eq_true, decide_eq_true_eq, not_or, not_not] at hno
      exact hno.2.symm

/-- Printing and parsing again keeps the scheme, the host and the encoded path. -/
theorem parse_string {p : Parts} {u u' : URL} (h : ReadFrom p u) (hw : WellParsed u)
    (hhost : u.host ≠ []) {q : Str} (hq : '#' ∉ q)
    (hparse : parse { u with rawQuery := q }.string = some u') :
    u'.scheme = u.scheme ∧ u'.host = u.host ∧ u'.path = u.path ∧ u'.escapedPath = u.escapedPath ∧
      u'.rawQuery = q ∧ parseHost (escape .host (Text.bytes u'.host)) = some u'.host := by
  obtain ⟨p', htext, hscheme, hauth, hpath, hquery⟩ := string_parts h hw hhost hq
  rw [htext] at hparse
  have h' := parse_text hparse
  obtain ⟨hsame, hescaped⟩ := h.escapedPath_again h' hpath
  have hauthority := h'.authority
  rw [hauth] at hauthority
  have hweb : IsWeb u.scheme := h.scheme ▸ p.web
  have hkeep := parseAuthority_text hauthority
  refine ⟨?_, hkeep, hsame, hescaped, h'.rawQuery.trans hquery, ?_⟩
  · rw [h'.scheme, hscheme, (getScheme_web hweb []).2]
  · have hform := parseAuthority_host hauthority
    rwa [hkeep] at hform ⊢

end Janus.Url
