import Janus.Lib.UrlParts
import Janus.Lib.UrlQuery

/-!
# Requests for a URL

What a client sends for the text of a URL and what the server reads of it: the query
up to the fragment arrives as it was written (`received_query`). A text that is longer
than its decoded form was encoded.
-/

namespace Janus.Text

set_option autoImplicit false

/-- Decoding takes a first byte and the continuation bytes that belong to it. -/
theorem ofBytes_cons (a : Nat) (bs : List Nat) :
    ∃ n c, n ≤ bs.length ∧ ofBytes (a :: bs) = c :: ofBytes (bs.drop n) ∧
      ∀ b ∈ bs.take n, isContinuation b = true := by
  have hwide {b c : Nat} (h : ofBytes.wide a b c = true) :
      isContinuation b = true ∧ isContinuation c = true := by
    simp only [ofBytes.wide, Bool.and_eq_true] at h
    exact ⟨h.1.1.1.2, h.1.1.2⟩
  have hastral {b c d : Nat} (h : ofBytes.astral a b c d = true) :
      isContinuation b = true ∧ isContinuation c = true ∧ isContinuation d = true := by
    simp only [ofBytes.astral, Bool.and_eq_true] at h
    exact ⟨h.1.1.1.1.2, h.1.1.1.2, h.1.1.2⟩
  by_cases ha : a < 0x80
  · exact ⟨0, Char.ofNat a, Nat.zero_le _, ofBytes_one ha bs, by simp⟩
  by_cases h2 : 0xC2 ≤ a ∧ a < 0xE0 ∧ ∃ b r, bs = b :: r ∧ isContinuation b = true
  · obtain ⟨hle, hlt, b, r, rfl, hb⟩ := h2
    have hcont : 0x80 ≤ b ∧ b < 0xC0 := by simpa [isContinuation] using hb
    exact ⟨1, _, by simp, ofBytes_two hle hlt hcont.1 hcont.2 r, by simpa using hb⟩
  by_cases h3 : ∃ b c r, bs = b :: c :: r ∧ ofBytes.wide a b c = true
  · obtain ⟨b, c, r, rfl, h⟩ := h3
    exact ⟨2, _, by simp, ofBytes_three h r, by simpa using hwide h⟩
  by_cases h4 : ∃ b c d r, bs = b :: c :: d :: r ∧ ofBytes.astral a b c d = true
  · obtain ⟨b, c, d, r, rfl, h⟩ := h4
    exact ⟨3, _, by simp, ofBytes_four h r, by simpa using hastral h⟩
  refine ⟨0, Char.ofNat 0xFFFD, Nat.zero_le _, ?_, by simp⟩
  have hno2 {b : Nat} {r : List Nat} (he : bs = b :: r) :
      (decide (0xC2 ≤ a) && decide (a < 0xE0) && isContinuation b) = false := by
    by_contra h
    simp only [Bool.not_eq_false, Bool.and_eq_true, decide_eq_true_eq] at h
    exact h2 ⟨h.1.1, h.1.2, b, r, he, h.2⟩
  have hno3 {b c : Nat} {r : List Nat} (he : bs = b :: c :: r) : ofBytes.wide a b c = false := by
    by_contra h
    exact h3 ⟨b, c, r, he, by simpa using h⟩
  have hno4 {b c d : Nat} {r : List Nat} (he : bs = b :: c :: d :: r) :
      ofBytes.astral a b c d = false := by
    by_contra h
    exact h4 ⟨b, c, d, r, he, by simpa using h⟩
  rcases bs with _ | ⟨b, _ | ⟨c, _ | ⟨d, rest⟩⟩⟩
  · simp [ofBytes, ha]
  · simp [ofBytes, ha, hno2 rfl]
  · simp [ofBytes, ha, hno2 rfl, hno3 rfl]
  · simp [ofBytes, ha, hno2 rfl, hno3 rfl, hno4 rfl]

/-- No byte is decoded into more than one character, and none reaches into bytes that start one. -/
theorem length_ofBytes_append (a : List Nat) {b : List Nat}
    (hb : ∀ x, b.head? = some x → isContinuation x = false) :
    (ofBytes (a ++ b)).length ≤ a.length + (ofBytes b).length := by
  induction hn : a.length using Nat.strong_induction_on generalizing a with
  | h n ih =>
    cases a with
    | nil => simp
    | cons x a =>
      obtain ⟨k, c, hk, hof, hcont⟩ := ofBytes_cons x (a ++ b)
      have hle : k ≤ a.length := by
        by_contra hlt
        rw [List.length_append] at hk
        cases b with
        | nil => simp at hk; omega
        | cons y b =>
          have hmem : y ∈ (a ++ y :: b).take k := by
            rw [List.take_append]
            have hpos : k - a.length = (k - a.length - 1) + 1 := by omega
            rw [hpos]
            simp
          have hy := hcont y hmem
          rw [hb y rfl] at hy
          cases hy
      have hdrop : (a ++ b).drop k = a.drop k ++ b := List.drop_append_of_le_length hle
      have hlen : (a.drop k).length < n := by
        rw [List.length_drop, ← hn, List.length_cons]
        omega
      have hrest := ih _ hlen (a.drop k) rfl
      rw [List.cons_append, hof, hdrop, List.length_cons]
      rw [List.length_drop] at hrest
      simp only [List.length_cons] at hn
      omega

theorem head_utf8 (c : Char) (bs : List Nat) :
    ∀ x, (utf8 c ++ bs).head? = some x → isContinuation x = false := by
  intro x hx
  have hvalid := toNat_cases c
  unfold utf8 at hx
  simp only [isContinuation, Bool.and_eq_false_iff, decide_eq_false_iff_not]
  dsimp only at hx
  split_ifs at hx <;> simp only [List.cons_append, List.head?_cons, Option.some.injEq] at hx <;> omega

/-- A part is as long as the text only where the text has no separator. -/
theorem length_of_mem_splitOn {sep : Char} {s part : Str} (h : part ∈ splitOn sep s) :
    part.length ≤ s.length ∧ (sep ∈ s → part.length < s.length) := by
  induction s generalizing part with
  | nil =>
    rw [splitOn, List.mem_singleton] at h
    subst h
    exact ⟨Nat.le_refl _, fun hm => absurd hm List.not_mem_nil⟩
  | cons c s ih =>
    obtain ⟨p, ps, hs⟩ := List.exists_cons_of_ne_nil (splitOn_ne_nil sep s)
    rw [splitOn, hs] at h
    rw [hs] at ih
    by_cases hc : c = sep
    · simp only [if_pos hc] at h
      rcases List.mem_cons.mp h with rfl | h
      · simp
      · have hlen := (ih h).1
        rw [List.length_cons]
        exact ⟨by omega, fun _ => by omega⟩
    · simp only [if_neg hc] at h
      have htail : sep ∈ c :: s → sep ∈ s := by
        intro hm
        exact (List.mem_cons.mp hm).resolve_left fun he => hc he.symm
      rcases List.mem_cons.mp h with rfl | h
      · obtain ⟨hle, hlt⟩ := ih List.mem_cons_self
        rw [List.length_cons, List.length_cons]
        exact ⟨by omega, fun hm => by have := hlt (htail hm); omega⟩
      · obtain ⟨hle, hlt⟩ := ih (List.mem_cons_of_mem p h)
        rw [List.length_cons]
        exact ⟨by omega, fun _ => by omega⟩

theorem eq_of_mem_splitOn {sep : Char} {s part : Str} (h : part ∈ splitOn sep s)
    (hlen : s.length ≤ part.length) : part = s ∧ sep ∉ s := by
  have hsep : sep ∉ s := fun hm => by
    have hlt := (length_of_mem_splitOn h).2 hm
    omega
  rw [splitOn_of_notMem hsep, List.mem_singleton] at h
  exact ⟨h, hsep⟩

end Janus.Text

namespace Janus.Url

set_option autoImplicit false

/-- A decoded text is shorter by two characters, or more, for every percent sign. -/
theorem length_unescape {s : Str} {bs : List Nat} (h : unescape .queryComponent s = some bs)
    (done : List Nat) :
    (Text.ofBytes (done ++ bs)).length + 2 * s.count '%' ≤ done.length + s.length := by
  have hempty (done : List Nat) : (Text.ofBytes done).length ≤ done.length := by
    simpa [Text.ofBytes] using Text.length_ofBytes_append done (b := []) (by simp)
  revert h
  generalize hm : Mode.queryComponent = m
  fun_induction unescape m s generalizing bs done with
  | case1 =>
    intro h
    cases h
    simpa using hempty done
  | case2 => intro h; cases h
  | case3 a b r x y hy hx hbad ih =>
    intro h
    obtain ⟨bs', hbs', rfl⟩ := Option.map_eq_some_iff.mp h
    have hne {c : Char} {n : Nat} (hc : unhex c = some n) : (c == '%') = false := by
      rw [beq_eq_false_iff_ne]
      rintro rfl
      cases hc
    have hlen := ih (done ++ [16 * x + y]) hbs'
    simp only [List.append_assoc, List.singleton_append, List.length_append, List.length_singleton] at hlen
    simp only [List.count_cons, hne hx, hne hy, List.length_cons, beq_self_eq_true, if_true,
      Bool.false_eq_true, if_false]
    omega
  | case4 => intro h; cases h
  | case5 => intro h; cases h
  | case6 c r hpair hpct hplus ih =>
    intro h
    have hne : c ≠ '%' := fun he => hpct he
    obtain ⟨bs', hbs', rfl⟩ := Option.map_eq_some_iff.mp h
    have hlen := ih (done ++ [0x20]) hbs'
    simp only [List.append_assoc, List.singleton_append, List.length_append, List.length_singleton] at hlen
    rw [List.count_cons_of_ne hne, List.length_cons]
    omega
  | case7 => intro h; cases h
  | case8 c r hpair hpct hplus hhost ih =>
    intro h
    have hne : c ≠ '%' := fun he => hpct he
    obtain ⟨bs', hbs', rfl⟩ := Option.map_eq_some_iff.mp h
    have hlen := ih [] hbs'
    have happ := Text.length_ofBytes_append done (Text.head_utf8 c bs')
    rw [Text.ofBytes_utf8, List.length_cons] at happ
    rw [List.nil_append, List.length_nil] at hlen
    rw [List.count_cons_of_ne hne, List.length_cons]
    omega

theorem length_queryUnescape {s t : Str} (h : queryUnescape s = some t) :
    t.length + 2 * s.count '%' ≤ s.length := by
  obtain ⟨bs, hbs, rfl⟩ := Option.map_eq_some_iff.mp h
  simpa using length_unescape hbs []

theorem queryUnescape_of_notMem {s : Str} (h : '%' ∉ s) : queryUnescape s = some (s.map plusToSpace) := by
  have hbytes : unescape .queryComponent s = some (Text.bytes (s.map plusToSpace)) := by
    induction s with
    | nil => rfl
    | cons c s ih =>
      obtain ⟨hc, hs⟩ := not_or.mp (List.mem_cons.not.mp h)
      rw [unescape]
      · rw [ih hs, List.map_cons]
        by_cases hplus : c = '+'
        · subst hplus
          rfl
        · simp [hplus, plusToSpace, Text.bytes]
      · intro _ _ _ he
        exact absurd he.symm hc
      · intro he
        exact absurd he.symm hc
  rw [queryUnescape, hbytes, Option.map_some, Text.ofBytes_bytes]

/-- A text that is decoded into itself has neither a percent sign nor a plus sign. -/
theorem notMem_of_queryUnescape_self {s : Str} (h : queryUnescape s = some s) : '%' ∉ s ∧ '+' ∉ s := by
  have hpct : '%' ∉ s := by
    intro hm
    have hpos := List.count_pos_iff.mpr hm
    have hle := length_queryUnescape h
    omega
  refine ⟨hpct, ?_⟩
  intro hm
  have hself : s.map plusToSpace = s := Option.some.inj ((queryUnescape_of_notMem hpct).symm.trans h)
  have hclean : '+' ∉ s.map plusToSpace := by
    rw [List.mem_map]
    rintro ⟨c, _, hc⟩
    unfold plusToSpace at hc
    split at hc
    · cases hc
    · rename_i hne
      exact hne hc
  rw [hself] at hclean
  exact hclean hm

/-- The characters that have a meaning in a query, or end it. -/
def queryMarks : Str := ['#', '&', ';', '+', '%']

/-- A text that stands in a query as it is. -/
def Bare (s : Str) : Prop := ∀ c ∈ s, c ∉ queryMarks

instance (s : Str) : Decidable (Bare s) := inferInstanceAs (Decidable (∀ c ∈ s, c ∉ queryMarks))

theorem Bare.notMem {s : Str} (h : Bare s) {c : Char} (hc : c ∈ queryMarks) : c ∉ s := fun hm => h c hm hc

theorem cutAt_of_notMem {c : Char} {s : Str} (h : c ∉ s) : cutAt c s = (s, []) := by
  have hcut := cut_append_left h []
  rw [List.append_nil] at hcut
  rw [cutAt, hcut]
  rfl

theorem cutAt_append {c : Char} {s : Str} (h : c ∉ s) (t : Str) : cutAt c (s ++ c :: t) = (s, t) := by
  rw [cutAt, cut_append h]
  rfl

/-- A bare text is the only value of a query in which it stands. -/
theorem readPairs_bare {name s : Str} (hname : Bare name) (heq : '=' ∉ name) (hs : Bare s) :
    readPairs (name ++ '=' :: s) = [(name, s)] := by
  have hmark {c : Char} (hc : c ∈ queryMarks) : c ∉ name ++ '=' :: s := by
    have hne : c ≠ '=' := by
      rintro rfl
      exact absurd hc (by decide)
    simp [hname.notMem hc, hs.notMem hc, hne]
  have hplain {t : Str} (ht : Bare t) : queryUnescape t = some t := by
    apply queryUnescape_plain
    intro c hc
    exact ⟨fun he => ht c hc (he ▸ by decide), fun he => ht c hc (he ▸ by decide)⟩
  apply readPairs_single (hmark (by decide))
  have hsemi : (name ++ '=' :: s).contains ';' = false := by
    simpa using hmark (c := ';') (by decide)
  rw [readPair, hsemi, if_neg (by simp), cutAt_append heq, hplain hname, Option.bind_some, hplain hs]
  rfl

/-- A text that is read from a query in which it stands as it is, up to the fragment, is bare. -/
theorem bare_of_mem_valuesOf {name s : Str} (hs : s ≠ [])
    (h : s ∈ valuesOf (name ++ '=' :: (cutAt '#' s).1) name) : Bare s := by
  obtain ⟨t, hcut, hhash⟩ := exists_cut '#' s
  generalize (cutAt '#' s).1 = front at h hcut hhash
  have hfront : front.length ≤ s.length := by
    rw [hcut, List.length_append]
    omega
  rw [valuesOf_eq] at h
  obtain ⟨⟨n, v⟩, hp, hv⟩ := List.mem_map.mp h
  obtain ⟨hp, hn⟩ := List.mem_filter.mp hp
  obtain ⟨part, hpart, hread⟩ := List.mem_filterMap.mp hp
  obtain rfl : n = name := by simpa using hn
  obtain rfl : v = s := hv
  unfold readPair at hread
  split at hread
  · cases hread
  · rename_i hsemi
    obtain ⟨k, hk, hread⟩ := Option.bind_eq_some_iff.mp hread
    obtain ⟨w, hw, hpair⟩ := Option.map_eq_some_iff.mp hread
    cases hpair
    obtain ⟨raw, hrest, heq⟩ := exists_cut '=' part
    generalize (cutAt '=' part).1 = key at hk hrest heq
    cases raw with
    | none =>
      rw [optionText, Option.elim, List.append_nil] at hrest
      rw [hrest, cutAt_of_notMem heq] at hw
      exact absurd (Option.some.inj hw).symm hs
    | some raw =>
      rw [optionText, Option.elim] at hrest
      rw [hrest, cutAt_append heq] at hw
      dsimp only at hw
      -- every part of the query is at most as long as what was written, so all of it is the value
      have hkey := length_queryUnescape hk
      have hvalue := length_queryUnescape hw
      have hlen : (n ++ '=' :: front).length ≤ part.length := by
        rw [hrest, List.length_append, List.length_append, List.length_cons, List.length_cons]
        omega
      obtain ⟨hsame, hamp⟩ := Text.eq_of_mem_splitOn hpart hlen
      have hsplit : key ++ '=' :: raw = n ++ '=' :: front := hrest.symm.trans hsame
      have hlens : key.length + raw.length = n.length + front.length := by
        have := congrArg List.length hsplit
        simp only [List.length_append, List.length_cons] at this
        omega
      obtain ⟨rfl, hraw⟩ := List.append_inj hsplit (by omega)
      obtain rfl := (List.cons.inj hraw).2
      have hwhole : raw = v := by
        have hpre : raw <+: v := ⟨_, hcut.symm⟩
        exact hpre.eq_of_length (by omega)
      subst hwhole
      obtain ⟨hpct, hplus⟩ := notMem_of_queryUnescape_self hw
      rw [hsame] at hsemi
      intro c hc hmark
      have hcases : c = '#' ∨ c = '&' ∨ c = ';' ∨ c = '+' ∨ c = '%' := by
        simpa [queryMarks] using hmark
      rcases hcases with rfl | rfl | rfl | rfl | rfl
      · exact hhash hc
      · exact hamp (by simp [hc])
      · exact hsemi (by simp [hc])
      · exact hplus hc
      · exact hpct hc

/-- `URL.RequestURI`. -/
def URL.requestURI (u : URL) : Str :=
  let result :=
    if u.opaqueRest = [] then if u.escapedPath = [] then ['/'] else u.escapedPath
    else if Text.hasPrefix u.opaqueRest ['/', '/'] then u.scheme ++ ':' :: u.opaqueRest
    else u.opaqueRest
  if u.forceQuery || u.rawQuery ≠ [] then result ++ '?' :: u.rawQuery else result

/-- The target of the request line for the text of a URL. -/
def requestTarget (url : Str) : Option Str :=
  (parse url).bind fun u =>
    if (u.scheme = "http".toList || u.scheme = "https".toList) && u.host ≠ [] then some u.requestURI
    else none

/-- The URL a server reads from the target. A space ends the target, and what follows is no
version of the protocol then. -/
def received (target : Str) : Option URL :=
  if target.contains ' ' || target.any isControl || target.head? ≠ some '/' then none
  else if target.getLast? = some '?' && target.count '?' = 1 then
    setPath { empty with forceQuery := true } target.dropLast
  else
    let (path, query) := cutAt '?' target
    setPath { empty with rawQuery := query } path

/-- The query of a text is what stands between the first question mark and the fragment. -/
theorem parts_query {p : Parts} {left q : Str} (hquery : '?' ∉ left) (hfrag : '#' ∉ left)
    (h : p.text = left ++ '?' :: q) : p.query = some (cutAt '#' q).1 := by
  have hleft {front r : Str} (hq : '?' ∉ front) (hf : '#' ∉ front)
      (hr : r.takeWhile (fun c => c ≠ '?' && c ≠ '#') = []) :
      (front ++ r).takeWhile (fun c => c ≠ '?' && c ≠ '#') = front := by
    rw [List.takeWhile_append_of_pos, hr, List.append_nil]
    intro c hc
    have hcq : c ≠ '?' := fun he => hq (he ▸ hc)
    have hcf : c ≠ '#' := fun he => hf (he ▸ hc)
    simp [hcq, hcf]
  have htext : p.text = (p.scheme ++ ':' :: '/' :: '/' :: (p.authority ++ p.path)) ++
      (optionText '?' p.query ++ optionText '#' p.fragment) := by
    simp [Parts.text, Parts.hierText]
  have hfront {c : Char} (hc : c = '?' ∨ c = '#') :
      c ∉ p.scheme ++ ':' :: '/' :: '/' :: (p.authority ++ p.path) := by
    have hscheme : c ∉ p.scheme := notMem_scheme p.web (by obtain rfl | rfl := hc <;> decide)
    have hauth : c ∉ p.authority := fun hm => p.noEnd c hm (.inr hc)
    have hpath : c ∉ p.path := by
      obtain rfl | rfl := hc
      · exact p.pathNoQuery
      · exact p.pathNoFragment
    obtain rfl | rfl := hc
    · simp [hscheme, hauth, hpath]
    · simp [hscheme, hauth, hpath]
  have hrest : (optionText '?' p.query ++ optionText '#' p.fragment).takeWhile
      (fun c => c ≠ '?' && c ≠ '#') = [] := by
    cases p.query with
    | none => cases p.fragment <;> simp [optionText]
    | some q => simp [optionText]
  rw [htext] at h
  have hsame := congrArg (List.takeWhile fun c => c ≠ '?' && c ≠ '#') h
  rw [hleft (hfront (.inl rfl)) (hfront (.inr rfl)) hrest, hleft hquery hfrag (by simp)] at hsame
  rw [hsame] at h
  have hmarks := List.append_cancel_left h
  cases hpq : p.query with
  | none =>
    rw [hpq] at hmarks
    cases hpf : p.fragment with
    | none => rw [hpf] at hmarks; cases hmarks
    | some f =>
      rw [hpf] at hmarks
      simp [optionText] at hmarks
  | some q' =>
    have hclean := p.queryNoFragment q' hpq
    rw [hpq] at hmarks
    obtain rfl : q' ++ optionText '#' p.fragment = q := by simpa [optionText] using hmarks
    cases p.fragment with
    | none => rw [optionText, Option.elim, List.append_nil, cutAt_of_notMem hclean]
    | some f => rw [optionText, Option.elim, cutAt_append hclean]

/-- The query arrives up to the fragment, as it was written. -/
theorem received_query {left q target : Str} {u : URL} (hquery : '?' ∉ left) (hfrag : '#' ∉ left)
    (hq : (cutAt '#' q).1 ≠ []) (hsend : requestTarget (left ++ '?' :: q) = some target)
    (hrecv : received target = some u) : u.rawQuery = (cutAt '#' q).1 := by
  obtain ⟨v, hv, htarget⟩ := Option.bind_eq_some_iff.mp hsend
  split at htarget
  · rename_i hcond
    simp only [Bool.and_eq_true, Bool.or_eq_true, decide_eq_true_eq] at hcond
    obtain ⟨p, hp⟩ := exists_parts hv hcond.1 hcond.2
    have hread := parse_text (hp ▸ hv)
    have hraw : v.rawQuery = (cutAt '#' q).1 := by
      rw [hread.rawQuery, parts_query hquery hfrag hp.symm, Option.getD_some]
    generalize (cutAt '#' q).1 = raw at hq hraw ⊢
    obtain ⟨result, hresult, hclean⟩ : ∃ result, target = result ++ '?' :: raw ∧ '?' ∉ result := by
      refine ⟨if v.escapedPath = [] then ['/'] else v.escapedPath, ?_, ?_⟩
      · rw [← Option.some.inj htarget, URL.requestURI, hread.opaqueRest, hraw]
        simp [hq]
      · split
        · decide
        · exact hread.notMem_escapedPath (.inl rfl)
    unfold received at hrecv
    have hforce : (target.getLast? = some '?' && target.count '?' = 1) = false := by
      by_contra h
      simp only [Bool.not_eq_false, Bool.and_eq_true, decide_eq_true_eq] at h
      obtain ⟨hlast, hcount⟩ := h
      rw [hresult, List.getLast?_append_cons, List.getLast?_cons_of_ne_nil hq] at hlast
      have hpos := List.count_pos_iff.mpr (List.mem_of_getLast? hlast)
      rw [hresult, List.count_append, List.count_cons_self] at hcount
      omega
    split at hrecv
    · cases hrecv
    · rw [hforce, if_neg (by simp)] at hrecv
      rw [hresult, cutAt_append hclean] at hrecv
      obtain ⟨bs, _, rfl⟩ := Option.map_eq_some_iff.mp hrecv
      rfl
  · cases htarget

end Janus.Url
