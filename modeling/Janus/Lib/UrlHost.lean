import Janus.Lib.UrlText

/-!
# The host of a printed URL

A URL that is printed and parsed again has the host it had (`host_of_parse_string`): no
character of the printed authority ends it early, and what is decoded is what was
encoded, whichever rules for hosts and zones the parser applies.
-/

namespace Janus.Url

set_option autoImplicit false

theorem unescape_encoded {a b : Char} {x y : Nat} (hx : unhex a = some x) (hy : unhex b = some y)
    (s : Str) :
    unescape .path ('%' :: a :: b :: s) = (unescape .path s).map fun bs => (16 * x + y) :: bs := by
  simp [unescape, hx, hy, badEscape]

theorem unescape_bare {c : Char} (hc : c ≠ '%') (s : Str) :
    unescape .path (c :: s) = (unescape .path s).map fun bs => Text.utf8 c ++ bs := by
  rw [unescape]
  · simp
  · intro _ _ _ he
    exact absurd he hc
  · intro he
    exact absurd he hc

theorem unescape_append {s : Str} {a : List Nat} (h : unescape .path s = some a) (t : Str) :
    unescape .path (s ++ t) = (unescape .path t).map fun b => a ++ b := by
  fun_induction unescape .path s generalizing a with
  | case1 =>
    cases h
    simp
  | case2 => cases h
  | case3 x y s m n hy hx _ ih =>
    obtain ⟨r, hr, rfl⟩ := Option.map_eq_some_iff.mp h
    rw [List.cons_append, List.cons_append, List.cons_append, unescape_encoded hx hy, ih hr,
      Option.map_map]
    rfl
  | case4 => cases h
  | case5 => cases h
  | case6 c s _ _ hq _ => simp at hq
  | case7 c s _ _ _ hq => simp at hq
  | case8 c s _ hc _ _ ih =>
    obtain ⟨r, hr, rfl⟩ := Option.map_eq_some_iff.mp h
    rw [List.cons_append, unescape_bare hc, ih hr, Option.map_map]
    simp [Function.comp_def]

/-- The rules for hosts and zones refuse more and decode alike. -/
theorem unescape_path_of_some {mode : Mode} (hm : mode ≠ .queryComponent) {s : Str} {a : List Nat}
    (h : unescape mode s = some a) : unescape .path s = some a := by
  fun_induction unescape mode s generalizing a with
  | case1 => exact h
  | case2 => cases h
  | case3 x y s m n hy hx _ ih =>
    obtain ⟨r, hr, rfl⟩ := Option.map_eq_some_iff.mp h
    rw [unescape_encoded hx hy, ih hr]
    rfl
  | case4 => cases h
  | case5 => cases h
  | case6 c s _ _ hq _ => simp [hm] at hq
  | case7 => cases h
  | case8 c s _ hc _ _ ih =>
    obtain ⟨r, hr, rfl⟩ := Option.map_eq_some_iff.mp h
    rw [unescape_bare hc, ih hr]
    rfl

theorem cut_eq_some {sep : Char} {s a b : Str} (h : Text.cut sep s = some (a, b)) :
    s = a ++ sep :: b ∧ sep ∉ a := by
  induction s generalizing a with
  | nil => cases h
  | cons c s ih =>
    simp only [Text.cut] at h
    split at h
    · rename_i hc
      cases h
      exact ⟨by rw [hc]; rfl, List.not_mem_nil⟩
    · rename_i hc
      obtain ⟨⟨a', b'⟩, hcut, he⟩ := Option.map_eq_some_iff.mp h
      cases he
      obtain ⟨rfl, hn⟩ := ih hcut
      refine ⟨rfl, ?_⟩
      intro hmem
      rcases List.mem_cons.mp hmem with he | hmem
      · exact hc he.symm
      · exact hn hmem

theorem cutLast_eq_some {sep : Char} {s a b : Str} (h : cutLast sep s = some (a, b)) :
    s = a ++ sep :: b ∧ sep ∉ b := by
  obtain ⟨⟨x, y⟩, hcut, he⟩ := Option.map_eq_some_iff.mp h
  cases he
  obtain ⟨hs, hn⟩ := cut_eq_some hcut
  refine ⟨?_, by simpa using hn⟩
  rw [← List.reverse_inj, hs]
  simp

theorem cutLast_append {sep : Char} (s : Str) {t : Str} (h : sep ∉ t) :
    cutLast sep (s ++ sep :: t) = some (s, t) := by
  have hrev : (s ++ sep :: t).reverse = t.reverse ++ sep :: s.reverse := by simp
  rw [cutLast, hrev, cut_append (by simpa using h)]
  simp

theorem cutLast_eq_none {sep : Char} {s : Str} (h : sep ∉ s) : cutLast sep s = none := by
  cases hc : cutLast sep s with
  | none => rfl
  | some p =>
    obtain ⟨a, b⟩ := p
    refine absurd ?_ h
    rw [(cutLast_eq_some hc).1]
    simp

theorem cutZone_eq_some {s a b : Str} (h : cutZone s = some (a, b)) : s = a ++ b := by
  induction s generalizing a with
  | nil => cases h
  | cons c s ih =>
    simp only [cutZone] at h
    split at h
    · cases h
      rfl
    · obtain ⟨⟨a', b'⟩, hcut, he⟩ := Option.map_eq_some_iff.mp h
      cases he
      rw [ih hcut, List.cons_append]

/-- Whatever form a host has, it is decoded byte for byte. -/
theorem parseHost_eq_some {s h : Str} (hp : parseHost s = some h) :
    ∃ bs, unescape .path s = some bs ∧ h = Text.ofBytes bs := by
  have hplain {h : Str} (hp : (unescape .host s).map Text.ofBytes = some h) :
      ∃ bs, unescape .path s = some bs ∧ h = Text.ofBytes bs := by
    obtain ⟨bs, hbs, rfl⟩ := Option.map_eq_some_iff.mp hp
    exact ⟨bs, unescape_path_of_some (by decide) hbs, rfl⟩
  unfold parseHost at hp
  split at hp
  · cases hp
  split at hp
  · split at hp
    · cases hp
    · rename_i inner port hcut
      split at hp
      · split at hp
        · rename_i addr zone hzone
          obtain ⟨x, hx, hp⟩ := Option.bind_eq_some_iff.mp hp
          obtain ⟨y, hy, hp⟩ := Option.bind_eq_some_iff.mp hp
          split at hp
          · obtain ⟨z, hz, rfl⟩ := Option.map_eq_some_iff.mp hp
            refine ⟨x ++ y ++ z, ?_, rfl⟩
            rw [(cutLast_eq_some hcut).1, cutZone_eq_some hzone, List.append_assoc,
              unescape_append (unescape_path_of_some (by decide) hx),
              unescape_append (unescape_path_of_some (by decide) hy),
              unescape_path_of_some (by decide) hz]
            simp
          · cases hp
        · obtain ⟨x, hx, hp⟩ := Option.bind_eq_some_iff.mp hp
          split at hp
          · obtain ⟨z, hz, rfl⟩ := Option.map_eq_some_iff.mp hp
            refine ⟨x ++ z, ?_, rfl⟩
            rw [(cutLast_eq_some hcut).1, unescape_append (unescape_path_of_some (by decide) hx),
              unescape_path_of_some (by decide) hz]
            simp
          · cases hp
      · cases hp
  · split at hp
    · split at hp
      · exact hplain hp
      · cases hp
    · exact hplain hp

theorem parseHost_escape {h h' : Str} (hp : parseHost (escape .host (Text.bytes h)) = some h') :
    h' = h := by
  have hr : Reads .path .host := ⟨by decide, by decide, by decide⟩
  obtain ⟨bs, hbs, rfl⟩ := parseHost_eq_some hp
  rw [unescape_escape hr fun b hb => Text.bytes_lt hb] at hbs
  rw [← Option.some.inj hbs, Text.ofBytes_bytes]

/-- The characters that end an authority. -/
def EndsAuthority (c : Char) : Prop := c = '/' ∨ c = '?' ∨ c = '#'

def NoEnd (s : Str) : Prop := ∀ c ∈ s, ¬ EndsAuthority c

theorem noEnd_append {s t : Str} : NoEnd (s ++ t) ↔ NoEnd s ∧ NoEnd t := by
  simp [NoEnd, or_imp, forall_and]

theorem NoEnd.notMem {s : Str} (h : NoEnd s) {c : Char} (hc : EndsAuthority c) : c ∉ s :=
  fun hm => h c hm hc

theorem noEnd_escape {mode : Mode} (h : mode = .host ∨ mode = .userPassword) (bs : List Nat) :
    NoEnd (escape mode bs) := by
  intro c hc hend
  refine notMem_escape ?_ ?_ bs hc
  · rcases hend with rfl | rfl | rfl
    · simp
    · simp
    · simp
  · rcases h with rfl | rfl
    · rcases hend with rfl | rfl | rfl <;> rfl
    · rcases hend with rfl | rfl | rfl <;> rfl

theorem at_notMem_host (h : Str) : '@' ∉ escape .host (Text.bytes h) :=
  notMem_escape (by simp) (by decide) (Text.bytes h)

theorem noEnd_userinfo {s i : Str} (h : parseUserinfo s = some i) : NoEnd i := by
  have hpart (bs : List Nat) : NoEnd (escape .userPassword bs) := noEnd_escape (Or.inr rfl) bs
  unfold parseUserinfo at h
  split at h
  · cases h
  · split at h
    · obtain ⟨bs, _, rfl⟩ := Option.map_eq_some_iff.mp h
      exact hpart bs
    · obtain ⟨n, _, h⟩ := Option.bind_eq_some_iff.mp h
      obtain ⟨p, _, rfl⟩ := Option.map_eq_some_iff.mp h
      apply noEnd_append.mpr
      refine ⟨hpart n, ?_⟩
      intro c hc
      rcases List.mem_cons.mp hc with rfl | hc
      · simp [EndsAuthority]
      · exact hpart p c hc

/-- The printed authority. -/
def authorityText (user : Option Str) (host : Str) : Str :=
  (user.map fun i => i ++ ['@']).getD [] ++ escape .host (Text.bytes host)

theorem noEnd_authorityText {user : Option Str} (h : ∀ i, user = some i → NoEnd i) (host : Str) :
    NoEnd (authorityText user host) := by
  apply noEnd_append.mpr
  refine ⟨?_, noEnd_escape (Or.inl rfl) (Text.bytes host)⟩
  cases user with
  | none => simp [NoEnd]
  | some i =>
    apply noEnd_append.mpr
    refine ⟨h i rfl, ?_⟩
    simp [NoEnd, EndsAuthority]

/-- The host of a printed authority is parsed as it is printed. -/
theorem parseAuthority_host {user user' : Option Str} {host host' : Str}
    (h : parseAuthority (authorityText user host) = some (user', host')) :
    parseHost (escape .host (Text.bytes host)) = some host' := by
  unfold parseAuthority at h
  cases user with
  | none =>
    rw [authorityText, Option.map_none, Option.getD_none, List.nil_append,
      cutLast_eq_none (at_notMem_host host)] at h
    obtain ⟨x, hx, he⟩ := Option.map_eq_some_iff.mp h
    cases he
    exact hx
  | some i =>
    rw [authorityText, Option.map_some, Option.getD_some, List.append_assoc, List.cons_append,
      List.nil_append, cutLast_append i (at_notMem_host host)] at h
    obtain ⟨x, hx, h⟩ := Option.bind_eq_some_iff.mp h
    obtain ⟨y, _, he⟩ := Option.map_eq_some_iff.mp h
    cases he
    exact hx

theorem parseAuthority_text {user user' : Option Str} {host host' : Str}
    (h : parseAuthority (authorityText user host) = some (user', host')) : host' = host :=
  parseHost_escape (parseAuthority_host h)

/-- The user information does not end the authority, and a URL without an authority has no
host. -/
structure WellParsed (u : URL) : Prop where
  user : ∀ i, u.user = some i → NoEnd i
  host : u.opaqueRest ≠ [] → u.host = []

theorem setPath_eq_some {u v : URL} {p : Str} (h : setPath u p = some v) :
    v.scheme = u.scheme ∧ v.user = u.user ∧ v.host = u.host ∧ v.opaqueRest = u.opaqueRest := by
  obtain ⟨path, _, rfl⟩ := Option.map_eq_some_iff.mp h
  exact ⟨rfl, rfl, rfl, rfl⟩

theorem parseRest_wellParsed {u v : URL} {rest : Str} (huser : u.user = none) (hhost : u.host = [])
    (hrest : u.opaqueRest = []) (h : parseRest u rest = some v) : WellParsed v := by
  have hplain {w : URL} {p : Str} (hw : w.user = none) (hwo : w.opaqueRest = [])
      (hp : setPath w p = some v) : WellParsed v := by
    obtain ⟨_, hu, _, ho⟩ := setPath_eq_some hp
    constructor
    · intro i hi
      rw [hu, hw] at hi
      cases hi
    · intro hne
      exact absurd (ho.trans hwo) hne
  unfold parseRest at h
  split at h
  · cases h
    constructor
    · intro i hi
      dsimp only at hi
      rw [huser] at hi
      cases hi
    · intro _
      exact hhost
  · split at h
    · cases h
    · split at h
      · split at h
        · obtain ⟨⟨user, host⟩, ha, hp⟩ := Option.bind_eq_some_iff.mp h
          obtain ⟨_, hu, _, ho⟩ := setPath_eq_some hp
          constructor
          · intro i hi
            rw [hu] at hi
            unfold parseAuthority at ha
            split at ha
            · obtain ⟨x, _, he⟩ := Option.map_eq_some_iff.mp ha
              cases he
              cases hi
            · obtain ⟨x, _, ha⟩ := Option.bind_eq_some_iff.mp ha
              obtain ⟨y, hy, he⟩ := Option.map_eq_some_iff.mp ha
              cases he
              cases hi
              exact noEnd_userinfo hy
          · intro hne
            exact absurd (ho.trans hrest) hne
        · exact hplain huser hrest h
      · split at h
        · exact hplain (w := { u with omitHost := true }) huser hrest h
        · exact hplain huser hrest h

/-- The text after the scheme. -/
def parseAfterScheme (scheme rest : Str) : Option URL :=
  if rest.getLast? = some '?' && rest.count '?' = 1 then
    parseRest { empty with scheme := scheme, forceQuery := true } rest.dropLast
  else parseRest { empty with scheme := scheme, rawQuery := (cutAt '?' rest).2 } (cutAt '?' rest).1

theorem parseNoFragment_eq {s : Str} (hctl : s.any isControl = false) (hstar : s ≠ ['*']) :
    parseNoFragment s =
      match getSchemeFrom [] s with
      | .bad => none
      | .found scheme rest => parseAfterScheme (lower scheme) rest
      | .none => parseAfterScheme [] s := by
  unfold parseNoFragment
  rw [hctl, if_neg Bool.false_ne_true, if_neg hstar]
  cases getSchemeFrom [] s with
  | none => rfl
  | bad => rfl
  | found scheme rest => rfl

theorem parseAfterScheme_wellParsed {scheme rest : Str} {u : URL}
    (h : parseAfterScheme scheme rest = some u) : WellParsed u := by
  unfold parseAfterScheme at h
  split at h
  · refine parseRest_wellParsed ?_ ?_ ?_ h <;> rfl
  · refine parseRest_wellParsed ?_ ?_ ?_ h <;> rfl

theorem parseNoFragment_wellParsed {s : Str} {u : URL} (h : parseNoFragment s = some u) :
    WellParsed u := by
  cases hctl : s.any isControl with
  | true =>
    unfold parseNoFragment at h
    rw [hctl, if_pos rfl] at h
    cases h
  | false =>
    by_cases hstar : s = ['*']
    · subst hstar
      cases h
      constructor
      · intro i hi
        cases hi
      · intro _
        rfl
    · rw [parseNoFragment_eq hctl hstar] at h
      split at h
      · cases h
      · exact parseAfterScheme_wellParsed h
      · exact parseAfterScheme_wellParsed h

/-- A fragment does not touch the rest of a URL. -/
theorem parse_eq_some {s : Str} {u : URL} (h : parse s = some u) :
    ∃ v, parseNoFragment (cutAt '#' s).1 = some v ∧ u.scheme = v.scheme ∧ u.user = v.user ∧
      u.host = v.host ∧ u.opaqueRest = v.opaqueRest := by
  obtain ⟨v, hv, hu⟩ := Option.bind_eq_some_iff.mp h
  refine ⟨v, hv, ?_⟩
  change (if (cutAt '#' s).2 = [] then some v
    else (unescape .fragment (cutAt '#' s).2).map fun f =>
      { v with fragment := f, rawFragment := if escape .fragment f = (cutAt '#' s).2 then []
        else (cutAt '#' s).2 }) = some u at hu
  split at hu
  · cases hu
    exact ⟨rfl, rfl, rfl, rfl⟩
  · obtain ⟨f, _, rfl⟩ := Option.map_eq_some_iff.mp hu
    exact ⟨rfl, rfl, rfl, rfl⟩

theorem parse_wellParsed {s : Str} {u : URL} (h : parse s = some u) : WellParsed u := by
  obtain ⟨v, hv, _, huser, hhost, hrest⟩ := parse_eq_some h
  have hw := parseNoFragment_wellParsed hv
  constructor
  · rw [huser]
    exact hw.user
  · rw [hrest, hhost]
    exact hw.host

/-- What can follow an authority. -/
def Tail (t : Str) : Prop := ∀ c, t.head? = some c → EndsAuthority c

theorem cut_append_left {c : Char} {a : Str} (ha : c ∉ a) (t : Str) :
    Text.cut c (a ++ t) = (Text.cut c t).map fun p => (a ++ p.1, p.2) := by
  induction a with
  | nil => simp
  | cons d a ih =>
    have hd : ¬ d = c := fun he => ha (by rw [he]; exact List.mem_cons_self)
    have hrest : c ∉ a := fun hm => ha (List.mem_cons_of_mem d hm)
    simp only [List.cons_append, Text.cut, if_neg hd, ih hrest, Option.map_map]
    rfl

theorem notMem_of_cut_none {c : Char} {t : Str} (h : Text.cut c t = none) : c ∉ t := by
  intro hm
  obtain ⟨x, y, rfl, hx⟩ := List.eq_append_cons_of_mem hm
  rw [cut_append hx] at h
  cases h

/-- Cutting at a character behind the authority leaves the authority whole. -/
theorem cutAt_authority {c : Char} {a t : Str} (ha : c ∉ a) :
    ∃ t', (cutAt c (a ++ t)).1 = a ++ t' ∧ c ∉ t' ∧ t' <+: t := by
  unfold cutAt
  rw [cut_append_left ha]
  cases hcut : Text.cut c t with
  | none => exact ⟨t, rfl, notMem_of_cut_none hcut, List.prefix_refl t⟩
  | some p =>
    obtain ⟨ht, hn⟩ := cut_eq_some (a := p.1) (b := p.2) hcut
    exact ⟨p.1, rfl, hn, ⟨c :: p.2, ht.symm⟩⟩

theorem head_prefixed {t t' : Str} (h : t' <+: t) {c : Char} (hc : t'.head? = some c) :
    t.head? = some c := by
  obtain ⟨r, rfl⟩ := h
  cases t' with
  | nil => cases hc
  | cons d ds => exact hc

theorem takeWhile_authority {a t : Str} (ha : '/' ∉ a) (ht : ∀ c, t.head? = some c → c = '/') :
    (a ++ t).takeWhile (· ≠ '/') = a := by
  have hall : ∀ c ∈ a, decide (c ≠ '/') = true := by
    intro c hc
    apply decide_eq_true
    rintro rfl
    exact ha hc
  rw [List.takeWhile_append_of_pos hall]
  cases t with
  | nil => simp
  | cons c t => simp [ht c rfl]

theorem parseRest_authority {u v : URL} {a t : Str} (hs : u.scheme ≠ []) (ha : '/' ∉ a)
    (ht : ∀ c, t.head? = some c → c = '/') (h : parseRest u ('/' :: '/' :: (a ++ t)) = some v) :
    ∃ user, parseAuthority a = some (user, v.host) := by
  simp only [parseRest, List.head?_cons, ne_eq, not_true_eq_false, decide_false, Bool.false_and,
    Bool.false_eq_true, if_false, hs, not_false_eq_true, decide_true, Bool.true_or, if_true,
    takeWhile_authority ha ht] at h
  obtain ⟨⟨user, host⟩, hauth, hp⟩ := Option.bind_eq_some_iff.mp h
  exact ⟨user, by rw [hauth, (setPath_eq_some hp).2.2.1]⟩

/-- The authority of a URL ends where its path, query or fragment starts. -/
theorem parseAfterScheme_authority {scheme a t : Str} {u : URL} (hs : scheme ≠ []) (ha : NoEnd a)
    (ht : Tail t) (hfrag : '#' ∉ t) (h : parseAfterScheme scheme ('/' :: '/' :: (a ++ t)) = some u) :
    ∃ user, parseAuthority a = some (user, u.host) := by
  have hslash : '/' ∉ a := ha.notMem (Or.inl rfl)
  have hquery : '?' ∉ '/' :: '/' :: a := by
    have := ha.notMem (Or.inr (Or.inl rfl))
    simp [this]
  -- What is left of the tail starts with the path.
  have hpath {t' : Str} (hpre : t' <+: t) (hq : '?' ∉ t') : ∀ c, t'.head? = some c → c = '/' := by
    intro c hc
    rcases ht c (head_prefixed hpre hc) with rfl | rfl | rfl
    · rfl
    · exact absurd (List.mem_of_head? hc) hq
    · exact absurd (hpre.subset (List.mem_of_head? hc)) hfrag
  unfold parseAfterScheme at h
  split at h
  · rename_i hforce
    simp only [Bool.and_eq_true, decide_eq_true_eq] at hforce
    obtain ⟨hlast, hcount⟩ := hforce
    rcases List.eq_nil_or_concat t with rfl | ⟨t', c, rfl⟩
    · have hmem := List.mem_of_getLast? hlast
      rw [List.append_nil] at hmem
      exact absurd hmem hquery
    rw [List.concat_eq_append] at hlast hcount h
    have hc : c = '?' := by
      rw [← List.append_assoc, ← List.cons_append, ← List.cons_append,
        List.getLast?_append_of_ne_nil _ (by simp)] at hlast
      simpa using hlast
    have hq : '?' ∉ t' := by
      intro hm
      have hpos := List.count_pos_iff.mpr hm
      rw [← List.append_assoc, ← List.cons_append, ← List.cons_append, List.count_append, hc,
        List.count_singleton_self, ← List.cons_append, ← List.cons_append, List.count_append] at hcount
      omega
    have hdrop : ('/' :: '/' :: (a ++ (t' ++ [c]))).dropLast = '/' :: '/' :: (a ++ t') := by
      rw [← List.append_assoc, ← List.cons_append, ← List.cons_append, List.dropLast_concat]
    rw [hdrop] at h
    exact parseRest_authority hs hslash (hpath ⟨[c], by simp⟩ hq) h
  · obtain ⟨t', hcut, hq, hpre⟩ := cutAt_authority (t := t) hquery
    rw [← List.cons_append, ← List.cons_append, hcut] at h
    exact parseRest_authority hs hslash (hpath hpre hq) h

/-- A URL with one of the two web schemes. -/
def IsWeb (scheme : Str) : Prop := scheme = "http".toList ∨ scheme = "https".toList

theorem getScheme_web {scheme : Str} (h : IsWeb scheme) (rest : Str) :
    getSchemeFrom [] (scheme ++ ':' :: rest) = .found scheme rest ∧ lower scheme = scheme := by
  rcases h with rfl | rfl
  · exact ⟨rfl, by decide⟩
  · exact ⟨rfl, by decide⟩

/-- Parsing reads the authority as it is written. -/
theorem parse_authority {scheme a t : Str} {u : URL} (hs : IsWeb scheme) (ha : NoEnd a) (ht : Tail t)
    (h : parse (scheme ++ ':' :: '/' :: '/' :: (a ++ t)) = some u) :
    ∃ user, parseAuthority a = some (user, u.host) := by
  obtain ⟨v, hv, _, _, hhost, _⟩ := parse_eq_some h
  have hne : scheme ≠ [] := by
    rcases hs with rfl | rfl
    · decide
    · decide
  have hbefore : '#' ∉ scheme ++ ':' :: '/' :: '/' :: a := by
    have hfrag := ha.notMem (Or.inr (Or.inr rfl))
    rcases hs with rfl | rfl
    · simp [hfrag]
    · simp [hfrag]
  obtain ⟨t', hcut, hfrag, hpre⟩ := cutAt_authority (t := t) hbefore
  rw [List.append_assoc, List.cons_append, List.cons_append, List.cons_append, List.append_assoc,
    List.cons_append, List.cons_append, List.cons_append] at hcut
  rw [hcut] at hv
  rw [hhost]
  obtain ⟨hfound, hlower⟩ := getScheme_web hs ('/' :: '/' :: (a ++ t'))
  cases hctl : (scheme ++ ':' :: '/' :: '/' :: (a ++ t')).any isControl with
  | true =>
    unfold parseNoFragment at hv
    rw [hctl, if_pos rfl] at hv
    cases hv
  | false =>
    have hstar : scheme ++ ':' :: '/' :: '/' :: (a ++ t') ≠ ['*'] := by
      rcases hs with rfl | rfl
      · simp
      · simp
    rw [parseNoFragment_eq hctl hstar, hfound] at hv
    simp only [hlower] at hv
    exact parseAfterScheme_authority hne ha (fun c hc => ht c (head_prefixed hpre hc)) hfrag hv

/-- The printed form of a web URL with a host. -/
theorem string_eq {u : URL} (hw : WellParsed u) (hs : IsWeb u.scheme) (hh : u.host ≠ []) :
    ∃ t, u.string = u.scheme ++ ':' :: '/' :: '/' :: (authorityText u.user u.host ++ t) ∧ Tail t := by
  have hrest : u.opaqueRest = [] := by
    by_contra hne
    exact hh (hw.host hne)
  have hne : u.scheme ≠ [] := by
    rcases hs with h | h
    · rw [h]
      decide
    · rw [h]
      decide
  refine ⟨(if u.escapedPath ≠ [] && u.escapedPath.head? ≠ some '/' && u.host ≠ [] then ['/'] else []) ++
    (u.escapedPath ++ ((if u.forceQuery || u.rawQuery ≠ [] then '?' :: u.rawQuery else []) ++
      (if u.fragment ≠ [] then '#' :: escapedForm .fragment u.fragment u.rawFragment else []))), ?_, ?_⟩
  · simp [URL.string, hrest, hne, hh, authorityText]
  · intro c hc
    cases hpath : u.escapedPath with
    | nil =>
      rw [hpath] at hc
      simp only [ne_eq, not_true_eq_false, decide_false, Bool.false_and, Bool.false_eq_true, if_false,
        List.nil_append] at hc
      split at hc
      · exact Or.inr (Or.inl (Option.some.inj hc).symm)
      · split at hc
        · exact Or.inr (Or.inr (Option.some.inj hc).symm)
        · cases hc
    | cons d ds =>
      rw [hpath] at hc
      split at hc
      · exact Or.inl (Option.some.inj hc).symm
      · rename_i hcond
        have hd : d = '/' := by simpa [hh] using hcond
        exact Or.inl ((Option.some.inj hc).symm.trans hd)

/-- Printing and parsing again keeps the host. -/
theorem host_of_parse_string {u u' : URL} (hw : WellParsed u) (hs : IsWeb u.scheme) (hh : u.host ≠ [])
    (h : parse u.string = some u') : u'.host = u.host := by
  obtain ⟨t, htext, ht⟩ := string_eq hw hs hh
  rw [htext] at h
  obtain ⟨user, ha⟩ := parse_authority hs (noEnd_authorityText hw.user u.host) ht h
  exact parseAuthority_text ha

end Janus.Url
