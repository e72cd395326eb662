import Janus.Lib.RegexPath

/-!
# Matches in a part of a text

What matches in a part of a text matches there in the whole text too, if no word goes on
from the part to what stands around it (`Quiet.part`). A text in which nothing matches stays
so when it is cut between words (`Quiet.join`).
-/

namespace Janus.Regex

set_option autoImplicit false

/-- No word goes on from one text to the other. -/
def Severed (a b : Str) : Prop := (a.getLast?.any isWord && b.head?.any isWord) = false

theorem Severed.of_left {a b : Str} (h : a.getLast?.any isWord = false) : Severed a b := by
  rw [Severed, h]
  rfl

theorem Severed.of_right {a b : Str} (h : b.head?.any isWord = false) : Severed a b := by
  rw [Severed, h, Bool.and_false]

theorem severed_nil (b : Str) : Severed [] b := .of_left rfl

theorem toNat_lt_of_isWord {c : Char} (h : isWord c = true) : c.toNat < 128 := by
  have hle : ∀ {d : Char}, c ≤ d → d.toNat < 128 → c.toNat < 128 := fun hcd hd => Nat.lt_of_le_of_lt hcd hd
  simp only [isWord, Bool.or_eq_true, Bool.and_eq_true, decide_eq_true_eq] at h
  rcases h with ((⟨_, h⟩ | ⟨_, h⟩) | ⟨_, h⟩) | rfl
  · exact hle h (by decide)
  · exact hle h (by decide)
  · exact hle h (by decide)
  · decide

/-- What holds of every word character of ASCII holds of every word character. -/
theorem forall_isWord {P : Char → Prop}
    (h : ∀ n < 128, isWord (Char.ofNat n) = true → P (Char.ofNat n)) (c : Char) (hc : isWord c = true) :
    P c := by
  have hn := h c.toNat (toNat_lt_of_isWord hc)
  rw [Char.ofNat_toNat] at hn
  exact hn hc

/-- A position in the part `P` and the same position in the text, which goes on with `Y`; the
part ends at the offset `e`, and the text at `e'`. -/
structure Within (P Y : Str) (e e' : Nat) (p p' : Pos) : Prop where
  rest : p'.rest = p.rest ++ Y
  suffix : p.rest <:+ P
  left : p.offset + p.rest.length = e
  left' : p'.offset + p'.rest.length = e'
  boundary : atWordBoundary p = true → atWordBoundary p' = true

variable {P Y : Str} {e e' : Nat} {step step' : Pos → List Pos}

theorem Within.offset_eq_iff {p p' q q' : Pos} (h : Within P Y e e' p p') (hq : Within P Y e e' q q') :
    q.offset = p.offset ↔ q'.offset = p'.offset := by
  have hlen := congrArg List.length h.rest
  have hlen' := congrArg List.length hq.rest
  have hl := h.left
  have hl' := h.left'
  have hr := hq.left
  have hr' := hq.left'
  rw [List.length_append] at hlen hlen'
  omega

theorem exactly_within (h : ∀ p p', Within P Y e e' p p' → ∀ q ∈ step p, ∃ q' ∈ step' p',
    Within P Y e e' q q') (n : Nat) (p p' : Pos) (hp : Within P Y e e' p p') :
    ∀ q ∈ exactly step n p, ∃ q' ∈ exactly step' n p', Within P Y e e' q q' := by
  induction n generalizing p p' with
  | zero =>
    intro q hq
    rw [List.mem_singleton.mp hq]
    exact ⟨p', List.mem_singleton_self p', hp⟩
  | succ n ih =>
    intro q hq
    obtain ⟨m, hm, hq⟩ := List.mem_flatMap.mp hq
    obtain ⟨m', hm', hmid⟩ := h p p' hp m hm
    obtain ⟨q', hq', hend⟩ := ih m m' hmid q hq
    exact ⟨q', List.mem_flatMap.mpr ⟨m', hm', hq'⟩, hend⟩

theorem upTo_within (h : ∀ p p', Within P Y e e' p p' → ∀ q ∈ step p, ∃ q' ∈ step' p',
    Within P Y e e' q q') {n n' : Nat} (hn : n ≤ n') (p p' : Pos) (hp : Within P Y e e' p p') :
    ∀ q ∈ upTo step n p, ∃ q' ∈ upTo step' n' p', Within P Y e e' q q' := by
  induction n generalizing n' p p' with
  | zero =>
    intro q hq
    rw [List.mem_singleton.mp hq]
    exact ⟨p', mem_upTo_self n' p', hp⟩
  | succ n ih =>
    obtain ⟨n', rfl⟩ := Nat.exists_eq_succ_of_ne_zero (Nat.ne_of_gt (Nat.lt_of_lt_of_le n.succ_pos hn))
    intro q hq
    rcases List.mem_append.mp hq with hq | hq
    · obtain ⟨m, hm, hq⟩ := List.mem_flatMap.mp hq
      obtain ⟨m', hm', hmid⟩ := h p p' hp m hm
      split at hq
      · cases hq
      · rename_i hne
        obtain ⟨q', hq', hend⟩ := ih (Nat.le_of_succ_le_succ hn) m m' hmid q hq
        refine ⟨q', List.mem_append_left _ (List.mem_flatMap.mpr ⟨m', hm', ?_⟩), hend⟩
        rwa [if_neg fun he => hne ((hp.offset_eq_iff hmid).mpr he)]
    · rw [List.mem_singleton.mp hq]
      exact ⟨p', List.mem_append_right _ (List.mem_singleton_self p'), hp⟩

theorem Within.char {p p' : Pos} (h : Within P Y e e' p p') (hY : Severed P Y) {c : Char} {cs : Str}
    (hrest : p.rest = c :: cs) :
    Within P Y e e' { p with offset := p.offset + 1, prev := some c, rest := cs }
      { p' with offset := p'.offset + 1, prev := some c, rest := cs ++ Y } := by
  have hrest' : p'.rest = c :: (cs ++ Y) := by rw [h.rest, hrest, List.cons_append]
  have hsuffix : c :: cs <:+ P := hrest ▸ h.suffix
  have hleft := h.left
  have hleft' := h.left'
  rw [hrest, List.length_cons] at hleft
  rw [hrest', List.length_cons] at hleft'
  refine ⟨rfl, (List.suffix_cons c cs).trans hsuffix, ?_, ?_, ?_⟩
  · dsimp only
    omega
  · dsimp only
    omega
  · cases cs with
    | cons d cs => exact id
    | nil =>
      -- at the end of the part the text goes on with no character of a word
      obtain ⟨x, rfl⟩ := hsuffix
      rw [Severed, List.getLast?_concat, Option.any_some] at hY
      intro hword
      have hc : isWord c = true := by simpa [atWordBoundary] using hword
      rw [hc, Bool.true_and] at hY
      simp [atWordBoundary, hc, hY]

/-- Every way to match in the part is one in the text. -/
theorem run_within (r : Regex) (hY : Severed P Y) (p p' : Pos) (h : Within P Y e e' p p') :
    ∀ q ∈ r.run p, ∃ q' ∈ r.run p', Within P Y e e' q q' := by
  induction r generalizing p p' with
  | empty =>
    intro q hq
    rw [List.mem_singleton.mp hq]
    exact ⟨p', List.mem_singleton_self p', h⟩
  | set fold ranges =>
    intro q hq
    simp only [run] at hq
    split at hq
    · cases hq
    · rename_i c cs hrest
      split at hq
      · rename_i hc
        rw [List.mem_singleton.mp hq]
        have hrest' : p'.rest = c :: (cs ++ Y) := by rw [h.rest, hrest, List.cons_append]
        exact ⟨_, by simp [run, hrest', hc], h.char hY hrest⟩
      · cases hq
  | wordBoundary =>
    intro q hq
    simp only [run] at hq
    split at hq
    · rename_i hword
      rw [List.mem_singleton.mp hq]
      refine ⟨p', ?_, h⟩
      rw [run, if_pos (h.boundary hword)]
      exact List.mem_singleton_self p'
    · cases hq
  | seq r s ihr ihs =>
    intro q hq
    obtain ⟨m, hm, hq⟩ := List.mem_flatMap.mp hq
    obtain ⟨m', hm', hmid⟩ := ihr p p' h m hm
    obtain ⟨q', hq', hend⟩ := ihs m m' hmid q hq
    exact ⟨q', List.mem_flatMap.mpr ⟨m', hm', hq'⟩, hend⟩
  | alt r s ihr ihs =>
    intro q hq
    rcases List.mem_append.mp hq with hq | hq
    · obtain ⟨q', hq', hend⟩ := ihr p p' h q hq
      exact ⟨q', List.mem_append_left _ hq', hend⟩
    · obtain ⟨q', hq', hend⟩ := ihs p p' h q hq
      exact ⟨q', List.mem_append_right _ hq', hend⟩
  | rep least extra r ih =>
    intro q hq
    obtain ⟨m, hm, hq⟩ := List.mem_flatMap.mp hq
    obtain ⟨m', hm', hmid⟩ := exactly_within ih least p p' h m hm
    have hlen : extra.getD m.rest.length ≤ extra.getD m'.rest.length := by
      cases extra with
      | some k => exact Nat.le_refl k
      | none =>
        rw [hmid.rest, Option.getD_none, Option.getD_none, List.length_append]
        exact Nat.le_add_right _ _
    obtain ⟨q', hq', hend⟩ := upTo_within ih hlen m m' hmid q hq
    exact ⟨q', List.mem_flatMap.mpr ⟨m', hm', hq'⟩, hend⟩
  | group i r ih =>
    intro q hq
    obtain ⟨m, hm, rfl⟩ := List.mem_map.mp hq
    obtain ⟨m', hm', hend⟩ := ih p p' h m hm
    refine ⟨_, List.mem_map.mpr ⟨m', hm', rfl⟩, ?_⟩
    exact ⟨hend.rest, hend.suffix, hend.left, hend.left', hend.boundary⟩

/-- Nothing matches at any position of the text. -/
def Quiet (r : Regex) (text : Str) : Prop :=
  ∀ x z, text = x ++ z → r.first x.getLast? z = none

theorem first_eq_none_iff {r : Regex} {prev : Option Char} {text : Str} :
    r.first prev text = none ↔ r.run ⟨0, prev, text, []⟩ = [] := by
  rw [first, Option.map_eq_none_iff, List.head?_eq_none_iff]

/-- Where nothing matches in the text, nothing matches in the part. -/
theorem first_part {r : Regex} {X x z Y : Str} (hX : Severed X (x ++ z)) (hY : Severed (x ++ z) Y)
    (h : r.first (X ++ x).getLast? (z ++ Y) = none) : r.first x.getLast? z = none := by
  rw [first_eq_none_iff] at h ⊢
  have hwithin : Within (x ++ z) Y z.length (z ++ Y).length ⟨0, x.getLast?, z, []⟩
      ⟨0, (X ++ x).getLast?, z ++ Y, []⟩ := by
    refine ⟨rfl, List.suffix_append x z, Nat.zero_add _, Nat.zero_add _, ?_⟩
    intro hword
    cases x using List.reverseRecOn with
    | nil =>
      cases z with
      | nil => simp [atWordBoundary] at hword
      | cons c z =>
        have hc : isWord c = true := by simpa [atWordBoundary] using hword
        have hprev : X.getLast?.any isWord = false := by simpa [Severed, hc] using hX
        simp [atWordBoundary, hprev, hc]
    | append_singleton x d =>
      rw [← List.append_assoc, List.getLast?_concat]
      rw [List.getLast?_concat] at hword
      cases z with
      | cons c z => exact hword
      | nil =>
        have hd : isWord d = true := by simpa [atWordBoundary] using hword
        have hnext : Y.head?.any isWord = false := by simpa [Severed, hd] using hY
        simp [atWordBoundary, hnext, hd]
  apply List.eq_nil_iff_forall_not_mem.mpr
  intro q hq
  obtain ⟨q', hq', _⟩ := run_within r hY _ _ hwithin q hq
  rw [h] at hq'
  cases hq'

theorem Quiet.part {r : Regex} {X P Y : Str} (h : Quiet r (X ++ (P ++ Y))) (hX : Severed X P)
    (hY : Severed P Y) : Quiet r P := by
  rintro x z rfl
  exact first_part hX hY (h (X ++ x) (z ++ Y) (by simp))

/-- A character of no word that cannot be consumed keeps its two sides apart. -/
theorem Quiet.join {r : Regex} {f z : Str} {c : Char} (hf : Quiet r f) (hz : Quiet r z)
    (hword : isWord c = false) (hc : r.consumes c = false) : Quiet r (f ++ c :: z) := by
  have hstop : Stops r (c :: z) := by
    intro d hd
    cases hd
    exact hc
  have hcut : ∀ prev g, r.first prev (g ++ c :: z) = r.first prev g := by
    intro prev g
    have hcongr := first_congr r hstop (stops_nil r) (by simp [hword]) (rfl : prev.any isWord = _) g
    rwa [List.append_nil] at hcongr
  intro x y he
  rcases List.append_eq_append_iff.mp he with ⟨a, rfl, ha⟩ | ⟨a, rfl, rfl⟩
  · cases a with
    | nil =>
      have hself := hcut (f ++ []).getLast? []
      rw [List.nil_append] at ha hself
      rw [← ha, hself, List.append_nil]
      exact hf f [] (List.append_nil f).symm
    | cons d a =>
      cases ha
      have hprev : (f ++ c :: a).getLast?.any isWord = a.getLast?.any isWord := by
        cases a using List.reverseRecOn with
        | nil => simp [hword]
        | append_singleton a d =>
          rw [← List.cons_append, ← List.append_assoc, List.getLast?_concat, List.getLast?_concat]
      have hcongr := first_congr r (stops_nil r) (stops_nil r) rfl hprev y
      rw [List.append_nil] at hcongr
      rw [hcongr]
      exact hz a y rfl
  · rw [hcut]
    exact hf x a rfl

theorem mem_of_head_flatMap {α β : Type} {xs : List α} {f : α → List β} {y : β}
    (h : (xs.flatMap f).head? = some y) : ∃ x ∈ xs, (f x).head? = some y := by
  induction xs with
  | nil => cases h
  | cons x xs ih =>
    rw [List.flatMap_cons] at h
    cases hx : f x with
    | nil =>
      rw [hx] at h
      obtain ⟨x', hmem, hhead⟩ := ih h
      exact ⟨x', List.mem_cons_of_mem x hmem, hhead⟩
    | cons z zs =>
      rw [hx] at h
      exact ⟨x, List.mem_cons_self, by rw [hx]; exact h⟩

/-- The first way to repeat a character set ends where it accepts nothing more. -/
theorem stops_of_head_upTo {fold : Bool} {ranges : List (Char × Char)} {n : Nat} {p q : Pos}
    (h : (upTo (run (.set fold ranges)) n p).head? = some q) (hn : p.rest.length ≤ n) :
    Stops (.set fold ranges) q.rest := by
  induction n generalizing p with
  | zero =>
    cases h
    rw [List.length_eq_zero_iff.mp (Nat.le_zero.mp hn)]
    exact stops_nil _
  | succ n ih =>
    cases hstep : run (.set fold ranges) p with
    | nil =>
      rw [upTo, hstep] at h
      cases h
      intro c hc
      obtain ⟨cs, hrest⟩ := List.head?_eq_some_iff.mp hc
      by_contra hacc
      have ha : accepts fold ranges c = true := by simpa [consumes] using hacc
      simp [run, hrest, ha] at hstep
    | cons m ms =>
      have hmem : m ∈ run (.set fold ranges) p := hstep ▸ List.mem_cons_self
      obtain ⟨u, ⟨c, hc, rfl⟩, hread⟩ := run_sound _ p m hmem
      have hlt : m.offset ≠ p.offset := by
        have hoff := hread.offset
        simp at hoff
        omega
      have hlen := congrArg List.length hread.rest
      have hne : (upTo (run (.set fold ranges)) n m).head? ≠ none := by
        intro hnone
        have hmem : m ∈ upTo (run (.set fold ranges)) n m := mem_upTo_self n m
        rw [List.head?_eq_none_iff.mp hnone] at hmem
        cases hmem
      obtain ⟨q', hq'⟩ := Option.ne_none_iff_exists'.mp hne
      have hsame : q' = q := by
        rw [upTo, hstep, List.flatMap_cons, if_neg hlt] at h
        simpa [List.head?_append, hq'] using h
      simp at hlen
      exact ih (hsame ▸ hq') (by omega)

theorem stops_of_head_rep {fold : Bool} {ranges : List (Char × Char)} {least : Nat} {p q : Pos}
    (h : ((Regex.rep least none (.set fold ranges)).run p).head? = some q) :
    Stops (.set fold ranges) q.rest := by
  obtain ⟨m, _, hhead⟩ := mem_of_head_flatMap h
  exact stops_of_head_upTo hhead (Nat.le_refl _)

theorem head_run_seq_empty {r : Regex} {p q : Pos} (h : ((Regex.seq r .empty).run p).head? = some q) :
    (r.run p).head? = some q := by
  have hself : (Regex.seq r .empty).run p = r.run p := List.flatMap_singleton' _
  rwa [hself] at h

theorem head_run_group {i : Nat} {r : Regex} {p q : Pos}
    (h : ((Regex.group i r).run p).head? = some q) :
    ∃ m, (r.run p).head? = some m ∧ q.rest = m.rest := by
  rw [run, List.head?_map] at h
  obtain ⟨m, hm, rfl⟩ := Option.map_eq_some_iff.mp h
  exact ⟨m, hm, rfl⟩

def beginsBounded : Regex → Bool
  | .wordBoundary => true
  | .seq r _ => r.beginsBounded
  | .group _ r => r.beginsBounded
  | _ => false

def endsBounded : Regex → Bool
  | .wordBoundary => true
  | .seq r .empty => r.endsBounded
  | .seq _ s => s.endsBounded
  | _ => false

theorem boundary_before {r : Regex} (h : r.beginsBounded = true) {p q : Pos} (hq : q ∈ r.run p) :
    atWordBoundary p = true := by
  induction r generalizing q with
  | wordBoundary =>
    by_contra hword
    simp [run, hword] at hq
  | seq r s ihr _ =>
    obtain ⟨m, hm, _⟩ := List.mem_flatMap.mp hq
    exact ihr h hm
  | group i r ih =>
    obtain ⟨m, hm, _⟩ := List.mem_map.mp hq
    exact ih h hm
  | empty => cases h
  | set _ _ => cases h
  | alt _ _ _ _ => cases h
  | rep _ _ _ _ => cases h

theorem boundary_behind {r : Regex} (h : r.endsBounded = true) {p q : Pos} (hq : q ∈ r.run p) :
    atWordBoundary q = true := by
  induction r using endsBounded.induct generalizing p q with
  | case1 =>
    simp only [run] at hq
    split at hq
    · rename_i hword
      rwa [List.mem_singleton.mp hq]
    · cases hq
  | case2 r ih =>
    obtain ⟨m, hm, hq⟩ := List.mem_flatMap.mp hq
    rw [List.mem_singleton.mp hq]
    exact ih h hm
  | case3 r s hne ih =>
    obtain ⟨m, _, hq⟩ := List.mem_flatMap.mp hq
    exact ih (by simpa [endsBounded] using h) hq
  | case4 r h1 h2 h3 =>
    rw [endsBounded] at h
    · cases h
    · exact h1
    · exact h2
    · exact h3

theorem severed_of_boundary {a b : Str} {o : Nat} {gs : List (Nat × Str)}
    (h : atWordBoundary ⟨o, a.getLast?, b, gs⟩ = true) : Severed a b := by
  unfold Severed
  have hne : a.getLast?.any isWord ≠ b.head?.any isWord := by simpa [atWordBoundary] using h
  cases ha : a.getLast?.any isWord with
  | false => rfl
  | true =>
    rw [ha] at hne
    rw [Bool.true_and]
    exact Bool.eq_false_of_not_eq_true fun hb => hne hb.symm

/-- The position behind the first match. -/
theorem exists_end {r : Regex} {x text : Str} {n : Nat} {gs : List (Nat × Str)}
    (h : r.first x.getLast? text = some (n, gs)) :
    ∃ q, (r.run ⟨0, x.getLast?, text, []⟩).head? = some q ∧ q.rest = text.drop n ∧
      q.prev = (x ++ text.take n).getLast? := by
  obtain ⟨q, hq, he⟩ := Option.map_eq_some_iff.mp h
  obtain ⟨u, _, hread⟩ := run_sound r _ q (List.mem_of_mem_head? hq)
  cases he
  have hrest : text = u ++ q.rest := hread.rest
  have hoff : q.offset = u.length := by simpa using hread.offset
  refine ⟨q, hq, ?_, ?_⟩
  · rw [hoff, hrest, List.drop_left]
  · have htake : text.take q.offset = u := by rw [hoff, hrest, List.take_left]
    rw [htake, List.getLast?_append]
    exact hread.prev

theorem severed_before {r : Regex} (hb : r.beginsBounded = true) {x text : Str} {n : Nat}
    {gs : List (Nat × Str)} (h : r.first x.getLast? text = some (n, gs)) : Severed x text := by
  obtain ⟨q, hq, _, _⟩ := exists_end h
  exact severed_of_boundary (boundary_before hb (List.mem_of_mem_head? hq))

theorem severed_behind {r : Regex} (hb : r.endsBounded = true) {x text : Str} {n : Nat}
    {gs : List (Nat × Str)} (h : r.first x.getLast? text = some (n, gs)) :
    Severed (x ++ text.take n) (text.drop n) := by
  obtain ⟨q, hq, hrest, hprev⟩ := exists_end h
  have hword := boundary_behind hb (List.mem_of_mem_head? hq)
  obtain ⟨o, prev, rest, groups⟩ := q
  dsimp only at hrest hprev
  rw [hrest, hprev] at hword
  exact severed_of_boundary hword

end Janus.Regex
