import Janus.Lib.Regex
import Mathlib.Data.List.Forall2

/-!
# What a match reads

Every way to match consumes a text of the language of the expression (`run_sound`). It
depends on nothing behind a character that the expression cannot consume
(`run_alike`), so the first match at a position is that of any text which agrees up to
such a character (`first_congr`).
-/

namespace Janus.Regex

set_option autoImplicit false

/-- The texts that an expression can consume, wherever they stand. -/
def Lang : Regex → Str → Prop
  | .empty, u => u = []
  | .set fold ranges, u => ∃ c, accepts fold ranges c = true ∧ u = [c]
  | .wordBoundary, u => u = []
  | .seq r s, u => ∃ a b, u = a ++ b ∧ Lang r a ∧ Lang s b
  | .alt r s, u => Lang r u ∨ Lang s u
  | .rep least extra r, u =>
    ∃ us : List Str, least ≤ us.length ∧ (∀ e, extra = some e → us.length ≤ least + e) ∧
      (∀ a ∈ us, Lang r a) ∧ u = us.flatten
  | .group _ r, u => Lang r u

/-- The characters that some part of the expression accepts. -/
def consumes : Regex → Char → Bool
  | .set fold ranges, c => accepts fold ranges c
  | .seq r s, c => r.consumes c || s.consumes c
  | .alt r s, c => r.consumes c || s.consumes c
  | .rep _ _ r, c => r.consumes c
  | .group _ r, c => r.consumes c
  | .empty, _ | .wordBoundary, _ => false

def minLen : Regex → Nat
  | .empty | .wordBoundary => 0
  | .set _ _ => 1
  | .seq r s => r.minLen + s.minLen
  | .alt r s => min r.minLen s.minLen
  | .rep least _ r => least * r.minLen
  | .group _ r => r.minLen

theorem accepts_char {c k : Char} : accepts false [(k, k)] c = true ↔ c = k := by
  simp only [accepts, inRanges, Bool.false_eq_true, if_false, List.any_cons, List.any_nil,
    Bool.or_false, Bool.and_eq_true, decide_eq_true_eq]
  constructor
  · rintro ⟨hle, hge⟩
    exact Char.le_antisymm hge hle
  · rintro rfl
    exact ⟨Char.le_refl c, Char.le_refl c⟩

theorem consumes_of_lang (r : Regex) {u : Str} (h : Lang r u) : ∀ c ∈ u, r.consumes c = true := by
  induction r generalizing u with
  | empty => simp_all [Lang]
  | wordBoundary => simp_all [Lang]
  | set fold ranges =>
    obtain ⟨c, hc, rfl⟩ := h
    simpa [consumes] using hc
  | seq r s ihr ihs =>
    obtain ⟨a, b, rfl, ha, hb⟩ := h
    intro c hc
    rcases List.mem_append.mp hc with hc | hc
    · simp [consumes, ihr ha c hc]
    · simp [consumes, ihs hb c hc]
  | alt r s ihr ihs =>
    intro c hc
    rcases h with h | h
    · simp [consumes, ihr h c hc]
    · simp [consumes, ihs h c hc]
  | rep least extra r ih =>
    obtain ⟨us, _, _, hus, rfl⟩ := h
    intro c hc
    obtain ⟨a, ha, hca⟩ := List.mem_flatten.mp hc
    exact ih (hus a ha) c hca
  | group i r ih => exact ih h

theorem length_flatten_ge {us : List Str} {k : Nat} (h : ∀ a ∈ us, k ≤ a.length) :
    us.length * k ≤ us.flatten.length := by
  induction us with
  | nil => simp
  | cons a us ih =>
    obtain ⟨ha, hus⟩ := List.forall_mem_cons.mp h
    have hrest := ih hus
    simp only [List.length_cons, List.flatten_cons, List.length_append, Nat.add_mul, Nat.one_mul]
    omega

theorem minLen_of_lang (r : Regex) {u : Str} (h : Lang r u) : r.minLen ≤ u.length := by
  induction r generalizing u with
  | empty => exact Nat.zero_le _
  | wordBoundary => exact Nat.zero_le _
  | set fold ranges =>
    obtain ⟨c, _, rfl⟩ := h
    exact Nat.le_refl 1
  | seq r s ihr ihs =>
    obtain ⟨a, b, rfl, ha, hb⟩ := h
    have hra := ihr ha
    have hsb := ihs hb
    simp only [minLen, List.length_append]
    omega
  | alt r s ihr ihs =>
    simp only [minLen]
    rcases h with h | h
    · have hr := ihr h
      omega
    · have hs := ihs h
      omega
  | rep least extra r ih =>
    obtain ⟨us, hleast, _, hus, rfl⟩ := h
    exact (Nat.mul_le_mul_right _ hleast).trans (length_flatten_ge fun a ha => ih (hus a ha))
  | group i r ih => exact ih h

/-- The characters that a text of the language may begin with. -/
def starts : Regex → Char → Bool
  | .set fold ranges, c => accepts fold ranges c
  | .seq r s, c => r.starts c || (r.minLen = 0 && s.starts c)
  | .alt r s, c => r.starts c || s.starts c
  | .rep _ _ r, c => r.starts c
  | .group _ r, c => r.starts c
  | .empty, _ | .wordBoundary, _ => false

theorem flatten_cons_eq {us : List Str} {c : Char} {u : Str} (h : us.flatten = c :: u) :
    ∃ v, c :: v ∈ us := by
  induction us with
  | nil => cases h
  | cons a us ih =>
    cases a with
    | nil =>
      obtain ⟨v, hv⟩ := ih h
      exact ⟨v, List.mem_cons_of_mem _ hv⟩
    | cons d a =>
      cases h
      exact ⟨a, List.mem_cons_self⟩

theorem starts_of_lang (r : Regex) {c : Char} {u : Str} (h : Lang r (c :: u)) :
    r.starts c = true := by
  induction r generalizing u with
  | empty => cases h
  | wordBoundary => cases h
  | set fold ranges =>
    obtain ⟨d, hd, he⟩ := h
    cases he
    exact hd
  | seq r s ihr ihs =>
    obtain ⟨a, b, he, ha, hb⟩ := h
    cases a with
    | nil =>
      have hzero : r.minLen = 0 := Nat.le_zero.mp (minLen_of_lang r ha)
      simp [starts, hzero, ihs (u := u) (by rwa [he])]
    | cons d a =>
      cases he
      simp [starts, ihr ha]
  | alt r s ihr ihs =>
    rcases h with h | h
    · simp [starts, ihr h]
    · simp [starts, ihs h]
  | rep least extra r ih =>
    obtain ⟨us, _, _, hus, he⟩ := h
    obtain ⟨v, hv⟩ := flatten_cons_eq he.symm
    exact ih (hus _ hv)
  | group i r ih => exact ih h

theorem lang_chars {fold : Bool} {s : String} {u : Str} (h : Lang (chars fold s) u) :
    List.Forall₂ (fun k c => accepts fold [(k, k)] c = true) s.toList u := by
  unfold chars at h
  generalize s.toList = ks at h ⊢
  induction ks generalizing u with
  | nil =>
    have hu : u = [] := h
    rw [hu]
    exact .nil
  | cons k ks ih =>
    obtain ⟨a, b, rfl, ⟨c, hc, rfl⟩, hb⟩ := h
    exact .cons hc (ih hb)

theorem mem_of_lang_chars {fold : Bool} {s : String} {u : Str} (h : Lang (chars fold s) u) {k : Char}
    (hk : k ∈ s.toList) : ∃ c ∈ u, accepts fold [(k, k)] c = true := by
  have hall := lang_chars h
  clear h
  generalize s.toList = ks at hk hall
  induction hall with
  | nil => cases hk
  | @cons k' c ks cs hc _ ih =>
    rcases List.mem_cons.mp hk with rfl | hk
    · exact ⟨c, List.mem_cons_self, hc⟩
    · obtain ⟨d, hd, ha⟩ := ih hk
      exact ⟨d, List.mem_cons_of_mem c hd, ha⟩

/-- The path from one position to another reads the text `u`. -/
structure Reads (p q : Pos) (u : Str) : Prop where
  rest : p.rest = u ++ q.rest
  offset : q.offset = p.offset + u.length
  prev : q.prev = u.getLast?.or p.prev

theorem Reads.refl (p : Pos) : Reads p p [] := ⟨rfl, rfl, rfl⟩

theorem Reads.trans {p q s : Pos} {u v : Str} (h : Reads p q u) (h' : Reads q s v) :
    Reads p s (u ++ v) := by
  refine ⟨?_, ?_, ?_⟩
  · rw [h.rest, h'.rest, List.append_assoc]
  · rw [h'.offset, h.offset, List.length_append, Nat.add_assoc]
  · rw [h'.prev, h.prev, List.getLast?_append, Option.or_assoc]

variable {step : Pos → List Pos} {L : Str → Prop}

theorem exactly_sound (h : ∀ p q, q ∈ step p → ∃ u, L u ∧ Reads p q u) (n : Nat) (p q : Pos)
    (hq : q ∈ exactly step n p) :
    ∃ us : List Str, us.length = n ∧ (∀ a ∈ us, L a) ∧ Reads p q us.flatten := by
  induction n generalizing p with
  | zero =>
    rw [List.mem_singleton.mp hq]
    exact ⟨[], rfl, by simp, Reads.refl p⟩
  | succ n ih =>
    obtain ⟨m, hm, hq⟩ := List.mem_flatMap.mp hq
    obtain ⟨u, hu, hread⟩ := h p m hm
    obtain ⟨us, hlen, hus, hread'⟩ := ih m hq
    refine ⟨u :: us, by simp [hlen], List.forall_mem_cons.mpr ⟨hu, hus⟩, ?_⟩
    exact hread.trans hread'

theorem upTo_sound (h : ∀ p q, q ∈ step p → ∃ u, L u ∧ Reads p q u) (n : Nat) (p q : Pos)
    (hq : q ∈ upTo step n p) :
    ∃ us : List Str, us.length ≤ n ∧ (∀ a ∈ us, L a) ∧ Reads p q us.flatten := by
  induction n generalizing p with
  | zero =>
    rw [List.mem_singleton.mp hq]
    exact ⟨[], Nat.le_refl 0, by simp, Reads.refl p⟩
  | succ n ih =>
    rcases List.mem_append.mp hq with hq | hq
    · obtain ⟨m, hm, hq⟩ := List.mem_flatMap.mp hq
      split at hq
      · cases hq
      · obtain ⟨u, hu, hread⟩ := h p m hm
        obtain ⟨us, hlen, hus, hread'⟩ := ih m hq
        refine ⟨u :: us, by simpa using hlen, List.forall_mem_cons.mpr ⟨hu, hus⟩, ?_⟩
        exact hread.trans hread'
    · rw [List.mem_singleton.mp hq]
      exact ⟨[], Nat.zero_le _, by simp, Reads.refl p⟩

theorem run_sound (r : Regex) (p q : Pos) (hq : q ∈ r.run p) : ∃ u, Lang r u ∧ Reads p q u := by
  induction r generalizing p q with
  | empty =>
    rw [List.mem_singleton.mp hq]
    exact ⟨[], rfl, Reads.refl p⟩
  | set fold ranges =>
    simp only [run] at hq
    split at hq
    · cases hq
    · rename_i c cs hrest
      split at hq
      · rename_i hc
        rw [List.mem_singleton.mp hq]
        exact ⟨[c], ⟨c, hc, rfl⟩, ⟨hrest, rfl, rfl⟩⟩
      · cases hq
  | wordBoundary =>
    simp only [run] at hq
    split at hq
    · rw [List.mem_singleton.mp hq]
      exact ⟨[], rfl, Reads.refl p⟩
    · cases hq
  | seq r s ihr ihs =>
    obtain ⟨m, hm, hq⟩ := List.mem_flatMap.mp hq
    obtain ⟨u, hu, hread⟩ := ihr p m hm
    obtain ⟨v, hv, hread'⟩ := ihs m q hq
    exact ⟨u ++ v, ⟨u, v, rfl, hu, hv⟩, hread.trans hread'⟩
  | alt r s ihr ihs =>
    rcases List.mem_append.mp hq with hq | hq
    · obtain ⟨u, hu, hread⟩ := ihr p q hq
      exact ⟨u, Or.inl hu, hread⟩
    · obtain ⟨u, hu, hread⟩ := ihs p q hq
      exact ⟨u, Or.inr hu, hread⟩
  | rep least extra r ih =>
    obtain ⟨m, hm, hq⟩ := List.mem_flatMap.mp hq
    obtain ⟨us, hlen, hus, hread⟩ := exactly_sound ih least p m hm
    obtain ⟨vs, hlen', hvs, hread'⟩ := upTo_sound ih _ m q hq
    refine ⟨us.flatten ++ vs.flatten, ⟨us ++ vs, ?_, ?_, ?_, by simp⟩, hread.trans hread'⟩
    · simp [hlen]
    · rintro e rfl
      simpa [hlen] using hlen'
    · intro a ha
      exact (List.mem_append.mp ha).elim (hus a) (hvs a)
  | group i r ih =>
    obtain ⟨m, hm, rfl⟩ := List.mem_map.mp hq
    obtain ⟨u, hu, hread⟩ := ih p m hm
    exact ⟨u, hu, ⟨hread.rest, hread.offset, hread.prev⟩⟩

/-- More rounds than characters are left make no difference. -/
theorem upTo_succ (h : ∀ p q, q ∈ step p → ∃ u, L u ∧ Reads p q u) (n : Nat) (p : Pos)
    (hn : p.rest.length ≤ n) : upTo step (n + 1) p = upTo step n p := by
  induction n generalizing p with
  | zero =>
    have hstay : ∀ q ∈ step p, q.offset = p.offset := by
      intro q hq
      obtain ⟨u, _, hread⟩ := h p q hq
      have hlen := congrArg List.length hread.rest
      rw [List.length_append] at hlen
      rw [hread.offset]
      omega
    have hnone : (step p).flatMap (fun q => if q.offset = p.offset then [] else upTo step 0 q) = [] :=
      List.flatMap_eq_nil_iff.mpr fun q hq => if_pos (hstay q hq)
    show _ ++ [p] = [p]
    rw [hnone, List.nil_append]
  | succ n ih =>
    rw [upTo, upTo]
    congr 1
    apply List.flatMap_congr
    intro q hq
    split
    · rfl
    · rename_i hne
      obtain ⟨u, _, hread⟩ := h p q hq
      have hlen := congrArg List.length hread.rest
      rw [List.length_append] at hlen
      have hoff := hread.offset
      exact ih q (by omega)

theorem upTo_of_le (h : ∀ p q, q ∈ step p → ∃ u, L u ∧ Reads p q u) {n : Nat} {p : Pos}
    (hn : p.rest.length ≤ n) : upTo step n p = upTo step p.rest.length p := by
  induction n, hn using Nat.le_induction with
  | base => rfl
  | succ n hn ih => rw [upTo_succ h n p hn, ih]

/-- The expression consumes nothing of the text. -/
def Stops (r : Regex) (tail : Str) : Prop := ∀ c, tail.head? = some c → r.consumes c = false

/-- Positions in two texts that agree up to their tails; the tails begin at the offsets `e`
and `e'`. -/
structure Alike (e e' : Nat) (tail tail' : Str) (p p' : Pos) : Prop where
  rest : ∃ f, p.rest = f ++ tail ∧ p'.rest = f ++ tail' ∧ p.offset + f.length = e ∧
    p'.offset + f.length = e'
  prev : p.prev.any isWord = p'.prev.any isWord
  groups : p.groups = p'.groups

variable {e e' : Nat} {tail tail' : Str}

theorem Alike.offset_eq_iff {p p' q q' : Pos} (h : Alike e e' tail tail' p p')
    (hq : Alike e e' tail tail' q q') : q.offset = p.offset ↔ q'.offset = p'.offset := by
  obtain ⟨f, _, _, hf, hf'⟩ := h.rest
  obtain ⟨g, _, _, hg, hg'⟩ := hq.rest
  omega

theorem exactly_alike (h : ∀ p p', Alike e e' tail tail' p p' →
    List.Forall₂ (Alike e e' tail tail') (step p) (step p')) (n : Nat) (p p' : Pos)
    (hp : Alike e e' tail tail' p p') :
    List.Forall₂ (Alike e e' tail tail') (exactly step n p) (exactly step n p') := by
  induction n generalizing p p' with
  | zero => exact .cons hp .nil
  | succ n ih => exact List.rel_flatMap (h p p' hp) fun q q' hq => ih q q' hq

theorem upTo_alike (h : ∀ p p', Alike e e' tail tail' p p' →
    List.Forall₂ (Alike e e' tail tail') (step p) (step p')) (n : Nat) (p p' : Pos)
    (hp : Alike e e' tail tail' p p') :
    List.Forall₂ (Alike e e' tail tail') (upTo step n p) (upTo step n p') := by
  induction n generalizing p p' with
  | zero => exact .cons hp .nil
  | succ n ih =>
    refine List.rel_append (List.rel_flatMap (h p p' hp) ?_) (.cons hp .nil)
    intro q q' hq
    dsimp only
    by_cases hstay : q.offset = p.offset
    · rw [if_pos hstay, if_pos ((hp.offset_eq_iff hq).mp hstay)]
      exact .nil
    · rw [if_neg hstay, if_neg fun he => hstay ((hp.offset_eq_iff hq).mpr he)]
      exact ih q q' hq

theorem stops_or {r s : Regex} {t : Str}
    (h : ∀ c, t.head? = some c → (r.consumes c || s.consumes c) = false) : Stops r t ∧ Stops s t := by
  refine ⟨?_, ?_⟩
  · intro c hc
    exact (Bool.or_eq_false_iff.mp (h c hc)).1
  · intro c hc
    exact (Bool.or_eq_false_iff.mp (h c hc)).2

theorem run_set_of_stops {fold : Bool} {ranges : List (Char × Char)} {p : Pos}
    (h : Stops (.set fold ranges) p.rest) : run (.set fold ranges) p = [] := by
  simp only [run]
  split
  · rfl
  · rename_i c cs hrest
    have hc : accepts fold ranges c = false := h c (by rw [hrest]; rfl)
    rw [hc]
    rfl

theorem atWordBoundary_alike (hw : tail.head?.any isWord = tail'.head?.any isWord) {p p' : Pos}
    (h : Alike e e' tail tail' p p') : atWordBoundary p = atWordBoundary p' := by
  obtain ⟨f, hf, hf', _, _⟩ := h.rest
  unfold atWordBoundary
  rw [h.prev, hf, hf']
  cases f with
  | nil => rw [List.nil_append, List.nil_append, hw]
  | cons c f => rfl

/-- Behind a character that it cannot consume, an expression sees only whether that
character is of a word. -/
theorem run_alike (r : Regex) (hs : Stops r tail) (hs' : Stops r tail')
    (hw : tail.head?.any isWord = tail'.head?.any isWord) (p p' : Pos)
    (h : Alike e e' tail tail' p p') :
    List.Forall₂ (Alike e e' tail tail') (r.run p) (r.run p') := by
  induction r generalizing p p' with
  | empty => exact .cons h .nil
  | set fold ranges =>
    obtain ⟨f, hf, hf', ho, ho'⟩ := h.rest
    cases f with
    | nil =>
      rw [run_set_of_stops (hf ▸ hs), run_set_of_stops (hf' ▸ hs')]
      exact .nil
    | cons c f =>
      simp only [run, hf, hf', List.cons_append]
      rw [List.length_cons] at ho ho'
      split
      · refine .cons ⟨⟨f, rfl, rfl, ?_, ?_⟩, rfl, h.groups⟩ .nil
        · dsimp only
          omega
        · dsimp only
          omega
      · exact .nil
  | wordBoundary =>
    simp only [run, atWordBoundary_alike hw h]
    split
    · exact .cons h .nil
    · exact .nil
  | seq r s ihr ihs =>
    obtain ⟨hr, ht⟩ := stops_or hs
    obtain ⟨hr', ht'⟩ := stops_or hs'
    exact List.rel_flatMap (ihr hr hr' p p' h) fun q q' hq => ihs ht ht' q q' hq
  | alt r s ihr ihs =>
    obtain ⟨hr, ht⟩ := stops_or hs
    obtain ⟨hr', ht'⟩ := stops_or hs'
    exact List.rel_append (ihr hr hr' p p' h) (ihs ht ht' p p' h)
  | rep least extra r ih =>
    have hstep := ih hs hs'
    refine List.rel_flatMap (exactly_alike hstep least p p' h) ?_
    intro q q' hq
    cases extra with
    | some k => exact upTo_alike hstep k q q' hq
    | none =>
      have hsound := fun p q (hq : q ∈ r.run p) => run_sound r p q hq
      show List.Forall₂ _ (upTo r.run q.rest.length q) (upTo r.run q'.rest.length q')
      rw [← upTo_of_le hsound (Nat.le_max_left q.rest.length q'.rest.length),
        ← upTo_of_le hsound (Nat.le_max_right q.rest.length q'.rest.length)]
      exact upTo_alike hstep _ q q' hq
  | group i r ih =>
    refine List.rel_map ?_ (ih hs hs' p p' h)
    intro q q' hq
    refine ⟨hq.rest, hq.prev, ?_⟩
    obtain ⟨f, hf, hf', ho, ho'⟩ := h.rest
    obtain ⟨g, hg, hg', hgo, hgo'⟩ := hq.rest
    have hn : q.offset - p.offset ≤ f.length := by omega
    have hn' : q'.offset - p'.offset = q.offset - p.offset := by omega
    dsimp only
    rw [hf, hf', hn', List.take_append_of_le_length hn, List.take_append_of_le_length hn, hq.groups]

/-- The length and the groups of the match that begins at a position. -/
def first (r : Regex) (prev : Option Char) (text : Str) : Option (Nat × List (Nat × Str)) :=
  (r.run ⟨0, prev, text, []⟩).head?.map fun q => (q.offset, q.groups)

theorem forall₂_head? {α β : Type} {R : α → β → Prop} {xs : List α} {ys : List β}
    (h : List.Forall₂ R xs ys) : Option.Rel R xs.head? ys.head? := by
  cases h with
  | nil => exact .none
  | cons h _ => exact .some h

/-- The first match depends neither on the offset nor on what follows a character that the
expression cannot consume. -/
theorem head_run_alike (r : Regex) (hs : Stops r tail) (hs' : Stops r tail')
    (hw : tail.head?.any isWord = tail'.head?.any isWord) {prev prev' : Option Char}
    (hp : prev.any isWord = prev'.any isWord) (f : Str) (o : Nat) :
    (r.run ⟨o, prev, f ++ tail, []⟩).head?.map (fun q => (q.offset, q.groups)) =
      (first r prev' (f ++ tail')).map fun m => (o + m.1, m.2) := by
  have halike : Alike (o + f.length) f.length tail tail' ⟨o, prev, f ++ tail, []⟩
      ⟨0, prev', f ++ tail', []⟩ := ⟨⟨f, rfl, rfl, rfl, Nat.zero_add _⟩, hp, rfl⟩
  have hhead := forall₂_head? (run_alike r hs hs' hw _ _ halike)
  unfold first
  generalize (r.run ⟨o, prev, f ++ tail, []⟩).head? = x at hhead ⊢
  generalize (r.run ⟨0, prev', f ++ tail', []⟩).head? = y at hhead ⊢
  cases hhead with
  | none => rfl
  | some hq =>
    obtain ⟨g, _, _, ho, ho'⟩ := hq.rest
    simp only [Option.map_some, Option.some.injEq, Prod.mk.injEq]
    exact ⟨by omega, hq.groups⟩

theorem first_congr (r : Regex) (hs : Stops r tail) (hs' : Stops r tail')
    (hw : tail.head?.any isWord = tail'.head?.any isWord) {prev prev' : Option Char}
    (hp : prev.any isWord = prev'.any isWord) (f : Str) :
    first r prev (f ++ tail) = first r prev' (f ++ tail') := by
  have hid : (fun m : Nat × List (Nat × Str) => (0 + m.1, m.2)) = id := by
    funext m
    rw [Nat.zero_add, id]
  have h := head_run_alike r hs hs' hw hp f 0
  rw [hid, Option.map_id] at h
  exact h

theorem stops_nil (r : Regex) : Stops r [] := by
  intro c hc
  cases hc

theorem first_sound {r : Regex} {prev : Option Char} {text : Str} {n : Nat}
    {gs : List (Nat × Str)} (h : first r prev text = some (n, gs)) :
    n ≤ text.length ∧ Lang r (text.take n) := by
  obtain ⟨q, hq, he⟩ := Option.map_eq_some_iff.mp h
  obtain ⟨u, hu, hread⟩ := run_sound r _ q (List.mem_of_mem_head? hq)
  cases he
  have hrest : text = u ++ q.rest := hread.rest
  have hoff : q.offset = u.length := by simpa using hread.offset
  rw [hoff]
  refine ⟨?_, ?_⟩
  · rw [hrest, List.length_append]
    omega
  · rwa [hrest, List.take_left]

def binds : Regex → Nat → Bool
  | .seq r s, i => r.binds i || s.binds i
  | .alt r s, i => r.binds i || s.binds i
  | .rep _ _ r, i => r.binds i
  | .group j r, i => j = i || r.binds i
  | .empty, _ | .set _ _, _ | .wordBoundary, _ => false

/-- The groups of a path are those before it and groups of the expression. -/
def Binds (r : Regex) (p q : Pos) : Prop :=
  ∃ own, q.groups = own ++ p.groups ∧ ∀ g ∈ own, r.binds g.1 = true

theorem Binds.refl (r : Regex) (p : Pos) : Binds r p p := ⟨[], rfl, by simp⟩

theorem Binds.trans {r : Regex} {p q s : Pos} (h : Binds r p q) (h' : Binds r q s) : Binds r p s := by
  obtain ⟨own, he, hown⟩ := h
  obtain ⟨own', he', hown'⟩ := h'
  refine ⟨own' ++ own, by rw [he', he, List.append_assoc], ?_⟩
  intro g hg
  exact (List.mem_append.mp hg).elim (hown' g) (hown g)

theorem Binds.mono {r s : Regex} {p q : Pos} (hrs : ∀ i, r.binds i = true → s.binds i = true)
    (h : Binds r p q) : Binds s p q := by
  obtain ⟨own, he, hown⟩ := h
  exact ⟨own, he, fun g hg => hrs _ (hown g hg)⟩

theorem exactly_binds {r : Regex} (h : ∀ p q, q ∈ step p → Binds r p q) (n : Nat) (p q : Pos)
    (hq : q ∈ exactly step n p) : Binds r p q := by
  induction n generalizing p with
  | zero =>
    rw [List.mem_singleton.mp hq]
    exact Binds.refl r p
  | succ n ih =>
    obtain ⟨m, hm, hq⟩ := List.mem_flatMap.mp hq
    exact (h p m hm).trans (ih m hq)

theorem upTo_binds {r : Regex} (h : ∀ p q, q ∈ step p → Binds r p q) (n : Nat) (p q : Pos)
    (hq : q ∈ upTo step n p) : Binds r p q := by
  induction n generalizing p with
  | zero =>
    rw [List.mem_singleton.mp hq]
    exact Binds.refl r p
  | succ n ih =>
    rcases List.mem_append.mp hq with hq | hq
    · obtain ⟨m, hm, hq⟩ := List.mem_flatMap.mp hq
      split at hq
      · cases hq
      · exact (h p m hm).trans (ih m hq)
    · rw [List.mem_singleton.mp hq]
      exact Binds.refl r p

theorem run_binds (r : Regex) (p q : Pos) (hq : q ∈ r.run p) : Binds r p q := by
  induction r generalizing p q with
  | empty =>
    rw [List.mem_singleton.mp hq]
    exact Binds.refl _ p
  | set fold ranges =>
    simp only [run] at hq
    split at hq
    · cases hq
    · split at hq
      · rw [List.mem_singleton.mp hq]
        exact ⟨[], rfl, by simp⟩
      · cases hq
  | wordBoundary =>
    simp only [run] at hq
    split at hq
    · rw [List.mem_singleton.mp hq]
      exact Binds.refl _ p
    · cases hq
  | seq r s ihr ihs =>
    obtain ⟨m, hm, hq⟩ := List.mem_flatMap.mp hq
    exact ((ihr p m hm).mono fun i hi => by simp [binds, hi]).trans
      ((ihs m q hq).mono fun i hi => by simp [binds, hi])
  | alt r s ihr ihs =>
    rcases List.mem_append.mp hq with hq | hq
    · exact (ihr p q hq).mono fun i hi => by simp [binds, hi]
    · exact (ihs p q hq).mono fun i hi => by simp [binds, hi]
  | rep least extra r ih =>
    obtain ⟨m, hm, hq⟩ := List.mem_flatMap.mp hq
    have hstep : ∀ p q, q ∈ r.run p → Binds (.rep least extra r) p q := ih
    exact (exactly_binds hstep least p m hm).trans (upTo_binds hstep _ m q hq)
  | group i r ih =>
    obtain ⟨m, hm, rfl⟩ := List.mem_map.mp hq
    obtain ⟨own, he, hown⟩ := ih p m hm
    refine ⟨(i, p.rest.take (m.offset - p.offset)) :: own, by simp [he], ?_⟩
    simp only [List.forall_mem_cons, binds, decide_true, Bool.true_or, true_and]
    intro g hg
    simp [hown g hg]

/-- The group that an expression begins with holds the beginning of what is read. -/
theorem run_group {i : Nat} {r s : Regex} (hs : s.binds i = false) {p q : Pos}
    (hq : q ∈ (Regex.seq (.group i r) s).run p) :
    ∃ u v, Lang r u ∧ Lang s v ∧ Reads p q (u ++ v) ∧
      q.groups.find? (fun g => g.1 = i) = some (i, u) := by
  obtain ⟨m, hm, hq⟩ := List.mem_flatMap.mp hq
  obtain ⟨n, hn, rfl⟩ := List.mem_map.mp hm
  obtain ⟨u, hu, hread⟩ := run_sound r p n hn
  obtain ⟨v, hv, hread'⟩ := run_sound s _ q hq
  obtain ⟨own, he, hown⟩ := run_binds s _ q hq
  have hskip : own.find? (fun g => g.1 = i) = none := by
    apply List.find?_eq_none.mpr
    intro g hg hgi
    have hbind := hown g hg
    rw [of_decide_eq_true hgi, hs] at hbind
    cases hbind
  have hu' : p.rest.take (n.offset - p.offset) = u := by
    rw [hread.rest, hread.offset, Nat.add_sub_cancel_left, List.take_left]
  have hmid : Reads p { n with groups := (i, p.rest.take (n.offset - p.offset)) :: n.groups } u :=
    ⟨hread.rest, hread.offset, hread.prev⟩
  refine ⟨u, v, hu, hv, hmid.trans hread', ?_⟩
  rw [he, List.find?_append, hskip, hu']
  simp

theorem mem_upTo_self (n : Nat) (p : Pos) : p ∈ upTo step n p := by
  cases n with
  | zero => exact List.mem_singleton_self p
  | succ n => exact List.mem_append_right _ (List.mem_singleton_self p)

/-- Nothing in the expression looks at the boundaries of words. -/
def boundless : Regex → Bool
  | .wordBoundary => false
  | .seq r s | .alt r s => r.boundless && s.boundless
  | .rep _ _ r | .group _ r => r.boundless
  | .empty | .set _ _ => true

theorem exactly_of_lang (h : ∀ u, L u → ∀ p z, p.rest = u ++ z → ∃ q ∈ step p, q.rest = z) {us : List Str}
    (hus : ∀ a ∈ us, L a) (p : Pos) {z : Str} (hp : p.rest = us.flatten ++ z) :
    ∃ q ∈ exactly step us.length p, q.rest = z := by
  induction us generalizing p with
  | nil => exact ⟨p, List.mem_singleton_self p, hp⟩
  | cons a us ih =>
    obtain ⟨ha, hus⟩ := List.forall_mem_cons.mp hus
    obtain ⟨m, hm, hmid⟩ := h a ha p (us.flatten ++ z) (by simpa using hp)
    obtain ⟨q, hq, hend⟩ := ih hus m hmid
    exact ⟨q, List.mem_flatMap.mpr ⟨m, hm, hq⟩, hend⟩

/-- Empty rounds count for nothing, so it is enough to have as many rounds as characters. -/
theorem upTo_of_lang (hs : ∀ p q, q ∈ step p → ∃ u, L u ∧ Reads p q u)
    (h : ∀ u, L u → ∀ p z, p.rest = u ++ z → ∃ q ∈ step p, q.rest = z) {us : List Str}
    (hus : ∀ a ∈ us, L a) {n : Nat} (hn : us.length ≤ n ∨ us.flatten.length ≤ n) (p : Pos) {z : Str}
    (hp : p.rest = us.flatten ++ z) : ∃ q ∈ upTo step n p, q.rest = z := by
  induction us generalizing n p with
  | nil => exact ⟨p, mem_upTo_self n p, hp⟩
  | cons a us ih =>
    obtain ⟨ha, hrest⟩ := List.forall_mem_cons.mp hus
    by_cases hnil : a = []
    · subst hnil
      refine ih hrest ?_ p (by simpa using hp)
      exact hn.imp (fun hlen => Nat.le_of_succ_le hlen) fun hlen => by simpa using hlen
    · have hpos : 0 < a.length := List.length_pos_of_ne_nil hnil
      rw [List.length_cons, List.flatten_cons, List.length_append] at hn
      obtain ⟨n, rfl⟩ := Nat.exists_eq_succ_of_ne_zero (n := n) (by omega)
      obtain ⟨m, hm, hmid⟩ := h a ha p (us.flatten ++ z) (by simpa using hp)
      obtain ⟨q, hq, hend⟩ := ih hrest (n := n) (by omega) m hmid
      have hne : m.offset ≠ p.offset := by
        obtain ⟨u, _, hread⟩ := hs p m hm
        have hlen := congrArg List.length hread.rest
        rw [hp, hmid, List.flatten_cons] at hlen
        simp only [List.length_append] at hlen
        rw [hread.offset]
        omega
      refine ⟨q, List.mem_append_left _ (List.mem_flatMap.mpr ⟨m, hm, ?_⟩), hend⟩
      rwa [if_neg hne]

/-- Away from the boundaries of words, what can be consumed is consumed in one of the ways. -/
theorem run_of_lang {r : Regex} (hr : r.boundless = true) {u : Str} (hu : Lang r u) (p : Pos) {z : Str}
    (hp : p.rest = u ++ z) : ∃ q ∈ r.run p, q.rest = z := by
  induction r generalizing u p z with
  | empty =>
    cases hu
    exact ⟨p, List.mem_singleton_self p, hp⟩
  | set fold ranges =>
    obtain ⟨c, hc, rfl⟩ := hu
    rw [List.singleton_append] at hp
    exact ⟨{ p with offset := p.offset + 1, prev := some c, rest := z }, by simp [run, hp, hc], rfl⟩
  | wordBoundary => cases hr
  | seq r s ihr ihs =>
    obtain ⟨hr, hs⟩ := Bool.and_eq_true_iff.mp hr
    obtain ⟨a, b, rfl, ha, hb⟩ := hu
    obtain ⟨m, hm, hmid⟩ := ihr hr ha p (by rw [hp, List.append_assoc])
    obtain ⟨q, hq, hend⟩ := ihs hs hb m hmid
    exact ⟨q, List.mem_flatMap.mpr ⟨m, hm, hq⟩, hend⟩
  | alt r s ihr ihs =>
    obtain ⟨hr, hs⟩ := Bool.and_eq_true_iff.mp hr
    rcases hu with hu | hu
    · obtain ⟨q, hq, hend⟩ := ihr hr hu p hp
      exact ⟨q, List.mem_append_left _ hq, hend⟩
    · obtain ⟨q, hq, hend⟩ := ihs hs hu p hp
      exact ⟨q, List.mem_append_right _ hq, hend⟩
  | rep least extra r ih =>
    obtain ⟨us, hleast, hmost, hus, rfl⟩ := hu
    have hstep : ∀ u, Lang r u → ∀ p z, p.rest = u ++ z → ∃ q ∈ r.run p, q.rest = z :=
      fun u hu p z hp => ih hr hu p hp
    have hlen : (us.take least).length = least := List.length_take_of_le hleast
    have hsplit : us.flatten = (us.take least).flatten ++ (us.drop least).flatten := by
      rw [← List.flatten_append, List.take_append_drop]
    rw [hsplit, List.append_assoc] at hp
    obtain ⟨m, hm, hmid⟩ := exactly_of_lang hstep (fun a ha => hus a (List.mem_of_mem_take ha)) p hp
    rw [hlen] at hm
    have hn : (us.drop least).length ≤ extra.getD m.rest.length ∨
        (us.drop least).flatten.length ≤ extra.getD m.rest.length := by
      cases extra with
      | none => exact .inr (by rw [Option.getD_none, hmid, List.length_append]; omega)
      | some e =>
        have hle := hmost e rfl
        exact .inl (by rw [Option.getD_some, List.length_drop]; omega)
    obtain ⟨q, hq, hend⟩ := upTo_of_lang (fun p q => run_sound r p q) hstep
      (fun a ha => hus a (List.mem_of_mem_drop ha)) hn m hmid
    exact ⟨q, List.mem_flatMap.mpr ⟨m, hm, hq⟩, hend⟩
  | group i r ih =>
    obtain ⟨q, hq, hend⟩ := ih hr hu p hp
    exact ⟨_, List.mem_map.mpr ⟨q, hq, rfl⟩, hend⟩

/-- The ways to match, from the longest to the shortest. -/
def Descending (ps : List Pos) : Prop := ps.Pairwise fun p q => q.offset ≤ p.offset

theorem nil_or_single {α : Type} {l : List α} (h : l.length ≤ 1) : l = [] ∨ ∃ a, l = [a] := by
  rcases Nat.le_one_iff_eq_zero_or_eq_one.mp h with h | h
  · exact .inl (List.length_eq_zero_iff.mp h)
  · exact .inr (List.length_eq_one_iff.mp h)

theorem Descending.flatMap {ps : List Pos} (h : ps.length ≤ 1) {f : Pos → List Pos}
    (hf : ∀ p, Descending (f p)) : Descending (ps.flatMap f) := by
  rcases nil_or_single h with rfl | ⟨p, rfl⟩
  · exact .nil
  · rw [List.flatMap_singleton]
    exact hf p

theorem Descending.head {ps : List Pos} (h : Descending ps) {p q : Pos} (hp : ps.head? = some p)
    (hq : q ∈ ps) : q.offset ≤ p.offset := by
  obtain ⟨ps, rfl⟩ := List.head?_eq_some_iff.mp hp
  rcases List.mem_cons.mp hq with rfl | hq
  · exact Nat.le_refl _
  · exact (List.pairwise_cons.mp h).1 q hq

theorem exactly_length (h : ∀ p, (step p).length ≤ 1) (n : Nat) (p : Pos) :
    (exactly step n p).length ≤ 1 := by
  induction n generalizing p with
  | zero => exact Nat.le_refl 1
  | succ n ih =>
    rw [exactly]
    rcases nil_or_single (h p) with hnone | ⟨q, hone⟩
    · rw [hnone]
      exact Nat.zero_le 1
    · rw [hone, List.flatMap_singleton]
      exact ih q

/-- Where each round can go on in one way at most, more rounds, which come first, go further. -/
theorem upTo_descending {r : Regex} (h : ∀ p, (r.run p).length ≤ 1) (n : Nat) (p : Pos) :
    Descending (upTo r.run n p) := by
  induction n generalizing p with
  | zero => exact List.pairwise_singleton _ p
  | succ n ih =>
    rw [upTo]
    refine List.pairwise_append.mpr ⟨?_, List.pairwise_singleton _ p, ?_⟩
    · refine Descending.flatMap (h p) fun q => ?_
      split
      · exact .nil
      · exact ih q
    · intro q hq s hs
      rw [List.mem_singleton.mp hs]
      obtain ⟨m, hm, hq⟩ := List.mem_flatMap.mp hq
      split at hq
      · cases hq
      · obtain ⟨_, _, hread⟩ := run_sound r p m hm
        obtain ⟨_, _, _, hreads⟩ := upTo_sound (run_sound r) n m q hq
        have hfirst := hread.offset
        have hmore := hreads.offset
        omega

theorem run_rep_descending {r : Regex} (h : ∀ p, (r.run p).length ≤ 1) (least extra : Nat) (p : Pos) :
    Descending ((Regex.rep least (some extra) r).run p) := by
  rw [run]
  exact Descending.flatMap (exactly_length h least p) fun q => upTo_descending h extra q

end Janus.Regex
