import Janus.Cleanness
import Janus.JsonRedaction
import Janus.Lib.JsonSwap
import Janus.MapRedaction

/-!
# The two redactions of a JSON body

Arguments are redacted string by string, results as text. The two agree where they agree
on each literal with its closing quote, and where nothing else of the text is redacted
(`redactBytes_agrees`): no rule reaches from one literal into another.
-/

namespace Janus.Redaction

set_option autoImplicit false

open JsonText

def masked (text : Str) : Str := (builtin.redactBytes text).1

theorem masked_eq : masked = rewritten builtinRules := funext redactBytes_fst

theorem hits_append (rules others : List CompiledRule) (text : Str) :
    hits (rules ++ others) text = hits rules text + hits others (rewritten rules text) := by
  induction rules generalizing text with
  | nil => exact (Nat.zero_add _).symm
  | cons rule rules ih => rw [List.cons_append, hits, hits, ih, rewritten_cons, Nat.add_assoc]

theorem cuts_pos_of_endsInCut {es : List Edit} (h : endsInCut es = true) : 0 < Edits.cuts es := by
  obtain ⟨e, he, hcut⟩ := (Option.any_eq_true _ _).mp h
  obtain ⟨es, rfl⟩ := List.getLast?_eq_some_iff.mp he
  cases e with
  | kept c => cases hcut
  | cut u copied ins =>
    rw [Edits.cuts_append]
    exact Nat.lt_add_left _ Nat.one_pos

theorem takesQuote_of_kept {f : Str} (h : masked f = f) : takesQuote f = false := by
  have hmeasure := exposed_builtin f
  rw [← masked_eq, h] at hmeasure
  have hsplit : builtinRules = earlyRules ++ secretAssignRule :: lateRules := rfl
  have hzero : hits builtinRules f = 0 := by omega
  rw [hsplit, hits_append, hits, applyRule_scan sound_secretAssignRule] at hzero
  by_contra htake
  have hpos := cuts_pos_of_endsInCut (by simpa [takesQuote] using htake)
  dsimp only at hzero
  omega

/-- The two redactions agree on a literal: redacted with its closing quote it is a literal of the
redacted string, or of the same one if it is a name. -/
def LiteralAgrees (name : Bool) (x : Str) : Prop :=
  ∃ d, readString (x ++ ['"']) = some (d, []) ∧
    readString (masked (x ++ ['"'])) = some (if name then d else masked d, [])

theorem literal_of_readString {x d : Str} (h : readString (x ++ ['"']) = some (d, [])) :
    isLiteral x = true := by
  obtain ⟨y, hy, hlit⟩ := readFrom_split none _ h
  have hsame : x = y := List.append_cancel_right hy
  rwa [hsame]

/-- What stands behind the closing quote is redacted on its own. -/
theorem rewritten_literal {x z : Str} (hx : isLiteral x = true) (hz : closes z = true) :
    rewritten builtinRules (x ++ '"' :: z) =
      rewritten builtinRules (x ++ ['"']) ++ rewritten builtinRules z := by
  have hnil : rewritten builtinRules [] = [] := rewritten_nil sound_of_mem_builtinRules
  induction hk : x.length using Nat.strong_induction_on generalizing x with
  | _ k ih =>
    rcases literal_part x hx with hq | ⟨f, x', rfl, hq, hlast, hx'⟩
    · have hearly := quote_notMem_early hq
      rw [(rewritten_quote hearly (apart_of_closes _ hz)).1,
        (rewritten_quote (z := []) hearly (apart_of_closes _ rfl)).1, hnil, List.append_nil]
    · have hearly := quote_notMem_early hq
      have hlt : x'.length < k := by
        rw [← hk, List.length_append, List.length_cons]
        omega
      have hrec := ih x'.length hlt hx' rfl
      simp only [List.append_assoc, List.cons_append]
      rw [(rewritten_quote hearly (apart_of_backslash hlast _)).1,
        (rewritten_quote (z := x' ++ ['"']) hearly (apart_of_backslash hlast _)).1, hrec]
      simp only [List.append_assoc]

/-- A JSON text in which nothing is redacted outside the literals and each literal agrees. -/
inductive Separable : Str → Prop where
  | last {o : Str} (hq : '"' ∉ o) (ho : masked o = o) : Separable o
  | lit {o x z : Str} (hq : '"' ∉ o) (ho : masked o = o) (hx : LiteralAgrees (isName z) x)
    (h : Separable z) : Separable (o ++ '"' :: (x ++ '"' :: z))

theorem lexes_outside {o s : Str} (hq : '"' ∉ o) (h : lexes false (o ++ '"' :: s) = true) :
    (∀ c ∈ o, isStructural c = true) ∧ lexes true s = true := by
  induction o with
  | nil => exact ⟨by simp, by simpa [lexes] using h⟩
  | cons c o ih =>
    obtain ⟨hc, ho⟩ := not_or.mp (mt List.mem_cons.mpr hq)
    rw [List.cons_append, lexes, if_neg fun he => hc he.symm] at h
    obtain ⟨hstruct, hrest⟩ := Bool.and_eq_true_iff.mp h
    obtain ⟨hall, hin⟩ := ih ho hrest
    exact ⟨List.forall_mem_cons.mpr ⟨hstruct, hall⟩, hin⟩

theorem readString_append {s z d : Str} (h : readString s = some (d, [])) :
    readString (s ++ z) = some (d, z) := by
  have hmore := readFrom_append none s z h
  rwa [List.nil_append] at hmore

/-- Redacting the text replaces its strings by the redacted ones. -/
theorem Separable.swap {t : Str} (h : Separable t) (hlex : lexes false t = true) :
    Swap masked t (masked t) := by
  induction h with
  | @last o hq ho =>
    rw [ho]
    simpa using Swap.keep hq (Swap.nil (f := masked))
  | @lit o x z hq ho hx _ ih =>
    obtain ⟨d, hread, hread'⟩ := hx
    have hlit := literal_of_readString hread
    obtain ⟨hstruct, hin⟩ := lexes_outside hq hlex
    rw [lexes_literal x hlit] at hin
    obtain ⟨hc, hz⟩ := Bool.and_eq_true_iff.mp hin
    have htext : masked (o ++ '"' :: (x ++ '"' :: z)) = o ++ '"' :: (masked (x ++ ['"']) ++ masked z) := by
      have hquote := (rewritten_quote (z := x ++ '"' :: z) (quote_notMem_early hq)
        (apart_of_structural hstruct _)).1
      rw [takesQuote_of_kept ho, rewritten_literal hlit hc, ← masked_eq, ho] at hquote
      simpa using hquote
    rw [htext]
    have hfirst := readString_append (z := z) hread
    rw [List.append_assoc] at hfirst
    exact Swap.keep hq (.lit hfirst (readString_append hread') (ih hz))

/-- A character that may stand in a literal as it is. -/
def isBare (c : Char) : Prop := c ≠ '"' ∧ c ≠ '\\' ∧ 32 ≤ c.toNat

theorem readString_bare {x : Str} (h : ∀ c ∈ x, isBare c) (z : Str) :
    readString (x ++ '"' :: z) = some (x, z) := by
  induction x with
  | nil => rfl
  | cons c x ih =>
    obtain ⟨⟨hq, hb, hctl⟩, hx⟩ := List.forall_mem_cons.mp h
    have hrest : readFrom none (x ++ '"' :: z) = some (x, z) := ih hx
    have hlit := readFrom_lit (.plain hq hb hctl) (x ++ '"' :: z)
    rw [hrest] at hlit
    exact hlit

theorem bare_of_readString {x d : Str} (hb : '\\' ∉ x) (h : readString (x ++ ['"']) = some (d, [])) :
    ∀ c ∈ x, isBare c := by
  induction x generalizing d with
  | nil => simp
  | cons c x ih =>
    obtain ⟨hc, hx⟩ := not_or.mp (mt List.mem_cons.mpr hb)
    have hback : c ≠ '\\' := fun he => hc he.symm
    have hq : c ≠ '"' := by
      rintro rfl
      simp [readString, readFrom] at h
    have hread : readFrom none (c :: (x ++ ['"'])) = some (d, []) := h
    rw [readFrom] at hread
    · split at hread
      · cases hread
      · rename_i hctl
        obtain ⟨ds, hrest⟩ := readFrom_of_map hread fun _ => rfl
        have hlow : 32 ≤ c.toNat := by simpa [hback] using hctl
        exact List.forall_mem_cons.mpr ⟨⟨hq, hback, hlow⟩, ih hx hrest⟩
    · exact hq
    · exact fun _ _ _ _ _ he _ => hback he
    · exact fun _ _ he _ => hback he

theorem bare_inserted : ∀ rule ∈ builtinRules, ∀ c ∈ rule.inserted [], isBare c := by
  unfold isBare
  decide +kernel

/-- On a literal without escapes the redactions agree exactly when its quote is not taken. -/
theorem agrees_iff_of_bare {x d : Str} (hb : '\\' ∉ x) (h : readString (x ++ ['"']) = some (d, [])) :
    LiteralAgrees false x ↔ takesQuote x = false := by
  have hbare := bare_of_readString hb h
  have hself := readString_bare hbare []
  rw [h] at hself
  have hq : '"' ∉ x := fun hmem => (hbare _ hmem).1 rfl
  have hout : ∀ c ∈ masked x, isBare c := by
    rw [masked_eq]
    exact forall_rewritten (fun _ hrule => hrule) bare_inserted hbare
  have hquote := (rewritten_quote (z := []) (quote_notMem_early hq) (apart_of_closes _ rfl)).1
  rw [rewritten_nil sound_of_mem_builtinRules, ← masked_eq, List.append_nil] at hquote
  unfold LiteralAgrees
  rw [hquote]
  cases htake : takesQuote x with
  | false =>
    cases hself
    simp [h, readString_bare hout []]
  | true =>
    simp only [if_true, List.append_nil, Bool.true_eq_false, iff_false]
    rintro ⟨d', _, hread⟩
    obtain ⟨y, hy, _⟩ := readFrom_split none _ hread
    exact (hout '"' (by simp [hy])).1 rfl

mutual
theorem redactValue_fst (r : Redactor) (v : Json) (counts : List (Str × Nat)) :
    (r.redactValue v counts).1 = v.mapStrings fun s => (r.redactBytes s).1 := by
  match v with
  | .null | .bool _ | .num _ | .str _ => rfl
  | .arr xs => exact congrArg Json.arr (redactItems_fst r xs counts)
  | .obj ms => exact congrArg Json.obj (redactMembers_fst r ms counts)
theorem redactItems_fst (r : Redactor) (xs : List Json) (counts : List (Str × Nat)) :
    (r.redactItems xs counts).1 = Json.mapStringsItems (fun s => (r.redactBytes s).1) xs := by
  match xs with
  | [] => rfl
  | x :: xs => exact congrArg₂ List.cons (redactValue_fst r x counts) (redactItems_fst r xs _)
theorem redactMembers_fst (r : Redactor) (ms : List (Str × Json)) (counts : List (Str × Nat)) :
    (r.redactMembers ms counts).1 = Json.mapStringsMembers (fun s => (r.redactBytes s).1) ms := by
  match ms with
  | [] => rfl
  | (k, x) :: ms =>
    exact congrArg₂ List.cons (congrArg (Prod.mk k) (redactValue_fst r x counts))
      (redactMembers_fst r ms _)
end

/-- A separable text is redacted to a text of the redacted map. Its literals may be checked one
by one, and one without escapes agrees exactly when no assignment runs up to its quote. -/
theorem redactBytes_agrees (t : Str) (m : List (Str × Json))
    (h : (parse t).bind Json.toAny = some (.obj m)) (hsep : Separable t) :
    (parse (builtin.redactBytes t).1).bind Json.toAny = some (.obj (builtin.redactMap m).1) ∧
      Json.obj (builtin.redactMap m).1 = (Json.obj m).mapStrings masked ∧
      ∀ x d, '\\' ∉ x → readString (x ++ ['"']) = some (d, []) →
        (LiteralAgrees false x ↔ takesQuote x = false) := by
  have hmap : Json.obj (builtin.redactMap m).1 = (Json.obj m).mapStrings masked :=
    redactValue_fst builtin (.obj m) []
  obtain ⟨v, hv, hany⟩ := Option.bind_eq_some_iff.mp h
  refine ⟨?_, hmap, fun x d hb hx => agrees_iff_of_bare hb hx⟩
  have hread : parse (masked t) = some (v.mapStrings masked) :=
    parse_swap hv (hsep.swap (lexes_of_parse hv))
  have hdecode : (parse (masked t)).bind Json.toAny = some ((Json.obj m).mapStrings masked) := by
    rw [hread, Option.bind_some, Json.toAny_mapStrings, hany]
    rfl
  rw [hmap]
  exact hdecode

def bodyOf (name literal : Str) : Str :=
  ['{'] ++ '"' :: (name ++ '"' :: ([':'] ++ '"' :: (literal ++ '"' :: ['}'])))

theorem separable_bodyOf {name literal : Str} (hname : LiteralAgrees true name)
    (hliteral : LiteralAgrees false literal) : Separable (bodyOf name literal) := by
  have hopen : masked ['{'] = ['{'] := by decide
  have hcolon : masked [':'] = [':'] := by decide
  have hclose : masked ['}'] = ['}'] := by decide
  have hvalue : isName ['}'] = false := by decide
  have hlast : Separable ([':'] ++ '"' :: (literal ++ '"' :: ['}'])) := by
    apply Separable.lit (by decide) hcolon
    · rwa [hvalue]
    · exact .last (by decide) hclose
  apply Separable.lit (by decide) hopen
  · exact hname
  · exact hlast

def quoteBody : Str := bodyOf "a".toList "token=AAAAAAAAAAAAAAAAAAAAAAAAAAAAAAAA".toList

def numberBody : Str := "\x7b\"n\":4111111111111111\x7d".toList

def escapeBody : Str := bodyOf "a".toList "bob\\u0040example.com".toList

/-- The quote behind a secret is lost, a card number that is no string gets masked, and an address
that is written with an escape stays. -/
theorem bodies_disagree :
    ((parse quoteBody).isSome = true ∧ parse (builtin.redactBytes quoteBody).1 = none) ∧
      ((parse numberBody).isSome = true ∧ parse (builtin.redactBytes numberBody).1 = none) ∧
      parse escapeBody = some (.obj [("a".toList, .str "bob@example.com".toList)]) ∧
      (builtin.redactBytes escapeBody).1 = escapeBody ∧
      (builtin.redactMap [("a".toList, .str "bob@example.com".toList)]).1 =
        [("a".toList, .str "[REDACTED:email]".toList)] := by
  decide +kernel

def mailBody : Str := bodyOf "to".toList "Bob <bob@example.com>".toList

def mailMembers : List (Str × Json) := [("to".toList, .str "Bob <bob@example.com>".toList)]

theorem mailBody_agrees : (parse (builtin.redactBytes mailBody).1).bind Json.toAny =
    some (.obj [("to".toList, .str "Bob <[REDACTED:email]>".toList)]) := by
  have hdecode : (parse mailBody).bind Json.toAny = some (.obj mailMembers) := by decide +kernel
  have hsep : Separable mailBody :=
    separable_bodyOf ⟨"to".toList, by decide, by decide⟩
      ⟨"Bob <bob@example.com>".toList, by decide, by decide⟩
  have hmap : (builtin.redactMap mailMembers).1 = [("to".toList, .str "Bob <[REDACTED:email]>".toList)] := by
    decide +kernel
  rw [(redactBytes_agrees mailBody mailMembers hdecode hsep).1, hmap]

end Janus.Redaction
