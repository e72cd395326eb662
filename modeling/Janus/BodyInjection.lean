import Janus.BodyReading

/-!
# The body of a call

What a call sends is the filled tree exactly when the arguments fit, as long as no
replacement meets a placeholder that is not one of the template.
-/

namespace Janus.Gateway

set_option autoImplicit false

open Storage Vault JsonText

theorem render_congr {a b : Params} (h : ∀ k, lookup k a = lookup k b) (segs : List Seg) :
    render a segs = render b segs := by
  refine List.flatMap_congr ?_
  intro g _
  cases g with
  | text s => rfl
  | quoted k => simp only [Seg.at, h]
  | inner k => simp only [Seg.at, h]

theorem text_ne_nil (t : BodyTemplate) : t.text ≠ [] := by
  have htree : t.tree.print placeholder ≠ [] := by
    cases t.tree with
    | null => simp [Cst.print]
    | bool b => cases b <;> simp [Cst.print]
    | num n => exact numLit_ne_nil n
    | hole k => exact placeholder_ne_nil k
    | str ps => exact List.cons_ne_nil _ _
    | arrEmpty ws => exact List.cons_ne_nil _ _
    | arr xs => exact List.cons_ne_nil _ _
    | objEmpty ws => exact List.cons_ne_nil _ _
    | obj ms => exact List.cons_ne_nil _ _
  intro h
  exact htree (List.append_eq_nil_iff.mp (List.append_eq_nil_iff.mp h).2).1

/-- Without a capture, the body is the template with every argument in its place. -/
theorem renderBody_render {ep : APIEndpoint} {t : BodyTemplate} {params : Params}
    (htemplate : ep.template = t.text) (hget : ep.method ≠ "GET".toList)
    (hdelete : ep.method ≠ "DELETE".toList) (hmap : (params.map Prod.fst).Nodup)
    (hcapture : NoCapture t.segs [] params) :
    renderBody ep (some params) = some (render params t.segs) := by
  have hrun := renderTemplate_render hmap (fun _ _ => rfl) hcapture
  rw [render_segs_nil, List.append_nil, render_congr fun k => lookup_perm k hmap params.reverse_perm.symm] at hrun
  have hmethod : (decide (ep.method ≠ "GET".toList) && decide (ep.method ≠ "DELETE".toList)) = true := by
    rw [Bool.and_eq_true, decide_eq_true_eq, decide_eq_true_eq]
    exact ⟨hget, hdelete⟩
  rw [renderBody, if_pos hmethod, htemplate, if_pos (text_ne_nil t), Option.getD_some, hrun]

theorem render_template (params : Params) (t : BodyTemplate) :
    render params t.segs = t.before.text ++ (render params (cstSegs t.tree) ++ t.after.text) := by
  simp only [BodyTemplate.segs, render_cons, render_append, render_nil, Seg.at, List.append_nil]

theorem parse_fits {params : Params} {t : BodyTemplate} (h : FitsCst params t.tree) :
    parse (render params t.segs) = some (fillCst params t.tree) := by
  obtain ⟨c, hprint, hvalue⟩ := exists_cst t.tree h
  rw [render_template, ← hprint, ← hvalue]
  exact parse_print t.before t.after c

theorem fits_of_parse {params : Params} {t : BodyTemplate} (hnamed : Named params t.segs)
    (h : parse (render params t.segs) = some (fillCst params t.tree)) : FitsCst params t.tree := by
  unfold parse at h
  split at h
  · rename_i v r hread
    split at h
    · cases h
      rw [BodyTemplate.segs, named_text, named_append] at hnamed
      have htail : Tail t.after.text := by
        rw [← List.append_nil t.after.text]
        exact tail_append_space t.after trivial
      have hend : skipSpace t.after.text = [] := by
        rw [← List.append_nil t.after.text]
        exact skipSpace_space t.after []
      rw [render_template] at hread
      refine fits_of_parseValue t.before t.tree _ t.after.text r hnamed.1 ?_ htail ?_ hread
      · simp only [List.length_append]
        omega
      · rw [hend]
        decide
    · cases h
  · cases h

section
variable {params : Params}

theorem named_of_fitsParts {ps : List (StrPart Str)} (h : FitsParts params ps) :
    Named params (ps.map StrPart.seg) := by
  rw [named_parts_iff]
  intro k hk
  obtain ⟨v, hv, _⟩ := h k hk
  exact ⟨v, hv⟩

theorem named_quoted {k : Str} {v : Json} (h : lookup k params = some v) :
    Named params (literalSegs [.hole k]) := by
  rintro j (hj | hj)
  · cases List.mem_singleton.mp hj
    exact ⟨v, h⟩
  · cases List.mem_singleton.mp hj

theorem named_of_fitsLiteral {ps : List (StrPart Str)} (h : FitsLiteral params ps) :
    Named params (literalSegs ps) := by
  rcases literal_cases ps with ⟨k, rfl⟩ | hne
  · obtain ⟨v, hv⟩ := h
    exact named_quoted hv
  · exact (named_literal_parts hne).mpr (named_of_fitsParts ((fitsLiteral_parts hne).mp h))

theorem named_of_fitsName {ps : List (StrPart Str)} (h : FitsName params ps) :
    Named params (literalSegs ps) := by
  rcases literal_cases ps with ⟨k, rfl⟩ | hne
  · obtain ⟨s, hs⟩ := h
    exact named_quoted hs
  · exact (named_literal_parts hne).mpr (named_of_fitsParts ((fitsName_parts hne).mp h))

mutual
theorem named_of_fits (v : Cst Str) (h : FitsCst params v) : Named params (cstSegs v) := by
  match v with
  | .null => exact (named_text _ _).mpr named_nil
  | .bool true => exact (named_text _ _).mpr named_nil
  | .bool false => exact (named_text _ _).mpr named_nil
  | .num n =>
    rw [cstSegs, named_text]
    exact named_nil
  | .str ps => exact named_of_fitsLiteral h
  | .hole k =>
    obtain ⟨x, hx, _⟩ := h
    rintro j (hj | hj)
    · cases List.mem_singleton.mp hj
    · cases List.mem_singleton.mp hj
      exact ⟨x, hx⟩
  | .arrEmpty ws =>
    rw [cstSegs, named_text]
    exact named_nil
  | .arr xs =>
    rw [cstSegs, named_text]
    exact named_of_fitsItems xs h
  | .objEmpty ws =>
    rw [cstSegs, named_text]
    exact named_nil
  | .obj ms =>
    rw [cstSegs, named_text]
    exact named_of_fitsMembers ms h
theorem named_of_fitsItems (xs : Items Str) (h : FitsItems params xs) :
    Named params (itemsSegs xs) := by
  match xs with
  | .one w v w' =>
    rw [itemsSegs, named_text, named_append, named_text]
    exact ⟨named_of_fits v h, named_nil⟩
  | .more w v w' rest =>
    rw [itemsSegs, named_text, named_append, named_text]
    exact ⟨named_of_fits v h.1, named_of_fitsItems rest h.2⟩
theorem named_of_fitsMembers (ms : Members Str) (h : FitsMembers params ms) :
    Named params (membersSegs ms) := by
  match ms with
  | .one w k m w' v w'' =>
    rw [membersSegs, named_text, named_append, named_text, named_append, named_text]
    exact ⟨named_of_fitsName h.1, named_of_fits v h.2, named_nil⟩
  | .more w k m w' v w'' rest =>
    rw [membersSegs, named_text, named_append, named_text, named_append, named_text]
    exact ⟨named_of_fitsName h.1, named_of_fits v h.2.1, named_of_fitsMembers rest h.2.2⟩
end

end

/-- Every placeholder has an argument, and the body is JSON whose value is the filled tree. -/
def BodyFilled (t : BodyTemplate) (params : Params) (req : Request) : Prop :=
  Named params t.segs ∧
    ∃ body, req.body = some body ∧ JsonText.parse body = some (fillCst params t.tree)

/-- A call whose replacements meet nothing but the placeholders of the template sends the
filled tree exactly when every argument fits the places it is put to. The arguments are
taken in any order. -/
theorem bodyFilled_iff {env : CallEnv} {vault : Provider} {conn : APIConnection} {ep : APIEndpoint}
    {t : BodyTemplate} {params : Params} {c : Client} {req : Request}
    (htemplate : ep.template = t.text) (hget : ep.method ≠ "GET".toList)
    (hdelete : ep.method ≠ "DELETE".toList) (hmap : (params.map Prod.fst).Nodup)
    (hcapture : NoCapture t.segs [] params)
    (hsent : (executeCall env vault conn ep (some params) c).request = some req) :
    BodyFilled t params req ↔ FitsCst params t.tree := by
  obtain ⟨u, _, _, hreq⟩ := executeCall_request hsent
  have hbody := hreq.trans (renderBody_render htemplate hget hdelete hmap hcapture)
  constructor
  · rintro ⟨hnamed, body, hb, hparse⟩
    rw [hbody] at hb
    cases hb
    exact fits_of_parse hnamed hparse
  · intro hfits
    refine ⟨?_, _, hbody, parse_fits hfits⟩
    rw [BodyTemplate.segs, named_text, named_append, named_text]
    exact ⟨named_of_fits t.tree hfits, named_nil⟩

/-- What a capture does: the value of `x` reads like a placeholder and is filled with `y`. -/
example : renderTemplate "\x7b\"a\":\"\x7b\x7bx\x7d\x7d\"\x7d".toList
    [(['x'], .str "\x7b\x7by\x7d\x7d".toList), (['y'], .str ['v'])] =
      "\x7b\"a\":\"v\"\x7d".toList := by
  decide +kernel

def noteTemplate : BodyTemplate where
  before := noSpace
  tree := .obj (.one noSpace (litParts "note".toList) noSpace noSpace
    (.str (litParts "say ".toList ++ [.hole ['k']])) noSpace)
  after := noSpace

def noteEndpoint : APIEndpoint :=
  ⟨['e'], ['c'], ['n'], [], ['/'], "POST".toList, [], noteTemplate.text, [], 0⟩

def noteConn : APIConnection := ⟨['c'], ['c'], [], "http://h".toList, "none".toList, [], true, []⟩

def noteClient : Client := ⟨⟨[], true⟩, .new 0, .new 0, 0⟩

def noteEnv : CallEnv := ⟨0, 0, fun _ => .ok [], none, fun _ => none, fun _ => .reply 200 []⟩

def noteArgs (s : Str) : Params := [(['k'], .str s)]

def noteRequest (body : Str) : Request := ⟨"POST".toList, "http://h/".toList, some body, .none⟩

theorem request_noteArgs :
    (executeCall noteEnv (.local []) noteConn noteEndpoint (some (noteArgs ['h', 'i']))
      noteClient).request = some (noteRequest "\x7b\"note\":\"say hi\"\x7d".toList) := by
  decide +kernel

/-- A string without a quote at its end is sent as it is. -/
theorem noteArgs_filled :
    BodyFilled noteTemplate (noteArgs ['h', 'i']) (noteRequest "\x7b\"note\":\"say hi\"\x7d".toList) := by
  refine (bodyFilled_iff (t := noteTemplate) rfl (by decide) (by decide) (by decide) ?_
    request_noteArgs).mpr ?_
  · exact ⟨by decide +kernel, by decide +kernel, trivial⟩
  · refine ⟨?_, ?_⟩
    · intro k hk
      simp at hk
    · intro k hk
      have hkey : k = ['k'] := by simpa [litParts] using hk
      subst hkey
      exact ⟨.str ['h', 'i'], rfl, by simp [FitsText]⟩

/-- The closing quote of the argument is trimmed with those around it, and the backslash
before it takes the quote of the template. -/
theorem quoteArgs_not_filled :
    (executeCall noteEnv (.local []) noteConn noteEndpoint (some (noteArgs ['h', 'i', '"']))
        noteClient).request = some (noteRequest "\x7b\"note\":\"say hi\\\"\x7d".toList) ∧
      ¬ BodyFilled noteTemplate (noteArgs ['h', 'i', '"'])
        (noteRequest "\x7b\"note\":\"say hi\\\"\x7d".toList) := by
  refine ⟨by decide +kernel, ?_⟩
  rintro ⟨_, body, hbody, hparse⟩
  cases hbody
  have hnone : parse "\x7b\"note\":\"say hi\\\"\x7d".toList = none := by decide +kernel
  rw [hnone] at hparse
  cases hparse

end Janus.Gateway
