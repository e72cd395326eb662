import Janus.ImportAtomicity
import Janus.Lib.JsonDecoded
import Janus.Listing

/-!
# The tools of an imported document

An import turns every operation of the document into a tool. Its input schema says exactly what
the parameters and the JSON body of the operation say, although it has been encoded, stored and
decoded in between (`describes_built`). The listing gains these tools and nothing else
(`import_listed`), and a call of one of them reaches the operation (`import_called`).
-/

namespace Janus.OpenApi

set_option autoImplicit false

open Decode (Entries)

/-- The parameters of an operation, its own over those of its path. -/
def FoundOp.parameters (f : FoundOp) : List Parameter := mergeParameters f.shared f.op.parameters

/-- The last parameter of a name. -/
def named (k : Str) (ps : List Parameter) : Option Parameter :=
  (ps.filter fun p => p.name = k && p.name ≠ []).getLast?

/-- The schema of a JSON body, unless it says nothing. -/
def RequestBody.bodySchema (rb : RequestBody) : Option (List (Str × Json)) :=
  ((lookup "application/json".toList rb.content).map MediaType.schema).filter fun ms => ms ≠ []

def FoundOp.bodySchema (f : FoundOp) : Option (List (Str × Json)) :=
  f.op.requestBody.bind RequestBody.bodySchema

/-- The members of such a body are arguments of their own. -/
def isFlat (body : List (Str × Json)) : Bool :=
  stringMember "type" body = [] || stringMember "type" body = "object".toList

/-- The schema of an argument that stands for the body or for a member of it. -/
def bodyArgument (body : List (Str × Json)) (k : Str) : Option Json :=
  if isFlat body then
    match lookup "properties".toList body with
    | some (.obj ps) => lookup k ps
    | _ => none
  else if k = "body".toList then some (.obj body)
  else none

/-- The schema of an argument of the operation. -/
def FoundOp.argument (f : FoundOp) (k : Str) : Option Json :=
  (f.bodySchema.bind fun body => bodyArgument body k).or
    ((named k f.parameters).map parameterToJSONSchema)

def bodyRequires (required : Bool) (body : List (Str × Json)) (k : Str) : Prop :=
  if isFlat body then ∃ rs, lookup "required".toList body = some (.arr rs) ∧ .str k ∈ rs
  else k = "body".toList ∧ required = true

/-- The operation cannot do without the argument. -/
def FoundOp.Requires (f : FoundOp) (k : Str) : Prop :=
  (∃ p ∈ f.parameters, p.name = k ∧ k ≠ [] ∧ (p.required = true ∨ p.in = "path".toList)) ∨
    ∃ rb body, f.op.requestBody = some rb ∧ rb.bodySchema = some body ∧ bodyRequires rb.required body k

/-- A schema with the arguments of the operation as its properties. -/
structure InputSchema (f : FoundOp) (ms props : List (Str × Json)) (names : List Str) : Prop where
  type : lookup "type".toList ms = some (.str "object".toList)
  properties : lookup "properties".toList ms = some (.obj props)
  required : lookup "required".toList ms = if names = [] then none else some (.arr (names.map .str))
  argument : ∀ k, lookup k props = (f.argument k).map Json.sorted
  nodup : names.Nodup
  requires : ∀ k, k ∈ names ↔ f.Requires k

def Describes (f : FoundOp) (schema : Json) : Prop :=
  ∃ ms props names, schema = .obj ms ∧ InputSchema f ms props names

def Parameter.Sound (p : Parameter) : Prop := Entries Json.Decoded p.schema

def MediaType.Sound (m : MediaType) : Prop := Entries Json.Decoded m.schema

def RequestBody.Sound (b : RequestBody) : Prop := Entries MediaType.Sound b.content

/-- The schemas of an operation are decoded values. -/
structure Operation.Sound (op : Operation) : Prop where
  parameters : ∀ p ∈ op.parameters, p.Sound
  body : ∀ b ∈ op.requestBody, b.Sound

structure FoundOp.Sound (f : FoundOp) : Prop where
  shared : ∀ p ∈ f.shared, p.Sound
  op : f.op.Sound

theorem decodeParameter_sound {p p' : Parameter} {v : Json} (hp : p.Sound)
    (h : decodeParameter p v = some p') : p'.Sound := by
  refine Decode.record_keeps ?_ hp h
  intro p k v p' hp h
  split at h
  · obtain ⟨x, _, rfl⟩ := Option.map_eq_some_iff.mp h
    exact hp
  · split at h
    · obtain ⟨x, _, rfl⟩ := Option.map_eq_some_iff.mp h
      exact hp
    · split at h
      · obtain ⟨x, _, rfl⟩ := Option.map_eq_some_iff.mp h
        exact hp
      · split at h
        · obtain ⟨x, _, rfl⟩ := Option.map_eq_some_iff.mp h
          exact hp
        · split at h
          · obtain ⟨x, hx, rfl⟩ := Option.map_eq_some_iff.mp h
            exact Decode.anyMap_keeps hp hx
          · cases h
            exact hp

theorem zeroParameter_sound : zeroParameter.Sound := Decode.entries_nil

theorem decodeParameters_sound {ps ps' : List Parameter} {v : Json} (hps : ∀ p ∈ ps, p.Sound)
    (h : decodeParameters ps v = some ps') : ∀ p ∈ ps', p.Sound :=
  Decode.list_keeps zeroParameter_sound (fun _ _ _ => decodeParameter_sound) hps h

theorem decodeMediaType_sound {v : Json} {m : MediaType} (h : decodeMediaType v = some m) : m.Sound := by
  have hzero : (⟨[]⟩ : MediaType).Sound := Decode.entries_nil
  refine Decode.record_keeps ?_ hzero h
  intro m k v m' hm h
  split at h
  · obtain ⟨x, hx, rfl⟩ := Option.map_eq_some_iff.mp h
    exact Decode.anyMap_keeps hm hx
  · cases h
    exact hm

theorem decodeRequestBody_sound {b b' : RequestBody} {v : Json} (hb : b.Sound)
    (h : decodeRequestBody b v = some b') : b'.Sound := by
  refine Decode.record_keeps ?_ hb h
  intro b k v b' hb h
  split at h
  · obtain ⟨x, _, rfl⟩ := Option.map_eq_some_iff.mp h
    exact hb
  · split at h
    · obtain ⟨x, hx, rfl⟩ := Option.map_eq_some_iff.mp h
      exact Decode.map_keeps (fun _ _ => decodeMediaType_sound) hb hx
    · cases h
      exact hb

theorem decodeOperation_sound {v : Json} {op : Operation} (h : decodeOperation v = some op) : op.Sound := by
  have hzero : (⟨[], [], [], [], none⟩ : Operation).Sound :=
    ⟨fun _ h => absurd h List.not_mem_nil, fun _ h => nomatch h⟩
  refine Decode.record_keeps ?_ hzero h
  intro op k v op' hop h
  split at h
  · obtain ⟨x, _, rfl⟩ := Option.map_eq_some_iff.mp h
    exact ⟨hop.parameters, hop.body⟩
  · split at h
    · obtain ⟨x, _, rfl⟩ := Option.map_eq_some_iff.mp h
      exact ⟨hop.parameters, hop.body⟩
    · split at h
      · obtain ⟨x, _, rfl⟩ := Option.map_eq_some_iff.mp h
        exact ⟨hop.parameters, hop.body⟩
      · split at h
        · obtain ⟨x, hx, rfl⟩ := Option.map_eq_some_iff.mp h
          exact ⟨decodeParameters_sound hop.parameters hx, hop.body⟩
        · split at h
          · obtain ⟨x, hx, rfl⟩ := Option.map_eq_some_iff.mp h
            have hnew : (⟨false, []⟩ : RequestBody).Sound := Decode.entries_nil
            exact ⟨hop.parameters, Decode.pointer_keeps hnew (fun _ _ _ => decodeRequestBody_sound) hop.body hx⟩
          · cases h
            exact hop

theorem methodOp_sound {path method : Str} {shared : List Parameter} {methodOps : List (Str × Json)}
    (hshared : ∀ p ∈ shared, p.Sound) {fs : List FoundOp} (h : methodOp path shared methodOps method = .ok fs) :
    ∀ f ∈ fs, f.Sound := by
  unfold methodOp at h
  split at h
  · cases h
    exact fun _ h => nomatch h
  · split at h
    · cases h
    · rename_i op hop
      cases h
      intro f hf
      obtain rfl := List.mem_singleton.mp hf
      exact ⟨hshared, decodeOperation_sound hop⟩

/-- What holds of the results of each element holds of the whole list. -/
theorem forall_mem_flatten_mapM {α β ε : Type} {P : β → Prop} {g : α → Except ε (List β)}
    (hg : ∀ a bs, g a = .ok bs → ∀ b ∈ bs, P b) (l : List α) {bs : List β}
    (h : (l.mapM g).map List.flatten = .ok bs) : ∀ b ∈ bs, P b := by
  induction l generalizing bs with
  | nil =>
    cases h
    exact fun _ h => nomatch h
  | cons a l ih =>
    rw [List.mapM_cons] at h
    cases ha : g a with
    | error e =>
      rw [ha] at h
      cases h
    | ok xs =>
      rw [ha] at h
      cases hl : l.mapM g with
      | error e =>
        rw [hl] at h
        cases h
      | ok xss =>
        rw [hl] at h ih
        cases h
        intro b hb
        rcases List.mem_append.mp hb with hb | hb
        · exact hg a xs ha b hb
        · exact ih rfl b hb

theorem pathOps_sound {paths : List (Str × Json)} {path : Str} {fs : List FoundOp}
    (h : pathOps paths path = .ok fs) : ∀ f ∈ fs, f.Sound := by
  unfold pathOps at h
  dsimp only at h
  split at h
  · rename_i shared methodOps hmeta _
    have hshared : ∀ p ∈ shared, p.Sound := by
      refine Decode.record_keeps (P := fun ps => ∀ p ∈ ps, Parameter.Sound p) ?_
        (fun _ h => absurd h List.not_mem_nil) hmeta
      intro ps k v ps' hps h
      split at h
      · exact decodeParameters_sound hps h
      · cases h
        exact hps
    exact forall_mem_flatten_mapM (fun _ _ => methodOp_sound hshared) httpMethods h
  · cases h

theorem documentOps_sound {root : Root} {ops : List FoundOp} (h : documentOps root = .ok ops) :
    ∀ f ∈ ops, f.Sound :=
  forall_mem_flatten_mapM (fun _ _ => pathOps_sound) (sortedPaths root) h

/-- The properties and the required names stand for the arguments. -/
structure Properties (argument : Str → Option Json) (requires : Str → Prop)
    (r : List (Str × Json) × List Str) : Prop where
  argument : ∀ k, lookup k r.1 = argument k
  decoded : Entries Json.Decoded r.1
  requires : ∀ k, k ∈ r.2 ↔ requires k

theorem mem_replaceLast {p : Parameter} {qs qs' : List Parameter} (h : replaceLast p qs = some qs')
    {x : Parameter} (hx : x ∈ qs') : x = p ∨ x ∈ qs := by
  induction qs generalizing qs' with
  | nil => cases h
  | cons q qs ih =>
    unfold replaceLast at h
    split at h
    · rename_i rest hrest
      cases h
      rcases List.mem_cons.mp hx with rfl | hx
      · exact .inr List.mem_cons_self
      · exact (ih hrest hx).imp_right (List.mem_cons_of_mem q)
    · split at h
      · cases h
        rcases List.mem_cons.mp hx with rfl | hx
        · exact .inl rfl
        · exact .inr (List.mem_cons_of_mem q hx)
      · cases h

theorem mem_mergeParameters {base override : List Parameter} {x : Parameter}
    (hx : x ∈ mergeParameters base override) : x ∈ base ∨ x ∈ override := by
  unfold mergeParameters at hx
  induction override generalizing base with
  | nil => exact .inl hx
  | cons p override ih =>
    rw [List.foldl_cons] at hx
    rcases ih hx with hmerged | hx
    · have hcases : x = p ∨ x ∈ base := by
        cases hr : replaceLast p base with
        | some qs =>
          rw [hr] at hmerged
          exact mem_replaceLast hr hmerged
        | none =>
          rw [hr] at hmerged
          exact (List.mem_append.mp hmerged).symm.imp_left List.mem_singleton.mp
      rcases hcases with rfl | hbase
      · exact .inr List.mem_cons_self
      · exact .inl hbase
    · exact .inr (List.mem_cons_of_mem p hx)

theorem FoundOp.Sound.parameters {f : FoundOp} (h : f.Sound) : ∀ p ∈ f.parameters, p.Sound := by
  intro p hp
  rcases mem_mergeParameters hp with hp | hp
  · exact h.shared p hp
  · exact h.op.parameters p hp

/-- A member of a schema that is left out when it says nothing. -/
def optionalText (k s : Str) : List (Str × Json) := if s = [] then [] else [(k, .str s)]

def optionalMember (k : Str) (o : Option Json) : List (Str × Json) :=
  match o with
  | some v => [(k, v)]
  | none => []

/-- At most one member, under the name, with a decoded value. -/
structure AtMost (k : Str) (ms : List (Str × Json)) : Prop where
  names : (ms.map Prod.fst).Sublist [k]
  decoded : ∀ m ∈ ms, m.2.Decoded

theorem AtMost.none (k : Str) : AtMost k [] := ⟨List.nil_sublist _, fun _ h => absurd h List.not_mem_nil⟩

theorem AtMost.one (k : Str) {v : Json} (h : v.Decoded) : AtMost k [(k, v)] := by
  refine ⟨List.Sublist.refl _, ?_⟩
  intro m hm
  obtain rfl := List.mem_singleton.mp hm
  exact h

theorem atMost_optionalText (k s : Str) : AtMost k (optionalText k s) := by
  unfold optionalText
  split
  · exact .none k
  · exact .one k trivial

theorem atMost_optionalMember (k : Str) {o : Option Json} (h : ∀ v, o = some v → v.Decoded) :
    AtMost k (optionalMember k o) := by
  cases o with
  | none => exact .none k
  | some v => exact .one k (h v rfl)

theorem parameterToJSONSchema_eq (p : Parameter) : ∃ t, parameterToJSONSchema p =
    .obj ([("type".toList, .str t)] ++ optionalText "description".toList p.description ++
      optionalText "format".toList (stringMember "format" p.schema) ++
      optionalMember "enum".toList (lookup "enum".toList p.schema)) :=
  ⟨_, rfl⟩

theorem decoded_parameterToJSONSchema {p : Parameter} (h : p.Sound) : (parameterToJSONSchema p).Decoded := by
  obtain ⟨t, hschema⟩ := parameterToJSONSchema_eq p
  have hdescription := atMost_optionalText "description".toList p.description
  have hformat := atMost_optionalText "format".toList (stringMember "format" p.schema)
  have henum : AtMost "enum".toList (optionalMember "enum".toList (lookup "enum".toList p.schema)) :=
    atMost_optionalMember _ fun _ => h.of_lookup
  rw [hschema]
  refine ⟨?_, Json.decodedMembers_iff.mpr ?_⟩
  · have hsub := (((List.Sublist.refl ["type".toList]).append hdescription.names).append
      hformat.names).append henum.names
    simp only [List.map_append]
    exact hsub.nodup (by decide)
  · intro m hm
    rcases List.mem_append.mp hm with hm | hm
    · rcases List.mem_append.mp hm with hm | hm
      · rcases List.mem_append.mp hm with hm | hm
        · obtain rfl := List.mem_singleton.mp hm
          trivial
        · exact hdescription.decoded m hm
      · exact hformat.decoded m hm
    · exact henum.decoded m hm

theorem named_concat (k : Str) (ps : List Parameter) (p : Parameter) :
    named k (ps ++ [p]) = if p.name = k ∧ p.name ≠ [] then some p else named k ps := by
  unfold named
  rw [List.filter_append]
  by_cases h : p.name = k ∧ p.name ≠ []
  · rw [if_pos h]
    simp [h.1, h.1 ▸ h.2]
  · rw [if_neg h]
    have hskip : (decide (p.name = k) && decide (p.name ≠ [])) = false := by
      rw [← Bool.decide_and]
      exact decide_eq_false h
    rw [List.filter_cons, hskip]
    simp

theorem paramProperties_concat (ps : List Parameter) (p : Parameter) :
    paramProperties (ps ++ [p]) =
      if p.name = [] then paramProperties ps
      else (setMember p.name (parameterToJSONSchema p) (paramProperties ps).1,
        if p.required || p.in = "path".toList then (paramProperties ps).2 ++ [p.name]
        else (paramProperties ps).2) := by
  unfold paramProperties
  rw [List.foldl_append]
  rfl

def paramRequires (ps : List Parameter) (k : Str) : Prop :=
  ∃ p ∈ ps, p.name = k ∧ k ≠ [] ∧ (p.required = true ∨ p.in = "path".toList)

theorem paramRequires_concat (ps : List Parameter) (p : Parameter) (k : Str) :
    paramRequires (ps ++ [p]) k ↔
      paramRequires ps k ∨ p.name = k ∧ k ≠ [] ∧ (p.required = true ∨ p.in = "path".toList) := by
  unfold paramRequires
  simp only [List.mem_append, List.mem_singleton, or_and_right, exists_or, exists_eq_left]

theorem paramProperties_spec (ps : List Parameter) (h : ∀ p ∈ ps, p.Sound) :
    Properties (fun k => (named k ps).map parameterToJSONSchema) (paramRequires ps)
      (paramProperties ps) := by
  induction ps using List.reverseRecOn with
  | nil =>
    refine ⟨fun _ => rfl, Decode.entries_nil, ?_⟩
    intro k
    exact ⟨fun hk => absurd hk List.not_mem_nil, fun ⟨_, hp, _⟩ => absurd hp List.not_mem_nil⟩
  | append_singleton ps p ih =>
    have hps := ih fun q hq => h q (List.mem_append_left _ hq)
    have hp := h p (List.mem_append_right _ (List.mem_singleton_self p))
    rw [paramProperties_concat]
    by_cases hname : p.name = []
    · rw [if_pos hname]
      refine ⟨?_, hps.decoded, ?_⟩
      · intro k
        rw [hps.argument, named_concat, if_neg fun hk => hk.2 hname]
      · intro k
        rw [hps.requires, paramRequires_concat, or_iff_left]
        rintro ⟨rfl, hk, _⟩
        exact hk hname
    · rw [if_neg hname]
      refine ⟨?_, hps.decoded.set p.name (decoded_parameterToJSONSchema hp), ?_⟩
      · intro k
        dsimp only
        rw [named_concat]
        by_cases hk : p.name = k
        · subst hk
          rw [lookup_setMember_self, if_pos ⟨rfl, hname⟩]
          rfl
        · rw [lookup_setMember_of_ne (Ne.symm hk), if_neg fun h => hk h.1]
          exact hps.argument k
      · intro k
        dsimp only
        rw [paramRequires_concat, ← hps.requires]
        by_cases hreq : p.required = true ∨ p.in = "path".toList
        · have hcond : (p.required || decide (p.in = "path".toList)) = true := by simpa using hreq
          rw [if_pos hcond, List.mem_append, List.mem_singleton]
          refine or_congr_right ⟨?_, fun hk => hk.1.symm⟩
          rintro rfl
          exact ⟨rfl, hname, hreq⟩
        · have hcond : ¬ (p.required || decide (p.in = "path".toList)) = true := by simpa using hreq
          rw [if_neg hcond]
          exact (or_iff_left fun hk => hreq hk.2.2).symm

theorem bodySchema_sound {rb : RequestBody} (h : rb.Sound) {body : List (Str × Json)}
    (hb : rb.bodySchema = some body) : Entries Json.Decoded body := by
  obtain ⟨hm, _⟩ := Option.filter_eq_some_iff.mp hb
  obtain ⟨mt, hmt, rfl⟩ := Option.map_eq_some_iff.mp hm
  exact h.of_lookup hmt

/-- The properties with the members of a flat body. -/
def flatProperties (body props : List (Str × Json)) : List (Str × Json) :=
  match lookup "properties".toList body with
  | some (.obj ms) => ms.foldl (fun acc m => setMember m.1 m.2 acc) props
  | _ => props

def flatRequired (body : List (Str × Json)) (req : List Str) : List Str :=
  match lookup "required".toList body with
  | some (.arr rs) => req ++ rs.filterMap fun r => match r with | .str s => some s | _ => none
  | _ => req

section BodyProperties

variable {rb : RequestBody} {body props : List (Str × Json)} {req : List Str}

theorem bodyProperties_none (h : rb.bodySchema = none) : bodyProperties rb props req = (props, req) := by
  unfold RequestBody.bodySchema at h
  unfold bodyProperties
  cases hl : lookup "application/json".toList rb.content with
  | none => rfl
  | some mt =>
    rw [hl] at h
    have hempty : mt.schema = [] := by simpa [Option.filter] using h
    dsimp only
    rw [if_pos hempty]

theorem bodyProperties_some (h : rb.bodySchema = some body) :
    bodyProperties rb props req =
      if isFlat body then (flatProperties body props, flatRequired body req)
      else (setMember "body".toList (.obj body) props,
        if rb.required then req ++ ["body".toList] else req) := by
  obtain ⟨hm, hne⟩ := Option.filter_eq_some_iff.mp h
  obtain ⟨mt, hmt, rfl⟩ := Option.map_eq_some_iff.mp hm
  unfold bodyProperties
  rw [hmt]
  dsimp only
  rw [if_neg (by simpa using hne)]
  rfl

theorem lookup_flatProperties (hflat : isFlat body = true) (k : Str) :
    lookup k (flatProperties body props) = (bodyArgument body k).or (lookup k props) := by
  rw [bodyArgument, if_pos hflat]
  unfold flatProperties
  cases hp : lookup "properties".toList body with
  | none => rfl
  | some v =>
    cases v with
    | obj ps => exact lookup_foldl_setMember props k
    | null | bool _ | num _ | str _ | arr _ => rfl

theorem decoded_flatProperties (hbody : Entries Json.Decoded body) (h : Entries Json.Decoded props) :
    Entries Json.Decoded (flatProperties body props) := by
  unfold flatProperties
  cases hp : lookup "properties".toList body with
  | none => exact h
  | some v =>
    have hv : v.Decoded := hbody.of_lookup hp
    cases v with
    | obj ps => exact h.foldl (Json.decodedMembers_iff.mp hv.2)
    | null | bool _ | num _ | str _ | arr _ => exact h

theorem mem_flatRequired (hflat : isFlat body = true) (k : Str) :
    k ∈ flatRequired body req ↔ k ∈ req ∨ bodyRequires rb.required body k := by
  rw [bodyRequires, if_pos hflat]
  unfold flatRequired
  cases hr : lookup "required".toList body with
  | none => exact (or_iff_left fun ⟨_, hrs, _⟩ => nomatch hrs).symm
  | some v =>
    cases v with
    | arr rs =>
      rw [List.mem_append, List.mem_filterMap]
      refine or_congr_right ?_
      constructor
      · rintro ⟨r, hr, hk⟩
        cases r with
        | str s =>
          cases hk
          exact ⟨rs, rfl, hr⟩
        | null | bool _ | num _ | arr _ | obj _ => cases hk
      · rintro ⟨rs', hrs, hk⟩
        cases hrs
        exact ⟨.str k, hk, rfl⟩
    | null | bool _ | num _ | str _ | obj _ =>
      exact (or_iff_left fun ⟨_, hrs, _⟩ => nomatch hrs).symm

/-- The arguments of a body come over those that there were. -/
theorem bodyProperties_spec (hrb : rb.Sound) {argument : Str → Option Json} {requires : Str → Prop}
    (h : Properties argument requires (props, req)) :
    Properties (fun k => (rb.bodySchema.bind fun body => bodyArgument body k).or (argument k))
      (fun k => requires k ∨ ∃ body, rb.bodySchema = some body ∧ bodyRequires rb.required body k)
      (bodyProperties rb props req) := by
  cases hb : rb.bodySchema with
  | none =>
    rw [bodyProperties_none hb]
    refine ⟨h.argument, h.decoded, ?_⟩
    intro k
    rw [h.requires, or_iff_left]
    rintro ⟨_, hbody, _⟩
    cases hbody
  | some body =>
    have hbody := bodySchema_sound hrb hb
    have hreq (k : Str) : (∃ b, some body = some b ∧ bodyRequires rb.required b k) ↔
        bodyRequires rb.required body k := by simp
    rw [bodyProperties_some hb]
    by_cases hflat : isFlat body = true
    · rw [if_pos hflat]
      refine ⟨?_, decoded_flatProperties hbody h.decoded, ?_⟩
      · intro k
        rw [Option.bind_some, lookup_flatProperties hflat, ← h.argument]
      · intro k
        rw [hreq, ← h.requires, mem_flatRequired hflat]
    · rw [if_neg hflat]
      refine ⟨?_, h.decoded.set _ ⟨hbody.1, Json.decodedMembers_iff.mpr hbody.2⟩, ?_⟩
      · intro k
        dsimp only
        rw [Option.bind_some, bodyArgument, if_neg hflat]
        by_cases hk : k = "body".toList
        · subst hk
          rw [lookup_setMember_self, if_pos rfl]
          rfl
        · rw [lookup_setMember_of_ne hk, if_neg hk]
          exact h.argument k
      · intro k
        dsimp only
        rw [hreq, ← h.requires, bodyRequires, if_neg hflat]
        by_cases hr : rb.required = true
        · rw [if_pos hr, List.mem_append, List.mem_singleton, and_iff_left hr]
        · rw [if_neg hr]
          exact (or_iff_left fun hk => hr hk.2).symm

end BodyProperties

/-- The members of a schema with these properties and required names. -/
def schemaMembers (r : List (Str × Json) × List Str) : List (Str × Json) :=
  [("type".toList, .str "object".toList), ("properties".toList, .obj r.1)] ++
    if r.2 = [] then [] else [("required".toList, .arr ((dedupeSorted r.2).map .str))]

theorem exists_properties {f : FoundOp} (hf : f.Sound) :
    ∃ r, Properties f.argument f.Requires r ∧
      buildParametersSchema f.parameters f.op.requestBody = (Json.obj (schemaMembers r)).marshal := by
  have hparams := paramProperties_spec f.parameters hf.parameters
  unfold FoundOp.argument FoundOp.Requires FoundOp.bodySchema
  cases hrb : f.op.requestBody with
  | none =>
    refine ⟨paramProperties f.parameters, ⟨hparams.argument, hparams.decoded, ?_⟩, rfl⟩
    intro k
    rw [hparams.requires]
    exact (or_iff_left fun ⟨_, _, hnone, _⟩ => nomatch hnone).symm
  | some rb =>
    have hbody := bodyProperties_spec (hf.op.body rb hrb) hparams
    refine ⟨_, ⟨hbody.argument, hbody.decoded, ?_⟩, rfl⟩
    intro k
    rw [hbody.requires]
    refine or_congr_right ⟨fun ⟨body, hb⟩ => ⟨rb, body, rfl, hb⟩, ?_⟩
    rintro ⟨_, body, hsame, hb⟩
    cases hsame
    exact ⟨body, hb⟩

theorem sortedItems_str (ss : List Str) : Json.sortedItems (ss.map .str) = ss.map .str := by
  induction ss with
  | nil => rfl
  | cons s ss ih =>
    rw [List.map_cons, Json.sortedItems, ih]
    rfl

theorem mem_dedupeSorted {s : Str} {ss : List Str} : s ∈ dedupeSorted ss ↔ s ∈ ss := by
  unfold dedupeSorted
  rw [(Text.perm_sortStrings _).mem_iff, List.mem_dedup]

theorem nodup_dedupeSorted (ss : List Str) : (dedupeSorted ss).Nodup :=
  (Text.perm_sortStrings _).nodup_iff.mpr (List.nodup_dedup ss)

theorem dedupeSorted_eq_nil {ss : List Str} : dedupeSorted ss = [] ↔ ss = [] := by
  simp only [List.eq_nil_iff_forall_not_mem, mem_dedupeSorted]

section SchemaMembers

variable {r : List (Str × Json) × List Str}

theorem nodup_schemaMembers (r : List (Str × Json) × List Str) :
    ((schemaMembers r).map Prod.fst).Nodup := by
  unfold schemaMembers
  split
  · exact (by decide : ["type".toList, "properties".toList].Nodup)
  · exact (by decide : ["type".toList, "properties".toList, "required".toList].Nodup)

theorem decoded_schemaMembers (h : Entries Json.Decoded r.1) : (Json.obj (schemaMembers r)).Decoded := by
  have hprops : (Json.obj r.1).Decoded := ⟨h.1, Json.decodedMembers_iff.mpr h.2⟩
  refine ⟨nodup_schemaMembers r, Json.decodedMembers_iff.mpr ?_⟩
  intro m hm
  unfold schemaMembers at hm
  rcases List.mem_append.mp hm with hm | hm
  · rcases List.mem_cons.mp hm with rfl | hm
    · trivial
    · obtain rfl := List.mem_singleton.mp hm
      exact hprops
  · split at hm
    · cases hm
    · obtain rfl := List.mem_singleton.mp hm
      refine Json.decodedItems_iff.mpr ?_
      intro x hx
      obtain ⟨s, _, rfl⟩ := List.mem_map.mp hx
      trivial

theorem schemaMap_schemaMembers (h : Entries Json.Decoded r.1) :
    Server.schemaMap (Json.obj (schemaMembers r)).marshal =
      .obj (sortMembers (Json.sortedMembers (schemaMembers r))) := by
  have hne : (Json.obj (schemaMembers r)).marshal ≠ [] := fun h => nomatch h
  have hsorted : (Json.obj (schemaMembers r)).sorted =
    .obj (sortMembers (Json.sortedMembers (schemaMembers r))) := rfl
  rw [Server.schemaMap, if_neg hne, Json.parse_marshal (decoded_schemaMembers h), hsorted]

theorem lookup_schemaMembers {k : Str} {v : Json} (h : (k, v) ∈ schemaMembers r) :
    lookup k (sortMembers (Json.sortedMembers (schemaMembers r))) = some v.sorted := by
  rw [Json.lookup_sorted (nodup_schemaMembers r), (lookup_eq_some_iff (nodup_schemaMembers r)).mpr h,
    Option.map_some]

theorem lookup_required (r : List (Str × Json) × List Str) :
    lookup "required".toList (sortMembers (Json.sortedMembers (schemaMembers r))) =
      if dedupeSorted r.2 = [] then none else some (.arr ((dedupeSorted r.2).map .str)) := by
  by_cases hreq : r.2 = []
  · have hfresh : "required".toList ∉ (schemaMembers r).map Prod.fst := by
      unfold schemaMembers
      rw [if_pos hreq]
      exact (by decide : "required".toList ∉ ["type".toList, "properties".toList])
    rw [Json.lookup_sorted (nodup_schemaMembers r), lookup_of_fresh hfresh,
      if_pos (dedupeSorted_eq_nil.mpr hreq)]
    rfl
  · have hrequired : ("required".toList, .arr ((dedupeSorted r.2).map .str)) ∈ schemaMembers r := by
      unfold schemaMembers
      rw [if_neg hreq]
      exact List.mem_append_right _ (List.mem_singleton_self _)
    rw [lookup_schemaMembers hrequired, if_neg (mt dedupeSorted_eq_nil.mp hreq), Json.sorted,
      sortedItems_str]

end SchemaMembers

/-- The schema of a stored tool says what the operation takes. -/
theorem describes_built {f : FoundOp} (hf : f.Sound) :
    Describes f (Server.schemaMap (buildParametersSchema f.parameters f.op.requestBody)) := by
  obtain ⟨r, hr, htext⟩ := exists_properties hf
  rw [htext]
  have htype : ("type".toList, .str "object".toList) ∈ schemaMembers r :=
    List.mem_append_left _ List.mem_cons_self
  have hproperties : ("properties".toList, .obj r.1) ∈ schemaMembers r :=
    List.mem_append_left _ (List.mem_cons_of_mem _ List.mem_cons_self)
  refine ⟨_, sortMembers (Json.sortedMembers r.1), dedupeSorted r.2, schemaMap_schemaMembers hr.decoded,
    ⟨lookup_schemaMembers htype, lookup_schemaMembers hproperties, lookup_required r, ?_,
      nodup_dedupeSorted r.2, ?_⟩⟩
  · intro k
    rw [Json.lookup_sorted hr.decoded.1]
    exact congrArg _ (hr.argument k)
  · intro k
    rw [mem_dedupeSorted]
    exact hr.requires k

end Janus.OpenApi

namespace Janus.Portal

open Storage OpenApi Server

/-- The identifier of the connection is new also to the endpoints. -/
structure NewIDs (env : ImportEnv) (n : Nat) (db : DB) : Prop extends FreshIDs env n db where
  unreferenced : ∀ e ∈ db.endpoints, e.connectionID ≠ env.connectionID

theorem persist_created {env : ImportEnv} {parsed : ParsedConnection} {db db' : DB} {id name : Str}
    {names : List Str} (hfresh : FreshIDs env parsed.endpoints.length db)
    (h : persist env parsed db = (.created id name names, db')) :
    Imported env parsed db db' ∧ names = parsed.endpoints.map ParsedEndpoint.toolName ∧ names.Nodup := by
  have hsave := @saveConnection_fresh env parsed db hfresh.connection
  rcases hsave with ⟨_, e, he⟩ | ⟨_, db₁, hs, hep, hrows⟩
  · rw [persist, he] at h
    cases h
  · have hmem : importedConnection env parsed ∈ db₁.connections := by
      rw [Table.mem_def, hrows]
      exact List.mem_append_right _ (List.mem_singleton_self _)
    have hconn : (db₁.connections.find env.connectionID).isSome = true :=
      Option.isSome_of_eq_some (Table.find_eq_some.mpr ⟨hmem, rfl⟩)
    obtain ⟨ok, db₂, hrun, hc, hiff, hres⟩ := @saveEndpoints_spec env _ hfresh.distinct
      parsed.endpoints 0 db₁ (by omega) (fun j _ => by rw [hep]; exact hfresh.endpoint j) hconn
    rw [persist, hs] at h
    dsimp only at h
    rw [hrun] at h
    cases ok with
    | false => cases h
    | true =>
      cases h
      refine ⟨⟨by rw [hc, hrows], ?_⟩, rfl, (hiff.mp rfl).distinct⟩
      rw [hres rfl, hep]

/-- What was read and written when an import answers that it has created its tools. -/
theorem import_created {yaml : Str → Option Yaml} {env : ImportEnv} {req : ImportRequest} {db db' : DB}
    {id name : Str} {names : List Str}
    (hfresh : ∀ parsed, readImport yaml req = .ok parsed → NewIDs env parsed.endpoints.length db)
    (h : handleOpenAPIImport yaml env req db = (.created id name names, db')) :
    ∃ parsed, readImport yaml req = .ok parsed ∧ NewIDs env parsed.endpoints.length db ∧
      Imported env parsed db db' ∧ names = parsed.endpoints.map ParsedEndpoint.toolName ∧ names.Nodup := by
  unfold handleOpenAPIImport at h
  cases hr : readImport yaml req with
  | error resp =>
    rw [hr] at h
    cases h
    unfold readImport at hr
    grind
  | ok parsed =>
    rw [hr] at h
    dsimp only at h
    split at h
    · cases h
    · exact ⟨parsed, rfl, hfresh parsed hr, persist_created (hfresh parsed hr).toFreshIDs h⟩

theorem readImport_ok {yaml : Str → Option Yaml} {req : ImportRequest} {parsed : ParsedConnection}
    (h : readImport yaml req = .ok parsed) :
    ∃ body, req.body = some body ∧
      parse yaml (Text.takeBytes (10 * 2 ^ 20) body) ⟨req.toolPrefix⟩ = .ok parsed := by
  unfold readImport at h
  split at h
  · cases h
  · split at h
    · cases h
    · rename_i body hbody
      dsimp only at h
      split at h
      · cases h
      · split at h
        · cases h
        · rename_i parsed' hparse
          split at h
          · cases h
          · cases h
            exact ⟨body, hbody, hparse⟩

/-- Every endpoint is an operation under its name. -/
def Named (f : FoundOp) (pe : ParsedEndpoint) : Prop := pe = f.endpoint pe.toolName

theorem named_foldl_addOp (opts : Options) (ops : List FoundOp) (st : Naming) :
    ∃ pes, (ops.foldl (addOp opts) st).endpoints = st.endpoints ++ pes ∧ List.Forall₂ Named ops pes := by
  induction ops generalizing st with
  | nil => exact ⟨[], (List.append_nil _).symm, .nil⟩
  | cons f ops ih =>
    obtain ⟨pes, hpes, hnamed⟩ := ih (addOp opts st f)
    rw [List.foldl_cons, hpes]
    unfold addOp
    exact ⟨_ :: pes, List.append_assoc _ _ _, .cons rfl hnamed⟩

theorem parse_named {yaml : Str → Option Yaml} {spec : Str} {opts : Options} {parsed : ParsedConnection}
    (h : parse yaml spec opts = .ok parsed) :
    ∃ root ops, decodeDocument yaml spec = .ok root ∧ documentOps root = .ok ops ∧
      parsed.baseURL = root.servers.headD [] ∧ parsed.authType = inferAuthType root.securitySchemes ∧
      List.Forall₂ Named ops parsed.endpoints := by
  obtain ⟨root, ops, hroot, hops, hendpoints⟩ := parse_ok h
  obtain ⟨pes, hpes, hnamed⟩ := named_foldl_addOp opts ops ⟨fun _ => 0, []⟩
  refine ⟨root, ops, hroot, hops, ?_, ?_, ?_⟩
  · unfold parse at h
    rw [hroot] at h
    dsimp only at h
    split at h
    · cases h
    · cases h
      rfl
  · unfold parse at h
    rw [hroot] at h
    dsimp only at h
    split at h
    · cases h
    · cases h
      rfl
  · rw [hendpoints, hpes]
    exact hnamed

section Listing

variable {conns : List APIConnection} {conn : APIConnection} {ep : APIEndpoint}

theorem lookup_append {α : Type} (k : Str) (ms ns : List (Str × α)) :
    lookup k (ms ++ ns) = (lookup k ns).or (lookup k ms) := by
  induction ms with
  | nil => exact (Option.or_none).symm
  | cons m ms ih =>
    rw [List.cons_append, lookup, ih, Option.or_assoc]
    rfl

theorem enabledConn_of_ne (h : ep.connectionID ≠ conn.id) :
    enabledConn (conns ++ [conn]) ep = enabledConn conns ep := by
  unfold enabledConn connMap
  rw [List.map_append, lookup_append]
  have hnone : lookup ep.connectionID ([conn].map fun c => (c.id, c)) = none :=
    lookup_of_fresh fun hmem => h (List.mem_singleton.mp hmem)
  rw [hnone, Option.none_or]

theorem enabledConn_of_last (h : ep.connectionID = conn.id) (henabled : conn.enabled = true) :
    enabledConn (conns ++ [conn]) ep = some conn := by
  unfold enabledConn connMap
  rw [List.map_append, lookup_append, h]
  have hsome : lookup conn.id ([conn].map fun c => (c.id, c)) = some conn := by simp [lookup]
  rw [hsome, Option.some_or, Option.filter_some, if_pos henabled]

/-- The tool of an operation under a name. -/
structure ToolOf (f : FoundOp) (name : Str) (t : Tool) : Prop where
  name : t.name = name
  description : t.description = firstNonEmpty f.op.summary f.op.description
  schema : Describes f t.inputSchema

/-- The row of an operation under a name, and its connection. -/
structure RowOf (env : ImportEnv) (f : FoundOp) (name : Str) (ep : APIEndpoint) : Prop where
  connection : ep.connectionID = env.connectionID
  toolName : ep.toolName = name
  toolDescription : ep.toolDescription = firstNonEmpty f.op.summary f.op.description
  path : ep.path = f.path
  method : ep.method = f.method.map upperChar
  schema : ep.parametersSchema = buildParametersSchema f.parameters f.op.requestBody
  template : ep.template = []

variable {env : ImportEnv} {ops : List FoundOp} {pes : List ParsedEndpoint}

theorem rowOf_endpointRows (h : List.Forall₂ Named ops pes) (i : Nat) :
    List.Forall₂ (fun p ep => RowOf env p.1 p.2 ep) (ops.zip (pes.map ParsedEndpoint.toolName))
      (endpointRows env i pes) := by
  induction h generalizing i with
  | nil => exact .nil
  | @cons f pe ops pes hf _ ih =>
    rw [endpointRows_cons, List.map_cons, List.zip_cons_cons]
    refine .cons ?_ (ih (i + 1))
    rw [hf]
    exact ⟨rfl, rfl, rfl, rfl, rfl, rfl, rfl⟩

theorem resolvedName_imported {parsed : ParsedConnection} :
    resolvedName (importedConnection env parsed) ep = ep.toolName := rfl

theorem listed_rows {parsed : ParsedConnection} {ps : List (FoundOp × Str)} {eps : List APIEndpoint}
    (hrows : List.Forall₂ (fun p ep => RowOf env p.1 p.2 ep) ps eps) (hsound : ∀ p ∈ ps, p.1.Sound)
    (scopes : List Str) :
    List.Forall₂ (fun p t => ToolOf p.1 p.2 t) (ps.filter fun p => matchScope p.2 scopes)
      ((endpointEntries eps (conns ++ [importedConnection env parsed]) scopes).map Entry.tool) := by
  induction hrows with
  | nil => exact .nil
  | @cons p ep ps eps hrow _ ih =>
    obtain ⟨hp, hps⟩ := List.forall_mem_cons.mp hsound
    have hrest := ih hps
    have hconn : enabledConn (conns ++ [importedConnection env parsed]) ep =
        some (importedConnection env parsed) := enabledConn_of_last hrow.connection rfl
    unfold endpointEntries at hrest ⊢
    rw [List.filterMap_cons, hconn]
    dsimp only
    rw [resolvedName_imported, hrow.toolName]
    by_cases hscope : matchScope p.2 scopes = true
    · rw [if_pos hscope, List.filter_cons, if_pos hscope]
      refine .cons ⟨hrow.toolName, hrow.toolDescription, ?_⟩ hrest
      unfold endpointTool
      dsimp only
      rw [hrow.schema]
      exact describes_built hp
    · rw [if_neg hscope, List.filter_cons, if_neg hscope]
      exact hrest

theorem findIn_rows {parsed : ParsedConnection} {ps : List (FoundOp × Str)} {eps : List APIEndpoint}
    (hrows : List.Forall₂ (fun p ep => RowOf env p.1 p.2 ep) ps eps) (hnodup : (ps.map Prod.snd).Nodup)
    {p : FoundOp × Str} (hp : p ∈ ps) :
    ∃ ep, findIn (conns ++ [importedConnection env parsed]) p.2 eps =
      some (ep, importedConnection env parsed) ∧ RowOf env p.1 p.2 ep := by
  induction hrows with
  | nil => cases hp
  | @cons q ep ps eps hrow _ ih =>
    rw [List.map_cons, List.nodup_cons] at hnodup
    have hconn : enabledConn (conns ++ [importedConnection env parsed]) ep =
        some (importedConnection env parsed) := enabledConn_of_last hrow.connection rfl
    unfold findIn
    rw [hconn]
    dsimp only
    rw [resolvedName_imported, hrow.toolName]
    rcases List.mem_cons.mp hp with rfl | hp
    · rw [if_pos rfl]
      exact ⟨ep, rfl, hrow⟩
    · have hne : q.2 ≠ p.2 := fun he => hnodup.1 (he ▸ List.mem_map_of_mem hp)
      rw [if_neg hne]
      exact ih hnodup.2 hp

end Listing

/-- What an import has added, operation by operation. -/
structure Added (env : ImportEnv) (root : Root) (ops : List FoundOp) (names : List Str) (db db' : DB) :
    Prop where
  sound : ∀ f ∈ ops, f.Sound
  length : ops.length = names.length
  nodup : names.Nodup
  unreferenced : ∀ e ∈ db.endpoints, e.connectionID ≠ env.connectionID
  connections : ∃ parsed, parsed.baseURL = root.servers.headD [] ∧
    parsed.authType = inferAuthType root.securitySchemes ∧
    db'.getConnections = db.getConnections ++ [importedConnection env parsed]
  endpoints : ∃ rows, db'.getAllEndpoints = db.getAllEndpoints ++ rows ∧
    List.Forall₂ (fun p ep => RowOf env p.1 p.2 ep) (ops.zip names) rows

theorem exists_added {yaml : Str → Option Yaml} {env : ImportEnv} {req : ImportRequest} {db db' : DB}
    {id name : Str} {names : List Str}
    (hfresh : ∀ parsed, readImport yaml req = .ok parsed → NewIDs env parsed.endpoints.length db)
    (h : handleOpenAPIImport yaml env req db = (.created id name names, db')) :
    ∃ body root ops, req.body = some body ∧
      decodeDocument yaml (Text.takeBytes (10 * 2 ^ 20) body) = .ok root ∧ documentOps root = .ok ops ∧
      Added env root ops names db db' := by
  obtain ⟨parsed, hread, hnew, himported, rfl, hnodup⟩ := import_created hfresh h
  obtain ⟨body, hbody, hparse⟩ := readImport_ok hread
  obtain ⟨root, ops, hroot, hops, hbase, hauth, hnamed⟩ := parse_named hparse
  refine ⟨body, root, ops, hbody, hroot, hops, documentOps_sound hops, ?_, hnodup, hnew.unreferenced,
    ⟨parsed, hbase, hauth, himported.1⟩, ⟨_, himported.2, rowOf_endpointRows hnamed 0⟩⟩
  rw [List.length_map]
  exact hnamed.length_eq

/-- After an import that has created its tools the listing shows, for every role and scopes, what
it showed before and one tool for each operation of the document whose name is in scope. -/
theorem import_listed (yaml : Str → Option Yaml) (env : ImportEnv) (req : ImportRequest) (db db' : DB)
    {id name : Str} {names : List Str}
    (hfresh : ∀ parsed, readImport yaml req = .ok parsed → NewIDs env parsed.endpoints.length db)
    (h : handleOpenAPIImport yaml env req db = (.created id name names, db')) :
    ∃ body root ops, req.body = some body ∧
      decodeDocument yaml (Text.takeBytes (10 * 2 ^ 20) body) = .ok root ∧ documentOps root = .ok ops ∧
      ops.length = names.length ∧
      ∀ role scopes, ∃ before tools admin, listTools noFaults role scopes db = .ok (before ++ admin) ∧
        listTools noFaults role scopes db' = .ok (before ++ tools ++ admin) ∧
        List.Forall₂ (fun p t => ToolOf p.1 p.2 t)
          ((ops.zip names).filter fun p => matchScope p.2 scopes) tools := by
  obtain ⟨body, root, ops, hbody, hroot, hops, hadded⟩ := exists_added hfresh h
  obtain ⟨parsed, _, _, hconns⟩ := hadded.connections
  obtain ⟨rows, hrows, hrowOf⟩ := hadded.endpoints
  refine ⟨body, root, ops, hbody, hroot, hops, hadded.length, ?_⟩
  intro role scopes
  have hold : endpointEntries db.getAllEndpoints db'.getConnections scopes =
      endpointEntries db.getAllEndpoints db.getConnections scopes := by
    unfold endpointEntries
    refine List.filterMap_congr ?_
    intro ep hep
    rw [hconns, enabledConn_of_ne (hadded.unreferenced ep hep)]
  have hsound : ∀ p ∈ ops.zip names, p.1.Sound := fun p hp => hadded.sound p.1 (List.of_mem_zip hp).1
  refine ⟨(endpointEntries db.getAllEndpoints db.getConnections scopes).map Entry.tool,
    (endpointEntries rows db'.getConnections scopes).map Entry.tool,
    (adminEntries role scopes).map Entry.tool, ?_, ?_, ?_⟩
  · exact congrArg Except.ok (List.map_append ..)
  · have hsplit : endpointEntries (db.getAllEndpoints ++ rows) db'.getConnections scopes =
        endpointEntries db.getAllEndpoints db.getConnections scopes ++
          endpointEntries rows db'.getConnections scopes := by
      rw [← hold]
      exact List.filterMap_append
    unfold listTools listEntries noFaults
    dsimp only
    rw [hrows, hsplit, Except.map, List.map_append, List.map_append]
  · rw [hconns]
    exact listed_rows hrowOf hsound scopes

/-- A call of a tool that an import has created reaches the operation, unless the name is
reserved or another tool had it before. -/
theorem import_called (yaml : Str → Option Yaml) (env : ImportEnv) (req : ImportRequest) (db db' : DB)
    {id name : Str} {names : List Str}
    (hfresh : ∀ parsed, readImport yaml req = .ok parsed → NewIDs env parsed.endpoints.length db)
    (h : handleOpenAPIImport yaml env req db = (.created id name names, db')) :
    ∃ body root ops, req.body = some body ∧
      decodeDocument yaml (Text.takeBytes (10 * 2 ^ 20) body) = .ok root ∧ documentOps root = .ok ops ∧
      ∀ p ∈ ops.zip names, Text.hasPrefix p.2 adminPrefix = false →
        findIn db.getConnections p.2 db.getAllEndpoints = none →
        ∃ ep conn, dispatch noFaults p.2 db' = .ok (.endpoint ep conn) ∧ RowOf env p.1 p.2 ep ∧
          conn.baseURL = root.servers.headD [] ∧
          conn.authType = inferAuthType root.securitySchemes := by
  obtain ⟨body, root, ops, hbody, hroot, hops, hadded⟩ := exists_added hfresh h
  obtain ⟨parsed, hbase, hauth, hconns⟩ := hadded.connections
  obtain ⟨rows, hrows, hrowOf⟩ := hadded.endpoints
  refine ⟨body, root, ops, hbody, hroot, hops, ?_⟩
  intro p hp hplain hfree
  have hold : findIn db'.getConnections p.2 db.getAllEndpoints = none := by
    refine findIn_eq_none.mpr ?_
    intro ep hep conn hconn
    rw [hconns, enabledConn_of_ne (hadded.unreferenced ep hep)] at hconn
    exact findIn_eq_none.mp hfree ep hep conn hconn
  have hnames : ((ops.zip names).map Prod.snd).Nodup := by
    rw [List.map_snd_zip hadded.length.ge]
    exact hadded.nodup
  obtain ⟨ep, hfind, hrow⟩ : ∃ ep, findIn (db.getConnections ++ [importedConnection env parsed]) p.2 rows =
      some (ep, importedConnection env parsed) ∧ RowOf env p.1 p.2 ep := findIn_rows hrowOf hnames hp
  refine ⟨ep, importedConnection env parsed, ?_, hrow, hbase, hauth⟩
  unfold dispatch findEndpoint noFaults
  rw [hplain]
  dsimp only
  rw [if_neg Bool.false_ne_true, hrows, findIn_append, hold, Option.none_or, hconns, hfind]

/-- An operation with a path parameter and one with a JSON body. -/
def petStore : Str :=
  let text (s : String) : Json := .str s.toList
  let object (ms : List (String × Json)) : Json := .obj (ms.map fun m => (m.1.toList, m.2))
  let schema (type : String) : Json := object [("type", text type)]
  Json.compact (object [("openapi", text "3.0.3"), ("info", object [("title", text "Pets")]),
    ("servers", .arr [object [("url", text "https://pets")]]),
    ("paths", object [
      ("/pets", object [("post", object [("operationId", text "addPet"), ("requestBody", object [
        ("content", object [("application/json", object [("schema", object [
          ("type", text "object"), ("properties", object [("name", schema "string")]),
          ("required", .arr [text "name"])])])])])])]),
      ("/pets/\x7bid\x7d", object [("get", object [("operationId", text "getPet"),
        ("summary", text "One pet"), ("parameters", .arr [object [("name", text "id"),
          ("in", text "path"), ("schema", schema "integer")]])])])])])

def storeRequest : ImportRequest := ⟨true, some petStore, [], []⟩

def petImport : ImportResponse × DB := handleOpenAPIImport noYaml countedIDs storeRequest (.empty false)

theorem petImport_created : petImport =
    (.created ['c'] "Pets".toList ["addpet".toList, "getpet".toList], petImport.2) := by
  have hresponse : petImport.1 = .created ['c'] "Pets".toList ["addpet".toList, "getpet".toList] := by
    decide +kernel
  rw [← hresponse]

theorem newIDs_empty (n : Nat) : NewIDs countedIDs n (.empty false) where
  toFreshIDs := freshIDs_empty n
  unreferenced := by
    intro e he
    cases he

theorem import_listed_petStore : ∃ body root ops, storeRequest.body = some body ∧
    decodeDocument noYaml (Text.takeBytes (10 * 2 ^ 20) body) = .ok root ∧ documentOps root = .ok ops ∧
    ops.length = 2 ∧
    ∀ role scopes, ∃ before tools admin, listTools noFaults role scopes (.empty false) = .ok (before ++ admin) ∧
      listTools noFaults role scopes petImport.2 = .ok (before ++ tools ++ admin) ∧
      List.Forall₂ (fun p t => ToolOf p.1 p.2 t)
        ((ops.zip ["addpet".toList, "getpet".toList]).filter fun p => matchScope p.2 scopes) tools :=
  import_listed noYaml countedIDs storeRequest (.empty false) petImport.2
    (fun parsed _ => newIDs_empty parsed.endpoints.length) petImport_created

theorem import_called_petStore : ∃ body root ops, storeRequest.body = some body ∧
    decodeDocument noYaml (Text.takeBytes (10 * 2 ^ 20) body) = .ok root ∧ documentOps root = .ok ops ∧
    ∀ p ∈ ops.zip ["addpet".toList, "getpet".toList], Text.hasPrefix p.2 adminPrefix = false →
      findIn (DB.empty false).getConnections p.2 (DB.empty false).getAllEndpoints = none →
      ∃ ep conn, dispatch noFaults p.2 petImport.2 = .ok (.endpoint ep conn) ∧
        RowOf countedIDs p.1 p.2 ep ∧ conn.baseURL = root.servers.headD [] ∧
        conn.authType = inferAuthType root.securitySchemes :=
  import_called noYaml countedIDs storeRequest (.empty false) petImport.2
    (fun parsed _ => newIDs_empty parsed.endpoints.length) petImport_created

end Janus.Portal
