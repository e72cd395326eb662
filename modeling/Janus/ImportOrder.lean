import Janus.Lib.DecodeOrder
import Janus.ToolNames

/-!
# The order in an imported document

The importer loops over maps three times: over the paths, over the security schemes and over the
properties of a JSON body. Whatever orders the loops take, and in whatever order the members
of the document stand, the connection is the same (`parseIn_eq`). Decoding takes reordered
documents to parts that are the same up to the order of their maps, and every later function
either sorts what it finds in a map or puts it into another one.
-/

namespace Janus.OpenApi

set_option autoImplicit false

open Decode Json
open Text (equalFold)

structure SameParameter (p q : Parameter) : Prop where
  name : p.name = q.name
  «in» : p.in = q.in
  description : p.description = q.description
  required : p.required = q.required
  schema : MapRel Alike p.schema q.schema

def SameMediaType (m n : MediaType) : Prop := MapRel Alike m.schema n.schema

structure SameBody (a b : RequestBody) : Prop where
  required : a.required = b.required
  content : MapRel SameMediaType a.content b.content

structure SameOperation (a b : Operation) : Prop where
  operationID : a.operationID = b.operationID
  summary : a.summary = b.summary
  description : a.description = b.description
  parameters : List.Forall₂ SameParameter a.parameters b.parameters
  requestBody : Option.Rel SameBody a.requestBody b.requestBody

structure SameRoot (r s : Root) : Prop where
  openAPI : r.openAPI = s.openAPI
  title : r.title = s.title
  servers : r.servers = s.servers
  paths : MapRel Reordered r.paths s.paths
  securitySchemes : MapRel Eq r.securitySchemes s.securitySchemes

theorem decodeParameter_rel {p q : Parameter} {v w : Json} (hpq : SameParameter p q)
    (h : Reordered v w) : Option.Rel SameParameter (decodeParameter p v) (decodeParameter q w) := by
  refine record_rel ?_ ?_ hpq h
  · refine orderFree_field ?_ (orderFree_field ?_ (orderFree_field ?_ (orderFree_field ?_ (orderFree_single _ _))))
    all_goals
      intro p k v w
      split_ifs <;> simp only [Option.bind_map, Function.comp_def, Option.bind_some, Option.bind_fun_some]
      all_goals exact bind_map_comm ..
  · intro p q k v w h hvw
    split_ifs
    · exact rel_map (fun _ _ he => { h with name := he }) (str_rel h.name hvw)
    · exact rel_map (fun _ _ he => { h with «in» := he }) (str_rel h.in hvw)
    · exact rel_map (fun _ _ he => { h with description := he }) (str_rel h.description hvw)
    · exact rel_map (fun _ _ he => { h with required := he }) (bool_rel h.required hvw)
    · exact rel_map (fun _ _ he => { h with schema := he }) (anyMap_rel h.schema hvw)
    · exact .some h

theorem sameParameter_zero : SameParameter zeroParameter zeroParameter :=
  ⟨rfl, rfl, rfl, rfl, .nil⟩

theorem decodeParameters_rel {ps qs : List Parameter} {v w : Json} (h : List.Forall₂ SameParameter ps qs)
    (hvw : Reordered v w) :
    Option.Rel (List.Forall₂ SameParameter) (decodeParameters ps v) (decodeParameters qs w) :=
  list_rel sameParameter_zero (fun _ _ _ _ => decodeParameter_rel) h hvw

theorem decodeMediaType_rel {v w : Json} (h : Reordered v w) :
    Option.Rel SameMediaType (decodeMediaType v) (decodeMediaType w) := by
  refine record_rel (orderFree_single _ _) ?_ .nil h
  intro m n k v w hmn hvw
  split_ifs
  · exact rel_map (fun _ _ he => he) (anyMap_rel hmn hvw)
  · exact .some hmn

theorem decodeRequestBody_rel {a b : RequestBody} {v w : Json} (hab : SameBody a b)
    (h : Reordered v w) : Option.Rel SameBody (decodeRequestBody a v) (decodeRequestBody b w) := by
  refine record_rel ?_ ?_ hab h
  · refine orderFree_field ?_ (orderFree_single _ _)
    all_goals
      intro b k v w
      split_ifs <;> simp only [Option.bind_map, Function.comp_def, Option.bind_some, Option.bind_fun_some]
      all_goals exact bind_map_comm ..
  · intro a b k v w h hvw
    split_ifs
    · exact rel_map (fun _ _ he => { h with required := he }) (bool_rel h.required hvw)
    · exact rel_map (fun _ _ he => { h with content := he })
        (map_rel (fun _ _ => decodeMediaType_rel) h.content hvw)
    · exact .some h

theorem decodeOperation_rel {v w : Json} (h : Reordered v w) :
    Option.Rel SameOperation (decodeOperation v) (decodeOperation w) := by
  refine record_rel ?_ ?_ ⟨rfl, rfl, rfl, .nil, .none⟩ h
  · refine orderFree_field ?_ (orderFree_field ?_ (orderFree_field ?_ (orderFree_field ?_ (orderFree_single _ _))))
    all_goals
      intro op k v w
      split_ifs <;> simp only [Option.bind_map, Function.comp_def, Option.bind_some, Option.bind_fun_some]
      all_goals exact bind_map_comm ..
  · intro a b k v w h hvw
    split_ifs
    · exact rel_map (fun _ _ he => { h with operationID := he }) (str_rel h.operationID hvw)
    · exact rel_map (fun _ _ he => { h with summary := he }) (str_rel h.summary hvw)
    · exact rel_map (fun _ _ he => { h with description := he }) (str_rel h.description hvw)
    · exact rel_map (fun _ _ he => { h with parameters := he }) (decodeParameters_rel h.parameters hvw)
    · exact rel_map (fun _ _ he => { h with requestBody := he })
        (pointer_rel ⟨rfl, .nil⟩ (fun _ _ _ _ => decodeRequestBody_rel) h.requestBody hvw)
    · exact .some h

theorem decodePathItemMeta_rel {v w : Json} (h : Reordered v w) :
    Option.Rel (List.Forall₂ SameParameter) (decodePathItemMeta v) (decodePathItemMeta w) := by
  refine record_rel (orderFree_single _ _) ?_ .nil h
  intro ps qs k v w hpq hvw
  split_ifs
  · exact decodeParameters_rel hpq hvw
  · exact .some hpq

theorem decodeMethodOps_rel {v w : Json} (h : Reordered v w) :
    Option.Rel (MapRel Reordered) (decodeMethodOps v) (decodeMethodOps w) :=
  map_rel (fun _ _ => .some) .nil h

theorem decodeSecurityScheme_rel {s t : SecurityScheme} {v w : Json} (hst : s = t) (h : Reordered v w) :
    Option.Rel Eq (decodeSecurityScheme s v) (decodeSecurityScheme t w) := by
  refine record_rel ?_ ?_ hst h
  · refine orderFree_field ?_ (orderFree_field ?_ (orderFree_single _ _))
    all_goals
      intro s k v w
      split_ifs <;> simp only [Option.bind_map, Function.comp_def, Option.bind_some, Option.bind_fun_some]
      all_goals exact bind_map_comm ..
  · rintro s _ k v w rfl hvw
    split_ifs
    · exact rel_map (fun _ _ he => by rw [he]) (str_rel rfl hvw)
    · exact rel_map (fun _ _ he => by rw [he]) (str_rel rfl hvw)
    · exact rel_map (fun _ _ he => by rw [he]) (str_rel rfl hvw)
    · exact .some rfl

/-- A record of which only one text is read. -/
theorem record_str_rel (n : Str) {s t : Str} (hst : s = t) {v w : Json} (h : Reordered v w) :
    Option.Rel Eq (record (fun u k v => if equalFold k n then Decode.str u v else some u) s v)
      (record (fun u k v => if equalFold k n then Decode.str u v else some u) t w) := by
  refine record_rel (orderFree_single _ _) ?_ hst h
  intro s t k v w hst hvw
  split_ifs
  · exact str_rel hst hvw
  · exact .some hst

theorem forall₂_eq {α : Type} {xs ys : List α} : List.Forall₂ Eq xs ys ↔ xs = ys := by
  rw [List.forall₂_eq_eq_eq]

theorem decodeRoot_rel {v w : Json} (h : Reordered v w) :
    Option.Rel SameRoot (decodeRoot v) (decodeRoot w) := by
  refine record_rel ?_ ?_ ⟨rfl, rfl, rfl, .nil, .nil⟩ h
  · refine orderFree_field ?_ (orderFree_field ?_ (orderFree_field ?_ (orderFree_field ?_
      (orderFree_single _ _))))
    all_goals
      intro r k v w
      split_ifs <;> simp only [Option.bind_map, Function.comp_def, Option.bind_some, Option.bind_fun_some]
      all_goals exact bind_map_comm ..
  · intro r s k v w h hvw
    split_ifs
    · exact rel_map (fun _ _ he => { h with openAPI := he }) (str_rel h.openAPI hvw)
    · exact rel_map (fun _ _ he => { h with title := he }) (record_str_rel _ h.title hvw)
    · refine rel_map (fun _ _ he => { h with servers := forall₂_eq.mp he }) ?_
      exact list_rel rfl (fun _ _ _ _ hst hxy => record_str_rel _ hst hxy) (forall₂_eq.mpr h.servers) hvw
    · exact rel_map (fun _ _ he => { h with paths := he }) (map_rel (fun _ _ => .some) h.paths hvw)
    · refine rel_map (fun _ _ he => { h with securitySchemes := he }) ?_
      refine record_rel (orderFree_single _ _) ?_ h.securitySchemes hvw
      intro ss ts k v w hst hvw
      split_ifs
      · exact map_rel (fun _ _ => decodeSecurityScheme_rel rfl) hst hvw
      · exact .some hst
    · exact .some h

theorem stringMember_eq {ms ns : List (Str × Json)} (h : MapRel Alike ms ns) (k : String) :
    stringMember k ms = stringMember k ns := by
  unfold stringMember
  rcases rel_cases (h.entries k.toList) with ⟨hx, hy⟩ | ⟨x, y, hx, hy, hxy⟩
  · rw [hx, hy]
  · rw [hx, hy]
    cases hxy.shape with
    | null | bool | num | str | arr | obj => rfl

theorem alike_str (s : Str) : Alike (.str s) (.str s) :=
  ⟨trivial, trivial, rfl⟩

theorem parameterToJSONSchema_alike {p q : Parameter} (h : SameParameter p q) :
    Alike (parameterToJSONSchema p) (parameterToJSONSchema q) := by
  unfold parameterToJSONSchema
  rw [h.description, stringMember_eq h.schema, stringMember_eq h.schema]
  apply alike_obj
  apply MapRel.of_forall₂
  · apply List.rel_append
    · split_ifs <;> simp [alike_str]
    · rcases rel_cases (h.schema.entries "enum".toList) with ⟨hx, hy⟩ | ⟨x, y, hx, hy, hxy⟩
      · rw [hx, hy]
        exact .nil
      · rw [hx, hy]
        exact .cons ⟨rfl, hxy⟩ .nil
  · cases lookup "enum".toList p.schema <;> split_ifs <;> simp

theorem replaceLast_rel {p q : Parameter} (hpq : SameParameter p q) {ps qs : List Parameter}
    (h : List.Forall₂ SameParameter ps qs) :
    Option.Rel (List.Forall₂ SameParameter) (replaceLast p ps) (replaceLast q qs) := by
  induction h with
  | nil => exact .none
  | @cons a b as bs hab hrest ih =>
    have hkey : (paramKey a = paramKey p) = (paramKey b = paramKey q) := by
      unfold paramKey
      rw [hab.in, hab.name, hpq.in, hpq.name]
    unfold replaceLast
    rcases rel_cases ih with ⟨hx, hy⟩ | ⟨xs, ys, hx, hy, hxy⟩
    · rw [hx, hy]
      simp only [hkey]
      split_ifs
      · exact .some (.cons hpq hrest)
      · exact .none
    · rw [hx, hy]
      exact .some (.cons hab hxy)

theorem mergeParameters_rel {as bs ps qs : List Parameter} (hab : List.Forall₂ SameParameter as bs)
    (hpq : List.Forall₂ SameParameter ps qs) :
    List.Forall₂ SameParameter (mergeParameters as ps) (mergeParameters bs qs) := by
  refine List.rel_foldl ?_ hab hpq
  intro as bs hab p q hpq
  exact rel_getD (List.rel_append hab (.cons hpq .nil)) (replaceLast_rel hpq hab)

/-- Properties up to their order, and the same required names. -/
def SameProperties (a b : List (Str × Json) × List Str) : Prop :=
  MapRel Alike a.1 b.1 ∧ a.2 = b.2

theorem paramProperties_rel {ps qs : List Parameter} (h : List.Forall₂ SameParameter ps qs) :
    SameProperties (paramProperties ps) (paramProperties qs) := by
  refine List.rel_foldl (P := SameProperties) ?_ ⟨.nil, rfl⟩ h
  rintro ⟨props, req⟩ ⟨props', _⟩ ⟨hprops, rfl⟩ p q hpq
  simp only [hpq.name, hpq.required, hpq.in]
  split_ifs
  · exact ⟨hprops, rfl⟩
  · exact ⟨hprops.set _ (parameterToJSONSchema_alike hpq), rfl⟩
  · exact ⟨hprops.set _ (parameterToJSONSchema_alike hpq), rfl⟩

theorem strings_eq {xs ys : List Json} (h : List.Forall₂ Alike xs ys) :
    (xs.filterMap fun r => match r with | .str s => some s | _ => none) =
      ys.filterMap fun r => match r with | .str s => some s | _ => none := by
  apply forall₂_eq.mp
  refine List.rel_filterMap ?_ h
  intro x y hxy
  cases hxy.shape with
  | null | bool | num | str | arr | obj => exact rel_refl

theorem bodyProperties_rel {a b : RequestBody} (h : SameBody a b) {props props' : List (Str × Json)}
    (hprops : MapRel Alike props props') {req req' : List Str} (hreq : req = req') :
    SameProperties (bodyProperties a props req) (bodyProperties b props' req') := by
  subst hreq
  unfold bodyProperties
  rcases rel_cases (h.content.entries "application/json".toList) with
    ⟨hx, hy⟩ | ⟨mt, mt', hx, hy, hmt⟩
  · rw [hx, hy]
    exact ⟨hprops, rfl⟩
  · rw [hx, hy]
    have hschema : MapRel Alike mt.schema mt'.schema := hmt
    simp only [hschema.eq_nil_iff, stringMember_eq hschema, h.required]
    split_ifs
    · exact ⟨hprops, rfl⟩
    · refine ⟨?_, ?_⟩
      · rcases rel_cases (hschema.entries "properties".toList) with ⟨hp, hq⟩ | ⟨x, y, hp, hq, hxy⟩
        · rw [hp, hq]
          exact hprops
        · rw [hp, hq]
          cases hxy.shape with
          | null | bool | num | str | arr => exact hprops
          | obj hms => exact hms.foldl_setMember hprops
      · rcases rel_cases (hschema.entries "required".toList) with ⟨hp, hq⟩ | ⟨x, y, hp, hq, hxy⟩
        · rw [hp, hq]
        · rw [hp, hq]
          cases hxy.shape with
          | null | bool | num | str | obj => rfl
          | arr hrs => exact congrArg (req ++ ·) (strings_eq hrs)
    · exact ⟨hprops.set _ (alike_obj hschema), rfl⟩
    · exact ⟨hprops.set _ (alike_obj hschema), rfl⟩

theorem marshal_schema_eq {x y : List (Str × Json) × List Str} (h : SameProperties x y) :
    Json.marshal (.obj ([("type".toList, .str "object".toList), ("properties".toList, .obj x.1)] ++
        if x.2 = [] then [] else [("required".toList, .arr ((dedupeSorted x.2).map .str))])) =
      Json.marshal (.obj ([("type".toList, .str "object".toList), ("properties".toList, .obj y.1)] ++
        if y.2 = [] then [] else [("required".toList, .arr ((dedupeSorted y.2).map .str))])) := by
  obtain ⟨hprops, hreq⟩ := h
  rw [hreq]
  apply marshal_eq_of_alike
  apply alike_obj
  apply MapRel.of_forall₂
  · apply List.rel_append
    · exact .cons ⟨rfl, alike_str _⟩ (.cons ⟨rfl, alike_obj hprops⟩ .nil)
    · have hnames : Alike (.arr ((dedupeSorted y.2).map .str)) (.arr ((dedupeSorted y.2).map .str)) := by
        apply alike_arr
        rw [List.forall₂_same]
        intro x hx
        obtain ⟨s, _, rfl⟩ := List.mem_map.mp hx
        exact alike_str s
      split_ifs
      · exact .nil
      · exact .cons ⟨rfl, hnames⟩ .nil
  · split_ifs <;> simp

/-- The bytes of the schema do not depend on any order. -/
theorem buildParametersSchema_eq {ps qs : List Parameter} (h : List.Forall₂ SameParameter ps qs)
    {a b : Option RequestBody} (hab : Option.Rel SameBody a b) :
    buildParametersSchema ps a = buildParametersSchema qs b := by
  obtain ⟨hprops, hreq⟩ := paramProperties_rel h
  cases hab with
  | none => exact marshal_schema_eq ⟨hprops, hreq⟩
  | some hbody => exact marshal_schema_eq (bodyProperties_rel hbody hprops hreq)

/-- The order that each loop over a map takes: the loop over the paths, the loop over the security
schemes, and for each operation the loop over the properties of its body. -/
structure Iteration where
  paths : List (Str × Json) → List (Str × Json)
  schemes : List (Str × SecurityScheme) → List (Str × SecurityScheme)
  properties : Str → Str → List (Str × Json) → List (Str × Json)
  perm_paths : ∀ ms, (paths ms).Perm ms
  perm_schemes : ∀ ms, (schemes ms).Perm ms
  perm_properties : ∀ path method ms, (properties path method ms).Perm ms

def reorderObject (order : List (Str × Json) → List (Str × Json)) : Json → Json
  | .obj ms => .obj (order ms)
  | v => v

/-- The objects of a body schema in the order of an iteration. -/
def Iteration.mediaType (it : Iteration) (path method : Str) (m : MediaType) : MediaType :=
  ⟨m.schema.map fun s => (s.1, reorderObject (it.properties path method) s.2)⟩

def Iteration.requestBody (it : Iteration) (path method : Str) (rb : RequestBody) : RequestBody :=
  { rb with content := rb.content.map fun m => (m.1, it.mediaType path method m.2) }

def Iteration.operation (it : Iteration) (path method : Str) (op : Operation) : Operation :=
  { op with requestBody := op.requestBody.map (it.requestBody path method) }

def importOperationIn (it : Iteration) (opts : Options) (path : Str) (shared : List Parameter)
    (st : Naming) (method : Str) (opRaw : Json) : Except ParseError Naming :=
  match decodeOperation opRaw with
  | none => .error (.decodingOperation (method.map upperChar) path)
  | some op => .ok (addOp opts st ⟨path, method, shared, it.operation path method op⟩)

def importPathIn (it : Iteration) (opts : Options) (paths : List (Str × Json)) (st : Naming)
    (path : Str) : Except ParseError Naming :=
  let raw := (lookup path paths).getD .null
  match decodePathItemMeta raw, decodeMethodOps raw with
  | some shared, some methodOps =>
    httpMethods.foldlM (fun st method =>
      match lookup method methodOps with
      | none => .ok st
      | some opRaw => importOperationIn it opts path shared st method opRaw) st
  | _, _ => .error (.decodingPathItem path)

/-- The importer with an order for each of its loops. -/
def parseIn (it : Iteration) (yaml : Str → Option Yaml) (spec : Str) (opts : Options) :
    Except ParseError ParsedConnection :=
  match decodeDocument yaml spec with
  | .error e => .error e
  | .ok root =>
    let paths := Text.sortStrings ((it.paths root.paths).map Prod.fst)
    match paths.foldlM (importPathIn it opts root.paths) ⟨fun _ => 0, []⟩ with
    | .error e => .error e
    | .ok st => .ok {
        name := sanitizeConnectionName root.title
        baseURL := root.servers.headD []
        authType := inferAuthType (it.schemes root.securitySchemes)
        endpoints := st.endpoints }

/-- Every loop in the order of the decoded entries. -/
def Iteration.listed : Iteration :=
  ⟨id, id, fun _ _ => id, List.Perm.refl, List.Perm.refl, fun _ _ => List.Perm.refl⟩

theorem operation_listed (path method : Str) (op : Operation) :
    Iteration.listed.operation path method op = op := by
  have hobject : ∀ v, reorderObject id v = v := by
    intro v
    cases v <;> rfl
  have hmedia : ∀ m, Iteration.listed.mediaType path method m = m := by
    intro m
    simp [Iteration.mediaType, Iteration.listed, hobject]
  have hbody : ∀ rb, Iteration.listed.requestBody path method rb = rb := by
    intro rb
    simp [Iteration.requestBody, hmedia]
  obtain ⟨_, _, _, _, rb⟩ := op
  cases rb with
  | none => rfl
  | some rb => simp [Iteration.operation, hbody]

/-- The importer takes the entries as they are listed. -/
theorem parseIn_listed (yaml : Str → Option Yaml) (spec : Str) (opts : Options) :
    parseIn .listed yaml spec opts = parse yaml spec opts := by
  have hoperation : importOperationIn .listed opts = importOperation opts := by
    funext path shared st method opRaw
    unfold importOperationIn importOperation
    cases decodeOperation opRaw with
    | none => rfl
    | some op =>
      dsimp only
      rw [operation_listed]
      rfl
  have hpath : importPathIn .listed opts = importPath opts := by
    funext paths st path
    unfold importPathIn importPath
    exact hoperation ▸ rfl
  unfold parseIn parse
  exact hpath ▸ rfl

theorem alike_reorderObject {order : List (Str × Json) → List (Str × Json)}
    (horder : ∀ ms, (order ms).Perm ms) {x y : Json} (h : Alike x y) : Alike x (reorderObject order y) := by
  cases h.shape with
  | null | bool | num | str | arr => exact h
  | obj hms => exact alike_obj (hms.perm (horder _))

theorem sameMediaType_in (it : Iteration) (path method : Str) {m n : MediaType} (h : SameMediaType m n) :
    SameMediaType m (it.mediaType path method n) :=
  MapRel.map_right (fun _ _ => alike_reorderObject (it.perm_properties path method)) h

theorem sameBody_in (it : Iteration) (path method : Str) {a b : RequestBody} (h : SameBody a b) :
    SameBody a (it.requestBody path method b) :=
  ⟨h.required, h.content.map_right fun _ _ => sameMediaType_in it path method⟩

theorem sameOperation_in (it : Iteration) (path method : Str) {a b : Operation} (h : SameOperation a b) :
    SameOperation a (it.operation path method b) :=
  { h with requestBody := rel_map_right (fun _ _ => sameBody_in it path method) h.requestBody }

theorem importOperationIn_eq (it : Iteration) (opts : Options) (path : Str) {shared shared' : List Parameter}
    (hshared : List.Forall₂ SameParameter shared shared') (st : Naming) (method : Str) {v w : Json}
    (h : Reordered v w) :
    importOperationIn it opts path shared' st method w = importOperation opts path shared st method v := by
  unfold importOperationIn importOperation
  rcases rel_cases (decodeOperation_rel h) with ⟨hx, hy⟩ | ⟨a, b, hx, hy, hab⟩
  · rw [hx, hy]
  · rw [hx, hy]
    have hin := sameOperation_in it path method hab
    have hschema := buildParametersSchema_eq (mergeParameters_rel hshared hin.parameters) hin.requestBody
    simp only [addOp, FoundOp.base, FoundOp.endpoint, hschema, hin.operationID, hin.summary,
      hin.description]

theorem importPathIn_eq (it : Iteration) (opts : Options) {paths paths' : List (Str × Json)}
    (h : MapRel Reordered paths paths') (st : Naming) (path : Str) :
    importPathIn it opts paths' st path = importPath opts paths st path := by
  have hnull : Reordered .null .null := ⟨trivial, trivial, trivial⟩
  have hraw := rel_getD hnull (h.entries path)
  unfold importPathIn importPath
  dsimp only
  rcases rel_cases (decodePathItemMeta_rel hraw) with ⟨hx, hx'⟩ | ⟨shared, shared', hx, hx', hshared⟩
  · rw [hx, hx']
  · rcases rel_cases (decodeMethodOps_rel hraw) with ⟨hy, hy'⟩ | ⟨methodOps, methodOps', hy, hy', hmethods⟩
    · rw [hx, hx', hy, hy']
    · rw [hx, hx', hy, hy']
      dsimp only
      congr 1
      funext st method
      rcases rel_cases (hmethods.entries method) with ⟨hz, hz'⟩ | ⟨v, w, hz, hz', hvw⟩
      · rw [hz, hz']
      · rw [hz, hz']
        exact importOperationIn_eq it opts path hshared st method hvw

theorem inferAuthType_eq {ss ts : List (Str × SecurityScheme)} (h : MapRel Eq ss ts) :
    inferAuthType ss = inferAuthType ts := by
  have hlookup : ∀ k, lookup k ss = lookup k ts := fun k => rel_eq (h.entries k)
  unfold inferAuthType
  simp only [Text.sortStrings_perm h.fst, hlookup]

theorem decodeDocument_json {spec : Str} {doc : Json} (h : JsonText.parse (Text.trimSpace spec) = some doc)
    (yaml : Str → Option Yaml) :
    decodeDocument yaml spec =
      match decodeRoot doc with
      | none => .error .decodingDocument
      | some root =>
        if Text.hasPrefix root.openAPI "3.".toList then .ok root
        else .error (.unsupportedVersion root.openAPI) := by
  have hne : Text.trimSpace spec ≠ [] := by
    intro he
    rw [he] at h
    cases h
  have hnormal : normalizeToJSON yaml spec = .ok (Text.trimSpace spec) := by
    simp only [normalizeToJSON, if_neg hne, h, Option.isSome_some, if_true]
  unfold decodeDocument
  rw [hnormal]
  dsimp only
  rw [h]
  rfl

/-- Every order of the loops and of the members of the document gives the same connection, and
the same error. -/
theorem parseIn_eq (it : Iteration) (yaml : Str → Option Yaml) (opts : Options) {spec spec' : Str}
    {doc doc' : Json} (hdoc : JsonText.parse (Text.trimSpace spec) = some doc)
    (hdoc' : JsonText.parse (Text.trimSpace spec') = some doc') (h : Reordered doc doc') :
    parseIn it yaml spec' opts = parse yaml spec opts := by
  unfold parseIn parse
  rw [decodeDocument_json hdoc, decodeDocument_json hdoc']
  rcases rel_cases (decodeRoot_rel h) with ⟨hx, hy⟩ | ⟨root, root', hx, hy, hroot⟩
  · rw [hx, hy]
  · rw [hx, hy]
    dsimp only
    rw [← hroot.openAPI]
    split_ifs
    · have hpaths : Text.sortStrings ((it.paths root'.paths).map Prod.fst) = sortedPaths root :=
        Text.sortStrings_perm (((it.perm_paths _).map Prod.fst).trans hroot.paths.fst.symm)
      have hschemes : inferAuthType (it.schemes root'.securitySchemes) = inferAuthType root.securitySchemes :=
        (inferAuthType_eq (hroot.securitySchemes.perm (it.perm_schemes _))).symm
      have hstep : importPathIn it opts root'.paths = importPath opts root.paths := by
        funext st path
        exact importPathIn_eq it opts hroot.paths st path
      dsimp only
      rw [hpaths, hstep]
      cases (sortedPaths root).foldlM (importPath opts root.paths) ⟨fun _ => 0, []⟩ with
      | error e => rfl
      | ok st =>
        apply congrArg Except.ok
        rw [hschemes, hroot.title, hroot.servers]
    · rfl

end Janus.OpenApi
