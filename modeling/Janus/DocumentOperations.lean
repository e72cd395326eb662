import Janus.ImportOrder

/-!
# One tool for every operation

The endpoints of an imported document are its operations, each once, in the order of their paths
and under one path in the order of the methods (`parse_operations`). Together with the freedom
of order they are determined by the document as a value (`parse_reproducible`).
-/

namespace Janus.OpenApi

set_option autoImplicit false

open Decode Json
open Text (equalFold)

/-- The path items of a document. -/
def pathItems : Json → List (Str × Json)
  | .obj ms =>
    match ms.find? fun m => equalFold m.1 "paths".toList with
    | some (_, .obj items) => items
    | _ => []
  | _ => []

/-- The path item of the path has a member with the name of the method. -/
def HasOperation (doc : Json) (path method : Str) : Prop :=
  method ∈ httpMethods ∧ ∃ item, (path, .obj item) ∈ pathItems doc ∧ method ∈ item.map Prod.fst

def methodRank (method : Str) : Nat := (httpMethods.map fun m => m.map upperChar).idxOf method

/-- The order of the endpoints: by path, then by method. -/
def Earlier (e f : Str × Str) : Prop :=
  (e.1 ≠ f.1 ∧ Text.leStr e.1 f.1 = true) ∨ (e.1 = f.1 ∧ methodRank e.2 < methodRank f.2)

def ParsedEndpoint.place (e : ParsedEndpoint) : Str × Str := (e.path, e.method)

def FoundOp.place (f : FoundOp) : Str × Str := (f.path, f.method.map upperChar)

theorem not_both_names {k m n : Str} (h : equalFold m n = false) (hk : equalFold k m = true) :
    equalFold k n = false := by
  rw [equalFold, decide_eq_true_eq] at hk
  rw [equalFold, decide_eq_false_iff_not] at h ⊢
  rw [hk]
  exact h

section Field

variable {α β : Type} (get : α → β) {n : Str} {assign : α → Str → Json → Option α}
  {f : β → Json → Option β}

/-- A field that no member has the name of stays as it was. -/
theorem field_unchanged (hmiss : ∀ a k v b, equalFold k n = false → assign a k v = some b → get b = get a)
    {ms : List (Str × Json)} (hms : ∀ m ∈ ms, equalFold m.1 n = false) {a b : α}
    (h : record assign a (.obj ms) = some b) : get b = get a := by
  induction ms generalizing a with
  | nil =>
    cases h
    rfl
  | cons m ms ih =>
    obtain ⟨hm, hrest⟩ := List.forall_mem_cons.mp hms
    obtain ⟨c, hc, hb⟩ := Option.bind_eq_some_iff.mp h
    exact (ih hrest hb).trans (hmiss a m.1 m.2 c hm hc)

/-- A field is read from the one member of its name. -/
theorem field_of_record (hmiss : ∀ a k v b, equalFold k n = false → assign a k v = some b → get b = get a)
    (hhit : ∀ a k v b, equalFold k n = true → assign a k v = some b → f (get a) v = some (get b))
    {ms : List (Str × Json)} (hms : ms.Pairwise fun m n => equalFold m.1 n.1 = false) {a b : α}
    (h : record assign a (.obj ms) = some b) :
    match ms.find? fun m => equalFold m.1 n with
    | some m => f (get a) m.2 = some (get b)
    | none => get b = get a := by
  induction ms generalizing a with
  | nil =>
    cases h
    rfl
  | cons m ms ih =>
    obtain ⟨hm, hrest⟩ := List.pairwise_cons.mp hms
    obtain ⟨c, hc, hb⟩ := Option.bind_eq_some_iff.mp h
    cases hn : equalFold m.1 n with
    | true =>
      rw [List.find?_cons, hn]
      have hothers : ∀ o ∈ ms, equalFold o.1 n = false := by
        intro o ho
        exact Bool.eq_false_iff.mpr (not_both (hm o ho) hn)
      have hget := field_unchanged get hmiss hothers hb
      rw [hget]
      exact hhit a m.1 m.2 c hn hc
    | false =>
      rw [List.find?_cons, hn, ← hmiss a m.1 m.2 c hn hc]
      exact ih hrest hb

end Field

theorem paths_of_record {ms : List (Str × Json)} (hms : ms.Pairwise fun m n => equalFold m.1 n.1 = false)
    {root : Root} (h : decodeRoot (.obj ms) = some root) :
    match ms.find? fun m => equalFold m.1 "paths".toList with
    | some m => Decode.map some [] m.2 = some root.paths
    | none => root.paths = [] := by
  refine field_of_record Root.paths ?_ ?_ hms h
  · intro r k v s hk hs
    rw [Bool.eq_false_iff] at hk
    split_ifs at hs
    · obtain ⟨_, _, rfl⟩ := Option.map_eq_some_iff.mp hs
      rfl
    · obtain ⟨_, _, rfl⟩ := Option.map_eq_some_iff.mp hs
      rfl
    · obtain ⟨_, _, rfl⟩ := Option.map_eq_some_iff.mp hs
      rfl
    · obtain ⟨_, _, rfl⟩ := Option.map_eq_some_iff.mp hs
      rfl
    · cases hs
      rfl
  · intro r k v s hk hs
    rw [if_neg (Bool.eq_false_iff.mp (not_both_names (by decide) hk)),
      if_neg (Bool.eq_false_iff.mp (not_both_names (by decide) hk)),
      if_neg (Bool.eq_false_iff.mp (not_both_names (by decide) hk)), if_pos hk] at hs
    obtain ⟨paths, hpaths, rfl⟩ := Option.map_eq_some_iff.mp hs
    exact hpaths

theorem paths_of_decodeRoot {doc : Json} (hd : doc.FoldDistinct) {root : Root}
    (h : decodeRoot doc = some root) :
    (root.paths.map Prod.fst).Nodup ∧ ∀ k, lookup k root.paths = lookup k (pathItems doc) := by
  cases doc with
  | bool | num | str | arr => cases h
  | null =>
    cases h
    exact ⟨List.nodup_nil, fun _ => rfl⟩
  | obj ms =>
    have hpaths := paths_of_record hd.1 h
    simp only [pathItems]
    cases hm : ms.find? fun m => equalFold m.1 "paths".toList with
    | none =>
      rw [hm] at hpaths
      dsimp only at hpaths
      rw [hpaths]
      exact ⟨List.nodup_nil, fun _ => rfl⟩
    | some m =>
      obtain ⟨k, v⟩ := m
      rw [hm] at hpaths
      dsimp only at hpaths ⊢
      cases v with
      | bool | num | str | arr => cases hpaths
      | null =>
        rw [← Option.some.inj hpaths]
        exact ⟨List.nodup_nil, fun _ => rfl⟩
      | obj items =>
        obtain ⟨hnodup, hlookup⟩ := map_some hpaths
        refine ⟨hnodup List.nodup_nil, fun k => ?_⟩
        rw [hlookup]
        cases lookup k items with
        | none => rfl
        | some v => rfl

theorem lookup_methodOps (raw : Json) (method : Str) :
    (lookup method ((decodeMethodOps raw).getD [])).isSome = true ↔
      ∃ item, raw = .obj item ∧ method ∈ item.map Prod.fst := by
  cases raw with
  | obj item =>
    have hsome : (decodeMethodOps (.obj item)).isSome = true := map_isSome_iff.mpr fun _ _ => rfl
    obtain ⟨methodOps, hops⟩ := Option.isSome_iff_exists.mp hsome
    obtain ⟨_, hlookup⟩ := map_some hops
    have hsame : lookup method methodOps = lookup method item := by
      rw [hlookup]
      cases lookup method item with
      | none => rfl
      | some v => rfl
    rw [hops, Option.getD_some, hsame, lookup_isSome_iff]
    constructor
    · intro hmem
      exact ⟨item, rfl, hmem⟩
    · rintro ⟨_, hitem, hmem⟩
      cases hitem
      exact hmem
  | null | bool | num | str | arr =>
    constructor
    · intro hsome
      cases hsome
    · rintro ⟨item, hitem, _⟩
      cases hitem

/-- The places of the operations of a path item, in the order of the methods. -/
def itemPlaces (path : Str) (raw : Json) : List (Str × Str) :=
  httpMethods.flatMap fun m =>
    if (lookup m ((decodeMethodOps raw).getD [])).isSome then [(path, m.map upperChar)] else []

theorem map_flatten_of_mapM {α β γ ε : Type} {g : α → Except ε (List β)} {f : β → γ} {places : α → List γ}
    (hg : ∀ a bs, g a = .ok bs → bs.map f = places a) {l : List α} {bss : List (List β)}
    (h : l.mapM g = .ok bss) : bss.flatten.map f = l.flatMap places := by
  induction l generalizing bss with
  | nil =>
    cases h
    rfl
  | cons a l ih =>
    rw [List.mapM_cons] at h
    cases ha : g a with
    | error e =>
      rw [ha] at h
      cases h
    | ok bs =>
      rw [ha] at h
      cases hl : l.mapM g with
      | error e =>
        rw [hl] at h
        cases h
      | ok rest =>
        rw [hl] at h
        cases h
        rw [List.flatten_cons, List.map_append, List.flatMap_cons, hg a bs ha, ih hl]

theorem place_of_methodOp {path method : Str} {shared : List Parameter} {methodOps : List (Str × Json)}
    {ops : List FoundOp} (h : methodOp path shared methodOps method = .ok ops) :
    ops.map FoundOp.place =
      if (lookup method methodOps).isSome then [(path, method.map upperChar)] else [] := by
  unfold methodOp at h
  cases hv : lookup method methodOps with
  | none =>
    rw [hv] at h
    cases h
    rfl
  | some v =>
    rw [hv] at h
    cases hop : decodeOperation v with
    | none =>
      simp only [hop] at h
      cases h
    | some op =>
      simp only [hop] at h
      cases h
      rfl

theorem places_of_pathOps {paths : List (Str × Json)} {path : Str} {ops : List FoundOp}
    (h : pathOps paths path = .ok ops) :
    ops.map FoundOp.place = itemPlaces path ((lookup path paths).getD .null) := by
  unfold pathOps at h
  cases hshared : decodePathItemMeta ((lookup path paths).getD .null) with
  | none =>
    simp only [hshared] at h
    cases h
  | some shared =>
    cases hmethods : decodeMethodOps ((lookup path paths).getD .null) with
    | none =>
      simp only [hshared, hmethods] at h
      cases h
    | some methodOps =>
      simp only [hshared, hmethods] at h
      cases hm : httpMethods.mapM (methodOp path shared methodOps) with
      | error e =>
        rw [hm] at h
        cases h
      | ok bss =>
        rw [hm] at h
        cases h
        rw [map_flatten_of_mapM (fun _ _ => place_of_methodOp) hm, itemPlaces, hmethods]
        rfl

theorem places_of_documentOps {root : Root} {ops : List FoundOp} (h : documentOps root = .ok ops) :
    ops.map FoundOp.place =
      (sortedPaths root).flatMap fun p => itemPlaces p ((lookup p root.paths).getD .null) := by
  unfold documentOps at h
  cases hm : (sortedPaths root).mapM (pathOps root.paths) with
  | error e =>
    rw [hm] at h
    cases h
  | ok bss =>
    rw [hm] at h
    cases h
    exact map_flatten_of_mapM (fun _ _ => places_of_pathOps) hm

theorem places_foldl_addOp (opts : Options) (ops : List FoundOp) (st : Naming) :
    (ops.foldl (addOp opts) st).endpoints.map ParsedEndpoint.place =
      st.endpoints.map ParsedEndpoint.place ++ ops.map FoundOp.place := by
  induction ops generalizing st with
  | nil => simp
  | cons f ops ih =>
    rw [List.foldl_cons, ih]
    simp [addOp, uniqueName, FoundOp.endpoint, ParsedEndpoint.place, FoundOp.place]

theorem places_of_parse {yaml : Str → Option Yaml} {spec : Str} {opts : Options} {conn : ParsedConnection}
    (h : parse yaml spec opts = .ok conn) :
    ∃ root, decodeDocument yaml spec = .ok root ∧ conn.endpoints.map ParsedEndpoint.place =
      (sortedPaths root).flatMap fun p => itemPlaces p ((lookup p root.paths).getD .null) := by
  obtain ⟨root, ops, hroot, hops, hendpoints⟩ := parse_ok h
  refine ⟨root, hroot, ?_⟩
  rw [hendpoints, places_foldl_addOp, places_of_documentOps hops]
  rfl

theorem mem_itemPlaces {path : Str} {raw : Json} {place : Str × Str} :
    place ∈ itemPlaces path raw ↔ ∃ m ∈ httpMethods, place = (path, m.map upperChar) ∧
      ∃ item, raw = .obj item ∧ m ∈ item.map Prod.fst := by
  unfold itemPlaces
  rw [List.mem_flatMap]
  apply exists_congr
  intro m
  apply and_congr_right
  intro _
  rw [← lookup_methodOps]
  split_ifs with hm
  · simp [hm]
  · simp [hm]

theorem methodRank_pairwise :
    httpMethods.Pairwise fun m n => methodRank (m.map upperChar) < methodRank (n.map upperChar) := by
  decide

theorem pairwise_itemPlaces (path : Str) (raw : Json) : (itemPlaces path raw).Pairwise Earlier := by
  unfold itemPlaces
  apply List.pairwise_flatMap.mpr
  constructor
  · intro m _
    split_ifs
    · exact List.pairwise_singleton _ _
    · exact List.Pairwise.nil
  · apply methodRank_pairwise.imp
    intro m n hmn p hp q hq
    split_ifs at hp
    · split_ifs at hq
      · rw [List.mem_singleton] at hp hq
        subst hp hq
        exact Or.inr ⟨rfl, hmn⟩
      · cases hq
    · cases hp

/-- The sorted paths, when no two are equal. -/
theorem pairwise_sortedPaths {root : Root} (h : (root.paths.map Prod.fst).Nodup) :
    (sortedPaths root).Pairwise fun p q => p ≠ q ∧ Text.leStr p q = true := by
  have hnodup : (sortedPaths root).Nodup := (Text.perm_sortStrings _).nodup_iff.mpr h
  exact hnodup.and (Text.pairwise_sortStrings _)

theorem pairwise_places {root : Root} (h : (root.paths.map Prod.fst).Nodup) :
    ((sortedPaths root).flatMap fun p => itemPlaces p ((lookup p root.paths).getD .null)).Pairwise
      Earlier := by
  apply List.pairwise_flatMap.mpr
  constructor
  · intro p _
    exact pairwise_itemPlaces p _
  · apply (pairwise_sortedPaths h).imp
    intro p q hpq a ha b hb
    obtain ⟨_, _, rfl, _⟩ := mem_itemPlaces.mp ha
    obtain ⟨_, _, rfl, _⟩ := mem_itemPlaces.mp hb
    exact Or.inl hpq

theorem not_earlier_self (p : Str × Str) : ¬ Earlier p p := by
  rintro (⟨hne, _⟩ | ⟨_, hlt⟩)
  · exact hne rfl
  · omega

theorem nodup_pathItems {doc : Json} (hd : doc.FoldDistinct) : ((pathItems doc).map Prod.fst).Nodup := by
  cases doc with
  | null | bool | num | str | arr => exact List.nodup_nil
  | obj ms =>
    simp only [pathItems]
    cases hm : ms.find? fun m => equalFold m.1 "paths".toList with
    | none => exact List.nodup_nil
    | some m =>
      obtain ⟨k, v⟩ := m
      cases v with
      | null | bool | num | str | arr => exact List.nodup_nil
      | obj items =>
        have hitems := foldDistinctMembers_iff.mp hd.2 _ (List.mem_of_find?_eq_some hm)
        exact nodup_of_foldDistinct hitems.1

theorem mem_pathItems {doc : Json} (hd : doc.FoldDistinct) {root : Root} (h : decodeRoot doc = some root)
    (path : Str) (item : List (Str × Json)) :
    (path, .obj item) ∈ pathItems doc ↔
      path ∈ sortedPaths root ∧ (lookup path root.paths).getD .null = .obj item := by
  obtain ⟨_, hlookup⟩ := paths_of_decodeRoot hd h
  have hsorted : path ∈ sortedPaths root ↔ (lookup path root.paths).isSome = true :=
    (Text.perm_sortStrings _).mem_iff.trans lookup_isSome_iff.symm
  rw [← lookup_eq_some_iff (nodup_pathItems hd), ← hlookup, hsorted]
  cases lookup path root.paths with
  | none => simp
  | some v => simp

theorem mem_places {doc : Json} (hd : doc.FoldDistinct) {root : Root} (h : decodeRoot doc = some root)
    (place : Str × Str) :
    place ∈ ((sortedPaths root).flatMap fun p => itemPlaces p ((lookup p root.paths).getD .null)) ↔
      ∃ method, HasOperation doc place.1 method ∧ place.2 = method.map upperChar := by
  rw [List.mem_flatMap]
  constructor
  · rintro ⟨path, hpath, hplace⟩
    obtain ⟨m, hm, rfl, item, hitem, hmem⟩ := mem_itemPlaces.mp hplace
    exact ⟨m, ⟨hm, item, (mem_pathItems hd h path item).mpr ⟨hpath, hitem⟩, hmem⟩, rfl⟩
  · rintro ⟨m, ⟨hm, item, hitem, hmem⟩, hplace⟩
    obtain ⟨hpath, hraw⟩ := (mem_pathItems hd h place.1 item).mp hitem
    exact ⟨place.1, hpath, mem_itemPlaces.mpr ⟨m, hm, Prod.ext rfl hplace, item, hraw, hmem⟩⟩

/-- The endpoints of an accepted document: each operation once, by path and method. -/
structure OnePerOperation (doc : Json) (endpoints : List ParsedEndpoint) : Prop where
  distinct : (endpoints.map ParsedEndpoint.place).Nodup
  mem : ∀ path method, (path, method) ∈ endpoints.map ParsedEndpoint.place ↔
    ∃ m, HasOperation doc path m ∧ method = m.map upperChar
  ordered : (endpoints.map ParsedEndpoint.place).Pairwise Earlier

theorem parse_operations {yaml : Str → Option Yaml} {spec : Str} {opts : Options} {conn : ParsedConnection}
    {doc : Json} (hdoc : JsonText.parse (Text.trimSpace spec) = some doc) (hd : doc.FoldDistinct)
    (h : parse yaml spec opts = .ok conn) : OnePerOperation doc conn.endpoints := by
  obtain ⟨root, hroot, hplaces⟩ := places_of_parse h
  have hdecode : decodeRoot doc = some root := by
    rw [decodeDocument_json hdoc] at hroot
    cases hx : decodeRoot doc with
    | none =>
      rw [hx] at hroot
      cases hroot
    | some r =>
      rw [hx] at hroot
      dsimp only at hroot
      split_ifs at hroot
      cases hroot
      rfl
  have hordered : (conn.endpoints.map ParsedEndpoint.place).Pairwise Earlier := by
    rw [hplaces]
    exact pairwise_places (paths_of_decodeRoot hd hdecode).1
  refine ⟨hordered.imp ?_, ?_, hordered⟩
  · rintro p _ hearlier rfl
    exact not_earlier_self p hearlier
  · intro path method
    rw [hplaces]
    exact mem_places hd hdecode (path, method)

/-- The endpoints of an accepted document are its operations, each once and in order, and the
connection is the same for every order of the loops and of the members of the document. -/
theorem parse_reproducible (yaml : Str → Option Yaml) (spec : Str) (opts : Options)
    (conn : ParsedConnection) (doc : Json) (hdoc : JsonText.parse (Text.trimSpace spec) = some doc)
    (hd : doc.FoldDistinct) (h : parse yaml spec opts = .ok conn) :
    OnePerOperation doc conn.endpoints ∧
      ∀ (it : Iteration) (spec' : Str) (doc' : Json),
        JsonText.parse (Text.trimSpace spec') = some doc' → doc'.FoldDistinct → doc.Same doc' →
          parseIn it yaml spec' opts = .ok conn := by
  refine ⟨parse_operations hdoc hd h, ?_⟩
  intro it spec' doc' hdoc' hd' hsame
  rw [parseIn_eq it yaml opts hdoc hdoc' ⟨hd, hd', hsame⟩, h]

def Iteration.reversed : Iteration :=
  ⟨List.reverse, List.reverse, fun _ _ => List.reverse, List.reverse_perm, List.reverse_perm,
    fun _ _ => List.reverse_perm⟩

def orderedItem : Json := .obj [("get".toList, specOp "a"), ("put".toList, specOp "b")]

def reorderedItem : Json := .obj [("put".toList, specOp "b"), ("get".toList, specOp "a")]

/-- Two paths that are not in order. -/
def orderedDoc : Json :=
  .obj [("openapi".toList, .str "3.0".toList),
    ("paths".toList, .obj [("/b".toList, .obj [("get".toList, specOp "a")]), ("/a".toList, orderedItem)])]

def reorderedDoc : Json :=
  .obj [("paths".toList, .obj [("/a".toList, reorderedItem), ("/b".toList, .obj [("get".toList, specOp "a")])]),
    ("openapi".toList, .str "3.0".toList)]

theorem foldDistinct_specOp (s : String) : (specOp s).FoldDistinct :=
  ⟨List.pairwise_singleton _ _, trivial, trivial⟩

theorem foldDistinct_orderedDoc : orderedDoc.FoldDistinct :=
  ⟨by decide, trivial, ⟨by decide, ⟨by decide, foldDistinct_specOp _, trivial⟩,
    ⟨by decide, foldDistinct_specOp _, foldDistinct_specOp _, trivial⟩, trivial⟩, trivial⟩

theorem foldDistinct_reorderedDoc : reorderedDoc.FoldDistinct :=
  ⟨by decide, ⟨by decide, ⟨by decide, foldDistinct_specOp _, foldDistinct_specOp _, trivial⟩,
    ⟨by decide, foldDistinct_specOp _, trivial⟩, trivial⟩, trivial, trivial⟩

theorem same_specOp (s : String) : (specOp s).Same (specOp s) :=
  ⟨⟨⟨_, rfl, rfl⟩, trivial⟩, by simp⟩

theorem same_reorderedDoc : orderedDoc.Same reorderedDoc := by
  have hitem : orderedItem.Same reorderedItem :=
    ⟨⟨⟨_, rfl, same_specOp _⟩, ⟨_, rfl, same_specOp _⟩, trivial⟩, by decide⟩
  have hsingle : (Json.obj [("get".toList, specOp "a")]).Same (.obj [("get".toList, specOp "a")]) :=
    ⟨⟨⟨_, rfl, same_specOp _⟩, trivial⟩, by decide⟩
  exact ⟨⟨⟨_, rfl, rfl⟩, ⟨_, rfl, ⟨⟨_, rfl, hsingle⟩, ⟨_, rfl, hitem⟩, trivial⟩, by decide⟩, trivial⟩, by decide⟩

theorem exists_parse_orderedDoc : ∃ conn, parse noYaml orderedDoc.compact ⟨[]⟩ = .ok conn := by
  have h : (parse noYaml orderedDoc.compact ⟨[]⟩).toOption.map (fun c => c.name) =
      some "Untitled API".toList := by decide +kernel
  obtain ⟨conn, hconn, _⟩ := exists_ok_of_map_toOption h
  exact ⟨conn, hconn⟩

theorem parse_reproducible_orderedDoc :
    ∃ conn, parse noYaml orderedDoc.compact ⟨[]⟩ = .ok conn ∧ OnePerOperation orderedDoc conn.endpoints ∧
      parseIn .reversed noYaml reorderedDoc.compact ⟨[]⟩ = .ok conn := by
  have hdoc : JsonText.parse (Text.trimSpace orderedDoc.compact) = some orderedDoc := by decide +kernel
  have hdoc' : JsonText.parse (Text.trimSpace reorderedDoc.compact) = some reorderedDoc := by
    decide +kernel
  obtain ⟨conn, hconn⟩ := exists_parse_orderedDoc
  obtain ⟨hone, hevery⟩ :=
    parse_reproducible noYaml orderedDoc.compact ⟨[]⟩ conn orderedDoc hdoc foldDistinct_orderedDoc hconn
  exact ⟨conn, hconn, hone,
    hevery .reversed reorderedDoc.compact reorderedDoc hdoc' foldDistinct_reorderedDoc same_reorderedDoc⟩

end Janus.OpenApi
