import Janus.OpenApi

/-!
# The names of imported tools

The importer is a decoding pass followed by a naming pass (`parse_ok`): the
operations of the document, in visiting order, give a list of base names, and the
`n`-th operation of one base is named by the base alone or by the base with the
suffix `n`. Two generated names can only be equal when one of them is a bare base
and the other a suffixed one.
-/

namespace Janus.OpenApi

set_option autoImplicit false

/-- A decoded operation with the path item it stands in. -/
structure FoundOp where
  path : Str
  method : Str
  shared : List Parameter
  op : Operation
  deriving Repr, DecidableEq

def FoundOp.base (opts : Options) (f : FoundOp) : Str :=
  opts.toolNamePrefix ++ toolNameBase f.op.operationID f.method f.path

def methodOp (path : Str) (shared : List Parameter) (methodOps : List (Str × Json)) (method : Str) :
    Except ParseError (List FoundOp) :=
  match lookup method methodOps with
  | none => .ok []
  | some opRaw =>
    match decodeOperation opRaw with
    | none => .error (.decodingOperation (method.map upperChar) path)
    | some op => .ok [⟨path, method, shared, op⟩]

def pathOps (paths : List (Str × Json)) (path : Str) : Except ParseError (List FoundOp) :=
  let raw := (lookup path paths).getD .null
  match decodePathItemMeta raw, decodeMethodOps raw with
  | some shared, some methodOps =>
    (httpMethods.mapM (methodOp path shared methodOps)).map List.flatten
  | _, _ => .error (.decodingPathItem path)

/-- The operations of a document in the order in which the importer visits them. -/
def documentOps (root : Root) : Except ParseError (List FoundOp) :=
  ((sortedPaths root).mapM (pathOps root.paths)).map List.flatten

/-- The base names of a specification's operations, the given prefix included. -/
def nameBases (yaml : Str → Option Yaml) (spec : Str) (opts : Options) : List Str :=
  match decodeDocument yaml spec with
  | .error _ => []
  | .ok root =>
    match documentOps root with
    | .error _ => []
    | .ok ops => ops.map (FoundOp.base opts)

/-- The endpoint of an operation under the name it is given. -/
def FoundOp.endpoint (f : FoundOp) (name : Str) : ParsedEndpoint where
  toolName := name
  toolDescription := firstNonEmpty f.op.summary f.op.description
  path := f.path
  method := f.method.map upperChar
  parametersSchema := buildParametersSchema (mergeParameters f.shared f.op.parameters) f.op.requestBody

def addOp (opts : Options) (st : Naming) (f : FoundOp) : Naming :=
  let (name, counts) := uniqueName (f.base opts) st.counts
  ⟨counts, st.endpoints ++ [f.endpoint name]⟩

/-- A loop that decodes one element and then updates its state can decode the whole
list first. -/
theorem foldlM_eq_mapM {σ α β ε : Type} {f : σ → α → Except ε σ} {g : α → Except ε (List β)}
    {add : σ → β → σ} (hf : ∀ s a, f s a = (g a).map (List.foldl add s)) (l : List α) (s : σ) :
    l.foldlM f s = ((l.mapM g).map List.flatten).map (List.foldl add s) := by
  induction l generalizing s with
  | nil => rfl
  | cons a l ih =>
    simp only [List.foldlM_cons, List.mapM_cons, hf]
    cases hg : g a with
    | error e => rfl
    | ok bs =>
      have hl := ih (bs.foldl add s)
      cases hm : l.mapM g with
      | error e =>
        rw [hm] at hl
        exact hl
      | ok bss =>
        rw [hm] at hl
        simp only [Except.map] at hl
        simp only [bind, Except.bind, Except.map, pure, Except.pure, List.flatten_cons,
          List.foldl_append]
        exact hl

theorem importPath_eq (opts : Options) (paths : List (Str × Json)) (st : Naming) (path : Str) :
    importPath opts paths st path = (pathOps paths path).map (List.foldl (addOp opts) st) := by
  unfold importPath pathOps
  generalize (lookup path paths).getD .null = raw
  dsimp only
  cases decodePathItemMeta raw with
  | none => rfl
  | some shared =>
    cases decodeMethodOps raw with
    | none => rfl
    | some methodOps =>
      refine foldlM_eq_mapM ?_ httpMethods st
      intro s method
      unfold methodOp importOperation
      cases lookup method methodOps with
      | none => rfl
      | some opRaw =>
        cases hd : decodeOperation opRaw with
        | none => simp only [hd]; rfl
        | some op => simp only [hd]; rfl

/-- Every accepted document is decoded into operations, and its endpoints are those
operations named one after the other. -/
theorem parse_ok {yaml : Str → Option Yaml} {spec : Str} {opts : Options} {conn : ParsedConnection}
    (h : parse yaml spec opts = .ok conn) :
    ∃ root ops, decodeDocument yaml spec = .ok root ∧ documentOps root = .ok ops ∧
      conn.endpoints = (ops.foldl (addOp opts) ⟨fun _ => 0, []⟩).endpoints := by
  unfold parse at h
  cases hd : decodeDocument yaml spec with
  | error e => rw [hd] at h; cases h
  | ok root =>
    simp only [hd] at h
    rw [foldlM_eq_mapM (importPath_eq opts root.paths)] at h
    have hops : ((sortedPaths root).mapM (pathOps root.paths)).map List.flatten = documentOps root := rfl
    rw [hops] at h
    cases ho : documentOps root with
    | error e => rw [ho] at h; cases h
    | ok ops =>
      rw [ho] at h
      cases h
      exact ⟨root, ops, rfl, ho, rfl⟩

/-- Each base with the number of times it has been met so far. -/
def numbered (counts : Str → Nat) : List Str → List (Str × Nat)
  | [] => []
  | b :: bs => (b, counts b + 1) :: numbered (Function.update counts b (counts b + 1)) bs

def suffixed (b : Str) (n : Nat) : Str := if n = 1 then b else b ++ '_' :: natDigits n

theorem toolNames_foldl_addOp (opts : Options) (ops : List FoundOp) (st : Naming) :
    (ops.foldl (addOp opts) st).endpoints.map ParsedEndpoint.toolName =
      st.endpoints.map ParsedEndpoint.toolName ++
        (numbered st.counts (ops.map (FoundOp.base opts))).map fun p => suffixed p.1 p.2 := by
  induction ops generalizing st with
  | nil => simp [numbered]
  | cons f ops ih =>
    rw [List.foldl_cons, ih]
    simp [addOp, uniqueName, numbered, FoundOp.endpoint, suffixed]

theorem mem_numbered {counts : Str → Nat} {bs : List Str} {b : Str} {n : Nat} :
    (b, n) ∈ numbered counts bs ↔ counts b < n ∧ n ≤ counts b + bs.count b := by
  induction bs generalizing counts with
  | nil => simp [numbered]
  | cons a bs ih =>
    by_cases ha : a = b
    · subst a
      simp only [numbered, List.mem_cons, Prod.mk.injEq, true_and, ih, Function.update_self,
        List.count_cons_self]
      omega
    · have hba : ¬ b = a := fun he => ha he.symm
      simp [numbered, ih, List.count_cons_of_ne ha, hba]

theorem nodup_numbered (counts : Str → Nat) (bs : List Str) : (numbered counts bs).Nodup := by
  induction bs generalizing counts with
  | nil => exact List.nodup_nil
  | cons a bs ih =>
    refine List.nodup_cons.mpr ⟨?_, ih _⟩
    intro hm
    have hlt := (mem_numbered.mp hm).1
    rw [Function.update_self] at hlt
    omega

theorem underscore_notMem_natDigits (n : Nat) : '_' ∉ natDigits n :=
  Nat.underscore_not_in_toDigits

theorem natDigits_injective : Function.Injective natDigits := by
  intro n m h
  have hval := congrArg (fun ds => Nat.ofDigitChars 10 ds 0) h
  simpa [natDigits, Nat.ofDigitChars_ten_toDigits] using hval

/-- Equal names of different operations: one of them is a bare base. -/
theorem suffixed_eq {b b' : Str} {n m : Nat} (h : suffixed b n = suffixed b' m) :
    (b = b' ∧ n = m) ∨ (n = 1 ∧ m ≠ 1 ∧ b = suffixed b' m) ∨ (m = 1 ∧ n ≠ 1 ∧ b' = suffixed b n) := by
  by_cases hn : n = 1
  · by_cases hm : m = 1
    · exact Or.inl ⟨by simpa [suffixed, hn, hm] using h, by omega⟩
    · exact Or.inr (Or.inl ⟨hn, hm, by simpa [suffixed, hn] using h⟩)
  · by_cases hm : m = 1
    · exact Or.inr (Or.inr ⟨hm, hn, by simpa [suffixed, hm] using h.symm⟩)
    · simp only [suffixed, if_neg hn, if_neg hm] at h
      obtain ⟨hb, hd⟩ := Text.append_sep_inj (underscore_notMem_natDigits n)
        (underscore_notMem_natDigits m) h
      exact Or.inl ⟨hb, natDigits_injective hd⟩

/-- Some base is spelled like the suffixed name of another base that occurs often enough. -/
def SuffixCollision (bases : List Str) : Prop :=
  ∃ b ∈ bases, ∃ b' ∈ bases, ∃ n, 2 ≤ n ∧ n ≤ bases.count b' ∧ b = b' ++ '_' :: natDigits n

theorem mem_numbered_zero {bs : List Str} {b : Str} {n : Nat} :
    (b, n) ∈ numbered (fun _ => 0) bs ↔ 1 ≤ n ∧ n ≤ bs.count b := by
  rw [mem_numbered]
  omega

theorem suffixCollision_of_eq {bases : List Str} {b b' : Str} {n m : Nat}
    (hb : (b, n) ∈ numbered (fun _ => 0) bases) (hb' : (b', m) ∈ numbered (fun _ => 0) bases)
    (hm : m ≠ 1) (he : b = suffixed b' m) : SuffixCollision bases := by
  obtain ⟨hn1, hn2⟩ := mem_numbered_zero.mp hb
  obtain ⟨hm1, hm2⟩ := mem_numbered_zero.mp hb'
  have hmem : b ∈ bases := List.count_pos_iff.mp (by omega)
  have hmem' : b' ∈ bases := List.count_pos_iff.mp (by omega)
  exact ⟨b, hmem, b', hmem', m, by omega, hm2, by simpa [suffixed, hm] using he⟩

theorem nodup_suffixed_iff (bases : List Str) :
    ((numbered (fun _ => 0) bases).map fun p => suffixed p.1 p.2).Nodup ↔
      ¬ SuffixCollision bases := by
  rw [List.nodup_map_iff_inj_on (nodup_numbered _ bases)]
  constructor
  · intro hinj hc
    obtain ⟨b, hb, b', hb', n, hn, hle, he⟩ := hc
    have hmem : (b, 1) ∈ numbered (fun _ => 0) bases :=
      mem_numbered_zero.mpr ⟨by omega, List.count_pos_iff.mpr hb⟩
    have hmem' : (b', n) ∈ numbered (fun _ => 0) bases := mem_numbered_zero.mpr ⟨by omega, hle⟩
    have hne : n ≠ 1 := by omega
    have hsame := hinj _ hmem _ hmem' (by simpa [suffixed, hne] using he)
    have h1 := (Prod.mk.inj hsame).2
    omega
  · intro hnc p hp q hq h
    obtain ⟨b, n⟩ := p
    obtain ⟨b', m⟩ := q
    rcases suffixed_eq h with ⟨rfl, rfl⟩ | ⟨_, hm, he⟩ | ⟨_, hn, he⟩
    · rfl
    · exact absurd (suffixCollision_of_eq hp hq hm he) hnc
    · exact absurd (suffixCollision_of_eq hq hp hn he) hnc

theorem toolNames_of_parse {yaml : Str → Option Yaml} {spec : Str} {opts : Options}
    {conn : ParsedConnection} (h : parse yaml spec opts = .ok conn) :
    conn.endpoints.map ParsedEndpoint.toolName =
      (numbered (fun _ => 0) (nameBases yaml spec opts)).map fun p => suffixed p.1 p.2 := by
  obtain ⟨root, ops, hd, ho, he⟩ := parse_ok h
  have hb : nameBases yaml spec opts = ops.map (FoundOp.base opts) := by
    simp only [nameBases, hd, ho]
  rw [he, toolNames_foldl_addOp, hb]
  rfl

/-- The generated names of an accepted document are pairwise distinct exactly when no
base name looks like a suffixed one that is given out. -/
theorem parse_toolNames_nodup_iff (yaml : Str → Option Yaml) (spec : Str) (opts : Options)
    (conn : ParsedConnection) (h : parse yaml spec opts = .ok conn) :
    (conn.endpoints.map ParsedEndpoint.toolName).Nodup ↔
      ¬ SuffixCollision (nameBases yaml spec opts) := by
  rw [toolNames_of_parse h]
  exact nodup_suffixed_iff _

def noYaml (_ : Str) : Option Yaml := none

def specOp (operationID : String) : Json :=
  .obj [("operationId".toList, .str operationID.toList)]

/-- Three operations whose identifiers are `a`, `a` and `a_2`. -/
def suffixSpec : Str :=
  Json.compact (.obj [("openapi".toList, .str "3.0".toList),
    ("paths".toList, .obj [("/".toList, .obj [("get".toList, specOp "a"),
      ("put".toList, specOp "a"), ("post".toList, specOp "a_2")])])])

theorem toolNames_suffixSpec :
    (parse noYaml suffixSpec ⟨[]⟩).toOption.map (fun c => c.endpoints.map ParsedEndpoint.toolName) =
      some [['a'], ['a', '_', '2'], ['a', '_', '2']] := by
  decide +kernel

theorem exists_ok_of_map_toOption {ε α β : Type} {x : Except ε α} {f : α → β} {b : β}
    (h : x.toOption.map f = some b) : ∃ a, x = .ok a ∧ f a = b := by
  cases x with
  | error e => simp [Except.toOption] at h
  | ok a => exact ⟨a, rfl, Option.some.inj h⟩

theorem parse_suffixSpec :
    ∃ conn, parse noYaml suffixSpec ⟨[]⟩ = .ok conn ∧
      conn.endpoints.map ParsedEndpoint.toolName = [['a'], ['a', '_', '2'], ['a', '_', '2']] :=
  exists_ok_of_map_toOption toolNames_suffixSpec

theorem parse_suffixSpec_not_nodup :
    ∃ conn, parse noYaml suffixSpec ⟨[]⟩ = .ok conn ∧
      ¬ (conn.endpoints.map ParsedEndpoint.toolName).Nodup := by
  obtain ⟨conn, hp, hn⟩ := parse_suffixSpec
  exact ⟨conn, hp, by rw [hn]; decide⟩

theorem suffixCollision_suffixSpec : SuffixCollision (nameBases noYaml suffixSpec ⟨[]⟩) := by
  obtain ⟨conn, hp, hn⟩ := parse_suffixSpec
  by_contra hc
  have hnodup := (parse_toolNames_nodup_iff noYaml suffixSpec ⟨[]⟩ conn hp).mpr hc
  rw [hn] at hnodup
  exact absurd hnodup (by decide)

end Janus.OpenApi
