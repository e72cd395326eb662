import Janus.Lib.Flags
import Janus.Lib.UrlText
import Janus.Portal

/-!
# The import command

Embedding of `mcp-cli import openapi`: the flags are read, the source is fetched or read
from a file, and the specification is posted to the portal with the settings in the query
string. Flags behind the source are operands, which the command does not look at, so the
request has the settings of the command line exactly when the flags come first.
-/

namespace Janus.Cli

set_option autoImplicit false

open Flags Portal

structure ImportFlags where
  dryRun : Bool
  toolPrefix : Str
  deriving Repr, DecidableEq

def importFlags (name : Str) : Option (Flag ImportFlags) :=
  if name = "dry-run".toList then some (.bool fun b s => { s with dryRun := b })
  else if name = "prefix".toList then some (.string fun v s => { s with toolPrefix := v })
  else none

/-- What a GET request for the source comes to. -/
inductive Fetch where
  | failed (cause : Str)
  | unreadable (cause : Str)
  | reply (status : Nat) (contentType body : Str)
  deriving Repr, DecidableEq

structure SourceEnv where
  get : Str → Fetch
  readFile : Str → Except Str Str

inductive SourceError where
  | fetchFailed (cause : Str)
  | unreadableBody (cause : Str)
  | status (status : Nat) (body : Str)
  | unreadableFile (cause : Str)
  deriving Repr, DecidableEq

/-- The extension of the last path element, with its dot. -/
def ext (path : Str) : Str :=
  match Url.cutLast '.' ((Url.cutLast '/' path).map Prod.snd |>.getD path) with
  | some (_, e) => '.' :: e
  | none => []

def contentTypeForSource (source : Str) : Str :=
  if Url.lower (ext source) = ".yaml".toList || Url.lower (ext source) = ".yml".toList then
    "application/yaml".toList
  else "application/json".toList

def readOpenAPISource (env : SourceEnv) (source : Str) : Except SourceError (Str × Str) :=
  if Text.hasPrefix source "http://".toList || Text.hasPrefix source "https://".toList then
    match env.get source with
    | .failed cause => .error (.fetchFailed cause)
    | .unreadable cause => .error (.unreadableBody cause)
    | .reply status contentType body =>
      if status < 200 || status ≥ 300 then .error (.status status body)
      else .ok (body, if contentType = [] then contentTypeForSource source else contentType)
  else
    match env.readFile source with
    | .error cause => .error (.unreadableFile cause)
    | .ok body => .ok (body, contentTypeForSource source)

/-- The arguments of the POST request. -/
structure ImportPost where
  path : Str
  body : Str
  contentType : Str
  deriving Repr, DecidableEq

inductive CliError where
  | flags (e : FlagError)
  | missingSource
  | source (source : Str) (e : SourceError)
  deriving Repr, DecidableEq

/-- The request, and whether the summary calls it a dry run; or an exit before it. -/
inductive Outcome where
  | exit (code : Nat) (e : CliError)
  | post (req : ImportPost) (dryRun : Bool)
  deriving Repr, DecidableEq

def importQuery (flags : ImportFlags) : Url.Values :=
  let query : Url.Values :=
    if flags.dryRun then Url.Values.set [] "dry_run".toList "true".toList else []
  if flags.toolPrefix ≠ [] then query.set "prefix".toList flags.toolPrefix else query

def importPath (flags : ImportFlags) : Str :=
  let encoded := (importQuery flags).encode
  "/api/import/openapi".toList ++ if encoded ≠ [] then '?' :: encoded else []

def runImportOpenAPI (env : SourceEnv) (args : List Str) : Outcome :=
  match Flags.parse importFlags args ⟨false, []⟩ with
  | .error e => .exit (if e = .help then 0 else 2) (.flags e)
  | .ok ([], _) => .exit 1 .missingSource
  | .ok (source :: _, flags) =>
    match readOpenAPISource env source with
    | .error e => .exit 1 (.source source e)
    | .ok (spec, contentType) => .post ⟨importPath flags, spec, contentType⟩ flags.dryRun

/-- The query string of the request. -/
def ImportPost.query (req : ImportPost) : Str := (Url.cutAt '?' req.path).2

/-- The request as the portal's handler reads it. -/
def ImportPost.received (req : ImportPost) : ImportRequest where
  isPost := true
  body := some req.body
  toolPrefix := (Url.valuesOf req.query "prefix".toList).headD []
  dryRun := (Url.valuesOf req.query "dry_run".toList).headD []

inductive ImportFlag where
  | dryRun
  | toolPrefix (p : Str)
  deriving Repr, DecidableEq

def ImportFlag.words : ImportFlag → List Str
  | .dryRun => ["--dry-run".toList]
  | .toolPrefix p => ["--prefix".toList, p]

def ImportFlag.isDryRun : ImportFlag → Bool
  | .dryRun => true
  | .toolPrefix _ => false

/-- A file name or URL that is not itself a flag. -/
structure Source where
  text : Str
  operand : readArg text = .operand

/-- One source, and each flag at most once before or behind it. -/
structure CommandLine where
  before : List ImportFlag
  source : Source
  after : List ImportFlag
  once : ((before ++ after).map ImportFlag.isDryRun).Nodup

namespace CommandLine

variable (line : CommandLine)

def flags : List ImportFlag := line.before ++ line.after

def words : List Str :=
  line.before.flatMap ImportFlag.words ++ line.source.text :: line.after.flatMap ImportFlag.words

/-- The query string has the settings of the command line and no others. -/
def Carried (req : ImportPost) : Prop :=
  ("true".toList ∈ Url.valuesOf req.query "dry_run".toList ↔ .dryRun ∈ line.flags) ∧
    ∀ p, p ∈ Url.valuesOf req.query "prefix".toList ↔ .toolPrefix p ∈ line.flags

/-- A request is sent that carries the settings, and with `--dry-run` the portal does not
write anything. -/
def Obeyed (env : SourceEnv) : Prop :=
  ∃ req mode, runImportOpenAPI env line.words = .post req mode ∧ line.Carried req ∧
    (.dryRun ∈ line.flags → ∀ (yaml : Str → Option OpenApi.Yaml) (ienv : ImportEnv) (db : Storage.DB),
      (handleOpenAPIImport yaml ienv req.received db).2 = db)

end CommandLine

def ImportFlag.apply (s : ImportFlags) : ImportFlag → ImportFlags
  | .dryRun => { s with dryRun := true }
  | .toolPrefix p => { s with toolPrefix := p }

/-- The flags before the source are read, everything from the source on is kept. -/
theorem parse_words (before : List ImportFlag) (source : Source) (rest : List Str) (s : ImportFlags) :
    Flags.parse importFlags (before.flatMap ImportFlag.words ++ source.text :: rest) s =
      .ok (source.text :: rest, before.foldl ImportFlag.apply s) := by
  induction before generalizing s with
  | nil => exact parse_operand importFlags source.operand rest s
  | cons f before ih =>
    cases f with
    | dryRun =>
      have hread : readArg "--dry-run".toList = .flag "dry-run".toList none := by decide
      have hflag : importFlags "dry-run".toList = some (.bool fun b s => { s with dryRun := b }) := rfl
      refine (parse_bool hread hflag _ s).trans ?_
      exact ih { s with dryRun := true }
    | toolPrefix p =>
      have hread : readArg "--prefix".toList = .flag "prefix".toList none := by decide
      have hflag : importFlags "prefix".toList =
          some (.string fun v s => { s with toolPrefix := v }) := rfl
      refine (parse_string hread hflag p _ s).trans ?_
      exact ih { s with toolPrefix := p }

theorem dryRun_foldl (before : List ImportFlag) (s : ImportFlags) :
    (before.foldl ImportFlag.apply s).dryRun = true ↔ s.dryRun = true ∨ .dryRun ∈ before := by
  induction before generalizing s with
  | nil => simp
  | cons f before ih =>
    rw [List.foldl_cons, ih]
    cases f with
    | dryRun => simp [ImportFlag.apply]
    | toolPrefix p => simp [ImportFlag.apply]

theorem toolPrefix_foldl_of_none {before : List ImportFlag} (h : ∀ p, .toolPrefix p ∉ before)
    (s : ImportFlags) : (before.foldl ImportFlag.apply s).toolPrefix = s.toolPrefix := by
  induction before generalizing s with
  | nil => rfl
  | cons f before ih =>
    have hrest : ∀ p, ImportFlag.toolPrefix p ∉ before := fun p hp => h p (List.mem_cons_of_mem f hp)
    rw [List.foldl_cons, ih hrest]
    cases f with
    | dryRun => rfl
    | toolPrefix p => exact absurd List.mem_cons_self (h p)

theorem toolPrefix_foldl {before : List ImportFlag} (honce : (before.map ImportFlag.isDryRun).Nodup)
    {p : Str} (h : .toolPrefix p ∈ before) (s : ImportFlags) :
    (before.foldl ImportFlag.apply s).toolPrefix = p := by
  induction before generalizing s with
  | nil => cases h
  | cons f before ih =>
    obtain ⟨hf, hrest⟩ := List.nodup_cons.mp honce
    rw [List.foldl_cons]
    rcases List.mem_cons.mp h with rfl | hmem
    · apply toolPrefix_foldl_of_none
      intro q hq
      exact hf (List.mem_map.mpr ⟨.toolPrefix q, hq, rfl⟩)
    · exact ih hrest hmem (f.apply s)

theorem nodup_importQuery (flags : ImportFlags) : ((importQuery flags).map Prod.fst).Nodup := by
  have hquery : (((if flags.dryRun then Url.Values.set [] "dry_run".toList "true".toList else [] :
      Url.Values)).map Prod.fst).Nodup := by
    split
    · exact nodup_setMember _ _ List.nodup_nil
    · exact List.nodup_nil
  unfold importQuery
  dsimp only
  split
  · exact nodup_setMember _ _ hquery
  · exact hquery

theorem query_eq (flags : ImportFlags) (body contentType : Str) :
    ImportPost.query ⟨importPath flags, body, contentType⟩ = (importQuery flags).encode := by
  have hpath : '?' ∉ "/api/import/openapi".toList := by simp
  unfold ImportPost.query importPath Url.cutAt
  dsimp only
  split
  · rw [Url.cut_append hpath]
    rfl
  · rename_i hnil
    rw [not_not.mp hnil]
    rfl

theorem valuesOf_query (flags : ImportFlags) (body contentType k : Str) :
    Url.valuesOf (ImportPost.query ⟨importPath flags, body, contentType⟩) k =
      (lookup k (importQuery flags)).getD [] := by
  rw [query_eq, Url.valuesOf_encode (nodup_importQuery flags)]

theorem lookup_dry_run (flags : ImportFlags) :
    (lookup "dry_run".toList (importQuery flags)).getD [] =
      if flags.dryRun then ["true".toList] else [] := by
  unfold importQuery
  dsimp only
  split
  · rw [Url.Values.set, lookup_setMember_of_ne (by simp)]
    split
    · rfl
    · rfl
  · split
    · rfl
    · rfl

theorem lookup_prefix (flags : ImportFlags) :
    (lookup "prefix".toList (importQuery flags)).getD [] =
      if flags.toolPrefix ≠ [] then [flags.toolPrefix] else [] := by
  unfold importQuery
  dsimp only
  split
  · rw [Url.Values.set, lookup_setMember_self]
    rfl
  · split
    · rfl
    · rfl

namespace CommandLine

variable {line : CommandLine}

/-- What the flags before the source come to. -/
def settings (line : CommandLine) : ImportFlags := line.before.foldl ImportFlag.apply ⟨false, []⟩

theorem run_words {env : SourceEnv} {spec contentType : Str}
    (h : readOpenAPISource env line.source.text = .ok (spec, contentType)) :
    runImportOpenAPI env line.words =
      .post ⟨importPath line.settings, spec, contentType⟩ line.settings.dryRun := by
  unfold runImportOpenAPI words
  rw [parse_words]
  simp only [h, settings]

theorem once_before (line : CommandLine) : (line.before.map ImportFlag.isDryRun).Nodup := by
  have h := line.once
  rw [List.map_append] at h
  exact h.of_append_left

theorem dryRun_carried_iff (spec contentType : Str) :
    "true".toList ∈ Url.valuesOf (ImportPost.query ⟨importPath line.settings, spec, contentType⟩)
      "dry_run".toList ↔ .dryRun ∈ line.before := by
  have hset := dryRun_foldl line.before ⟨false, []⟩
  rw [valuesOf_query, lookup_dry_run]
  change line.settings.dryRun = true ↔ _ at hset
  cases hd : line.settings.dryRun with
  | true =>
    rw [hd] at hset
    simpa using hset
  | false =>
    rw [hd] at hset
    simpa using hset

theorem prefix_carried_iff (spec contentType p : Str) :
    p ∈ Url.valuesOf (ImportPost.query ⟨importPath line.settings, spec, contentType⟩)
      "prefix".toList ↔ p ≠ [] ∧ .toolPrefix p ∈ line.before := by
  rw [valuesOf_query, lookup_prefix]
  by_cases hany : ∃ q, ImportFlag.toolPrefix q ∈ line.before
  · obtain ⟨q, hq⟩ := hany
    have hset : line.settings.toolPrefix = q := toolPrefix_foldl line.once_before hq _
    rw [hset]
    constructor
    · intro hp
      split at hp
      · rename_i hne
        obtain rfl := List.mem_singleton.mp hp
        exact ⟨hne, hq⟩
      · cases hp
    · rintro ⟨hne, hp⟩
      have hpq : p = q := (toolPrefix_foldl line.once_before hp ⟨false, []⟩).symm.trans hset
      subst hpq
      simp [hne]
  · have hnone : ∀ q, ImportFlag.toolPrefix q ∉ line.before := fun q hq => hany ⟨q, hq⟩
    have hset : line.settings.toolPrefix = [] := toolPrefix_foldl_of_none hnone _
    simp [hset, hnone]

/-- Flags that are given behind the source were not given before it. -/
theorem not_mem_before {f : ImportFlag} (h : f ∈ line.after) :
    ∀ g ∈ line.before, g.isDryRun ≠ f.isDryRun := by
  intro g hg he
  have hnodup := line.once
  rw [List.map_append] at hnodup
  have hdisj := List.disjoint_of_nodup_append hnodup
  exact hdisj (List.mem_map.mpr ⟨g, hg, rfl⟩) (List.mem_map.mpr ⟨f, h, he.symm⟩)

theorem carried_iff (spec contentType : Str) :
    line.Carried ⟨importPath line.settings, spec, contentType⟩ ↔
      line.after = [] ∧ .toolPrefix [] ∉ line.before := by
  unfold Carried
  rw [dryRun_carried_iff]
  simp only [prefix_carried_iff]
  constructor
  · rintro ⟨hdry, hpre⟩
    have hafter : line.after = [] := by
      apply List.eq_nil_iff_forall_not_mem.mpr
      intro f hf
      have hflags : f ∈ line.flags := List.mem_append_right _ hf
      cases f with
      | dryRun => exact not_mem_before hf _ (hdry.mpr hflags) rfl
      | toolPrefix p => exact not_mem_before hf _ ((hpre p).mpr hflags).2 rfl
    refine ⟨hafter, ?_⟩
    intro hempty
    exact ((hpre []).mpr (List.mem_append_left _ hempty)).1 rfl
  · rintro ⟨hafter, hempty⟩
    have hflags : line.flags = line.before := by rw [flags, hafter, List.append_nil]
    rw [hflags]
    refine ⟨Iff.rfl, ?_⟩
    intro p
    refine ⟨And.right, ?_⟩
    intro hp
    refine ⟨?_, hp⟩
    rintro rfl
    exact hempty hp

/-- A request that carries `dry_run=true` makes the portal write nothing. -/
theorem unchanged_of_dryRun {req : ImportPost}
    (h : Url.valuesOf req.query "dry_run".toList = ["true".toList]) (yaml : Str → Option OpenApi.Yaml)
    (ienv : ImportEnv) (db : Storage.DB) : (handleOpenAPIImport yaml ienv req.received db).2 = db := by
  unfold handleOpenAPIImport
  cases readImport yaml req.received with
  | error resp => rfl
  | ok parsed =>
    have hdry : Text.equalFold req.received.dryRun "true".toList = true := by
      simp only [ImportPost.received, h]
      decide
    simp only [hdry, if_true]

/-- With a source that can be read, the command line is obeyed exactly when all flags come
before the source and the given prefix is not empty. -/
theorem obeyed_iff (line : CommandLine) (env : SourceEnv) (spec contentType : Str)
    (h : readOpenAPISource env line.source.text = .ok (spec, contentType)) :
    line.Obeyed env ↔ line.after = [] ∧ .toolPrefix [] ∉ line.before := by
  rw [← carried_iff spec contentType]
  constructor
  · rintro ⟨req, mode, hrun, hcarried, _⟩
    rw [run_words h] at hrun
    cases hrun
    exact hcarried
  · intro hcarried
    refine ⟨_, _, run_words h, hcarried, ?_⟩
    intro hdry
    apply unchanged_of_dryRun
    have hset : line.settings.dryRun = true := by
      have hmem := (dryRun_carried_iff spec contentType).mp (hcarried.1.mpr hdry)
      exact (dryRun_foldl line.before ⟨false, []⟩).mpr (Or.inr hmem)
    rw [valuesOf_query, lookup_dry_run, if_pos hset]

end CommandLine

def specSource : Source := ⟨"spec.json".toList, by decide⟩

def titleSpec : Str :=
  Json.compact (.obj [("openapi".toList, .str "3.0".toList),
    ("info".toList, .obj [("title".toList, .str ['t'])]),
    ("servers".toList, .arr [.obj [("url".toList, .str "http://h".toList)]]),
    ("paths".toList, .obj [])])

def specEnv : SourceEnv := ⟨fun _ => .failed [], fun _ => .ok titleSpec⟩

def flagsFirst : CommandLine := ⟨[.dryRun, .toolPrefix "t_".toList], specSource, [], by decide⟩

/-- The order of the documented usage. -/
def sourceFirst : CommandLine := ⟨[], specSource, [.dryRun], by decide⟩

theorem flagsFirst_obeyed : flagsFirst.Obeyed specEnv :=
  (CommandLine.obeyed_iff flagsFirst specEnv titleSpec "application/json".toList (by decide)).mpr
    (by decide)

def idEnv : ImportEnv := ⟨['c'], fun _ => ['e'], fun _ => false⟩

theorem run_sourceFirst :
    runImportOpenAPI specEnv sourceFirst.words =
      .post ⟨"/api/import/openapi".toList, titleSpec, "application/json".toList⟩ false := by
  decide +kernel

/-- The preview is an import: the request has no `dry_run`, and the connection is written. -/
theorem sourceFirst_not_obeyed :
    sourceFirst.words = ["spec.json".toList, "--dry-run".toList] ∧ ¬ sourceFirst.Obeyed specEnv ∧
      runImportOpenAPI specEnv sourceFirst.words =
        .post ⟨"/api/import/openapi".toList, titleSpec, "application/json".toList⟩ false ∧
      (handleOpenAPIImport (fun _ => none) idEnv (ImportPost.received
        ⟨"/api/import/openapi".toList, titleSpec, "application/json".toList⟩)
        (.empty false)).2.connections.rows ≠ [] := by
  refine ⟨rfl, ?_, run_sourceFirst, by decide +kernel⟩
  rintro ⟨req, mode, hrun, hcarried, _⟩
  rw [run_sourceFirst] at hrun
  cases hrun
  exact absurd (hcarried.1.mpr List.mem_cons_self) (by decide +kernel)

end Janus.Cli
