import Janus.ConfigCache
import Janus.Lib.Fields
import Janus.Lib.Flags

/-!
# The modify commands

Embedding of `mcp-cli connection modify` and `mcp-cli endpoint modify`: the record is looked
up in the listing, edited and posted as a whole. Several commands on one record, and others
that list, take their steps in any order and on any replica of the portal. The fields of the
record are what the flags say exactly when no command posts an outdated field that it
has no flag for (`kept_iff`).
-/

namespace Janus.CliModify

set_option autoImplicit false

open Storage Server Cache

inductive ConnectionFlag where
  | auth
  | desc
  | enabled
  | name
  | toolPrefix
  | secret
  | url
  deriving Repr, DecidableEq

inductive EndpointFlag where
  | connID
  | desc
  | method
  | name
  | path
  | schema
  | template
  deriving Repr, DecidableEq

/-- An endpoint as the command reads and posts it. -/
structure Endpoint where
  id : Str
  connectionID : Str
  toolName : Str
  toolDescription : Str
  path : Str
  method : Str
  parametersSchema : Str
  template : Str
  deriving Repr, DecidableEq

def ConnectionFlag.Value : ConnectionFlag → Type
  | .enabled => Bool
  | _ => Str

/-- The flags of `connection modify`. What is no Boolean disables the connection. -/
def connectionFields : Fields APIConnection ConnectionFlag Str where
  Value := ConnectionFlag.Value
  get
    | .auth, c => c.authType
    | .desc, c => c.description
    | .enabled, c => c.enabled
    | .name, c => c.name
    | .toolPrefix, c => c.toolPrefix
    | .secret, c => c.authSecretRef
    | .url, c => c.baseURL
  set
    | .auth, v, c => { c with authType := v }
    | .desc, v, c => { c with description := v }
    | .enabled, v, c => { c with enabled := v }
    | .name, v, c => { c with name := v }
    | .toolPrefix, v, c => { c with toolPrefix := v }
    | .secret, v, c => { c with authSecretRef := v }
    | .url, v, c => { c with baseURL := v }
  read
    | .enabled, s => (Flags.parseBool s).getD false
    | .auth, s | .desc, s | .name, s | .toolPrefix, s | .secret, s | .url, s => s
  visited := [.auth, .desc, .enabled, .name, .toolPrefix, .secret, .url]
  get_set := by
    intro k v r
    cases k <;> rfl
  get_set_of_ne := by
    intro j k h v r
    cases k <;> cases j <;> first | rfl | exact absurd rfl h
  visited_nodup := by decide
  mem_visited := by
    intro k
    cases k <;> decide

/-- The flags of `endpoint modify`. -/
def endpointFields : Fields Endpoint EndpointFlag Str where
  Value _ := Str
  get
    | .connID, e => e.connectionID
    | .desc, e => e.toolDescription
    | .method, e => e.method
    | .name, e => e.toolName
    | .path, e => e.path
    | .schema, e => e.parametersSchema
    | .template, e => e.template
  set
    | .connID, v, e => { e with connectionID := v }
    | .desc, v, e => { e with toolDescription := v }
    | .method, v, e => { e with method := v }
    | .name, v, e => { e with toolName := v }
    | .path, v, e => { e with path := v }
    | .schema, v, e => { e with parametersSchema := v }
    | .template, v, e => { e with template := v }
  read _ s := s
  visited := [.connID, .desc, .method, .name, .path, .schema, .template]
  get_set := by
    intro k v r
    cases k <;> rfl
  get_set_of_ne := by
    intro j k h v r
    cases k <;> cases j <;> first | rfl | exact absurd rfl h
  visited_nodup := by decide
  mem_visited := by
    intro k
    cases k <;> decide

def postConnection (fails : Bool) (newID : Str) (conn : APIConnection) (db : DB) :
    Except StoreError DB :=
  db.saveConnection fails (if conn.id = [] then { conn with id := newID } else conn)

/-- The columns that the command does not know are those that `SaveEndpoint` computes. -/
def Endpoint.row (e : Endpoint) : APIEndpoint :=
  ⟨e.id, e.connectionID, e.toolName, e.toolDescription, e.path, e.method, e.parametersSchema,
    e.template, [], 0⟩

def Endpoint.ofRow (e : APIEndpoint) : Endpoint :=
  ⟨e.id, e.connectionID, e.toolName, e.toolDescription, e.path, e.method, e.parametersSchema,
    e.template⟩

def postEndpoint (fails : Bool) (newID : Str) (e : Endpoint) (db : DB) : Except StoreError DB :=
  db.saveEndpoint fails (if e.id = [] then { e with id := newID }.row else e.row)

/-- A kind of records: its table and listing, and what a successful POST leaves of the row. -/
structure Resource where
  Row : Type
  Record : Type
  Flag : Type
  fields : Fields Record Flag Str
  id : Record → Str
  id_edit : ∀ texts r, id (fields.edit texts r) = id r
  rows : DB → List Row
  cache : Caches → TTLCache (List Row)
  setCache : TTLCache (List Row) → Caches → Caches
  ofRow : Row → Record
  post : Bool → Str → Record → DB → Except StoreError DB
  find_post : ∀ {fails newID r db db'}, id r ≠ [] → post fails newID r db = .ok db' →
    ((rows db').map ofRow).find? (fun x => id x = id r) = some r

theorem foldl_keeps {R F : Type} {X : Type} (f : R → F → R) (g : R → X) (h : ∀ r k, g (f r k) = g r)
    (ks : List F) (r : R) : g (ks.foldl f r) = g r := by
  induction ks generalizing r with
  | nil => rfl
  | cons k ks ih => rw [List.foldl_cons, ih, h]

theorem find_postConnection {fails : Bool} {newID : Str} {conn : APIConnection} {db db' : DB}
    (hid : conn.id ≠ []) (h : postConnection fails newID conn db = .ok db') :
    (db'.getConnections.map fun x => x).find? (fun x => x.id = conn.id) = some conn := by
  rw [postConnection, if_neg hid] at h
  obtain ⟨_, t, hput, rfl⟩ := DB.saveConnection_ok h
  have hfind := Table.find_upsert hput conn.id
  rw [if_pos rfl] at hfind
  rw [List.map_id']
  exact hfind

theorem find_postEndpoint {fails : Bool} {newID : Str} {e : Endpoint} {db db' : DB}
    (hid : e.id ≠ []) (h : postEndpoint fails newID e db = .ok db') :
    (db'.getAllEndpoints.map Endpoint.ofRow).find? (fun x => x.id = e.id) = some e := by
  rw [postEndpoint, if_neg hid] at h
  obtain ⟨_, t, hput, rfl⟩ := DB.saveEndpoint_ok h
  have hfind := Table.find_upsert hput e.id
  have hkey : (DB.pinned db e.row).id = e.id := rfl
  rw [if_pos hkey] at hfind
  rw [List.find?_map]
  exact congrArg (Option.map Endpoint.ofRow) hfind

def connections : Resource where
  Row := APIConnection
  Record := APIConnection
  Flag := ConnectionFlag
  fields := connectionFields
  id := APIConnection.id
  id_edit texts r := by
    apply foldl_keeps
    intro r k
    unfold Fields.put
    cases texts k with
    | none => rfl
    | some s => cases k <;> rfl
  rows := DB.getConnections
  cache := Caches.connections
  setCache cache c := { c with connections := cache }
  ofRow r := r
  post := postConnection
  find_post := find_postConnection

def endpoints : Resource where
  Row := APIEndpoint
  Record := Endpoint
  Flag := EndpointFlag
  fields := endpointFields
  id := Endpoint.id
  id_edit texts r := by
    apply foldl_keeps
    intro r k
    unfold Fields.put
    cases texts k with
    | none => rfl
    | some s => cases k <;> rfl
  rows := DB.getAllEndpoints
  cache := Caches.endpoints
  setCache cache c := { c with endpoints := cache }
  ofRow := Endpoint.ofRow
  post := postEndpoint
  find_post := find_postEndpoint

/-- The id that a command is given, which it refuses when it is empty. -/
abbrev RecordID := { id : Str // id ≠ [] }

section Commands

variable (res : Resource)

/-- Where a command stands. -/
inductive Phase (id : RecordID) where
  | waiting
  | loaded (target : res.Record) (hid : res.id target = id.1)
  | saved
  | failed

/-- The database, the caches of the replicas and the commands. -/
structure System (id : RecordID) where
  db : DB
  caches : Nat → Caches
  commands : Nat → Phase res id

inductive Action where
  | get (command replica now filled : Nat) (fault : Option Str)
  | post (command replica : Nat) (fails : Bool) (newID : Str)
  | list (replica now filled : Nat) (fault : Option Str)

variable {res} {id : RecordID}

def System.setCommand (s : System res id) (c : Nat) (p : Phase res id) : System res id :=
  { s with commands := fun i => if i = c then p else s.commands i }

def System.setCaches (s : System res id) (replica : Nat) (caches : Caches) : System res id :=
  { s with caches := fun i => if i = replica then caches else s.caches i }

/-- A listing by one replica. -/
def System.fetch (s : System res id) (replica now filled : Nat) (fault : Option Str) :
    Except Str (List res.Record) × System res id :=
  let (r, cache) := readThrough now filled fault (res.rows s.db) (res.cache (s.caches replica))
  (r.map (List.map res.ofRow), s.setCaches replica (res.setCache cache (s.caches replica)))

/-- The target of the command in the listing. -/
def search (id : RecordID) (records : List res.Record) : Phase res id :=
  match h : records.find? fun r => res.id r = id.1 with
  | none => .failed
  | some target => .loaded target (by simpa using List.find?_some h)

/-- One step, with the command that it completes. `flags` are those that each command was
started with. -/
def step (flags : Nat → res.Flag → Option Str) (s : System res id) :
    Action → System res id × List Nat
  | .get c replica now filled fault =>
    match s.commands c with
    | .waiting =>
      let (r, s') := s.fetch replica now filled fault
      match r with
      | .error _ => (s'.setCommand c .failed, [])
      | .ok records => (s'.setCommand c (search id records), [])
    | _ => (s, [])
  | .post c replica fails newID =>
    match s.commands c with
    | .loaded target _ =>
      match res.post fails newID (res.fields.edit (flags c) target) s.db with
      | .error _ => (s.setCommand c .failed, [])
      | .ok db =>
        ({ (s.setCommand c .saved).setCaches replica (invalidateCaches (s.caches replica)) with
            db := db }, [c])
    | _ => (s, [])
  | .list replica now filled fault => ((s.fetch replica now filled fault).2, [])

def start (db : DB) (caches : Nat → Caches) : System res id := ⟨db, caches, fun _ => .waiting⟩

def System.row (s : System res id) : Option res.Record :=
  ((res.rows s.db).map res.ofRow).find? fun r => res.id r = id.1

/-- Every field of the row has what the command with a flag for it has posted, and is as it was
at the start when no such command has posted. -/
def Kept (flags : Nat → res.Flag → Option Str) (first : res.Record) (s : System res id) : Prop :=
  ∃ r, s.row = some r ∧ ∀ k,
    (∀ c t, s.commands c = .saved → flags c k = some t → res.fields.get k r = res.fields.read k t) ∧
    ((∀ c, s.commands c = .saved → flags c k = none) → res.fields.get k r = res.fields.get k first)

/-- A POST that succeeds finds the fields that the command has no flag for as the listing of the
command showed them. -/
def UpToDate (flags : Nat → res.Flag → Option Str) (s : System res id) : Action → Prop
  | .post c _ fails newID =>
    ∀ target hid db r, s.commands c = .loaded target hid →
      res.post fails newID (res.fields.edit (flags c) target) s.db = .ok db →
      s.row = some r → ∀ k, flags c k = none → res.fields.get k target = res.fields.get k r
  | _ => True

/-- No field has flags of two commands. -/
def Disjoint (flags : Nat → res.Flag → Option Str) : Prop :=
  ∀ c c' k, c ≠ c' → flags c k = none ∨ flags c' k = none

variable {flags : Nat → res.Flag → Option Str}

theorem upToDate_of_idle {s : System res id} {c replica : Nat} {fails : Bool} {newID : Str}
    (h : ∀ target hid, s.commands c ≠ .loaded target hid) :
    UpToDate flags s (.post c replica fails newID) := by
  intro target hid _ _ hc
  exact absurd hc (h target hid)

theorem step_cases (s : System res id) (a : Action) :
    ((step flags s a).1.db = s.db ∧
      (∀ c, (step flags s a).1.commands c = .saved ↔ s.commands c = .saved) ∧
      UpToDate flags s a) ∨
    ∃ c replica fails newID target hid db, a = .post c replica fails newID ∧
      s.commands c = .loaded target hid ∧
      res.post fails newID (res.fields.edit (flags c) target) s.db = .ok db ∧
      (step flags s a).1.db = db ∧
      (step flags s a).1.commands = (s.setCommand c .saved).commands := by
  have hkeep (c : Nat) (p : Phase res id) (hp : p ≠ .saved) (hc : s.commands c ≠ .saved) (i : Nat) :
      (s.setCommand c p).commands i = .saved ↔ s.commands i = .saved := by
    by_cases hi : i = c
    · simp only [System.setCommand, if_pos hi, hp, false_iff]
      exact hi ▸ hc
    · simp only [System.setCommand, if_neg hi]
  cases a with
  | get c replica now filled fault =>
    left
    simp only [step]
    cases hc : s.commands c with
    | waiting =>
      have hne : s.commands c ≠ .saved := by simp [hc]
      dsimp only
      split
      · exact ⟨rfl, hkeep c .failed (by simp) hne, trivial⟩
      · next records _ =>
        refine ⟨rfl, hkeep c (search id records) ?_ hne, trivial⟩
        unfold search
        split
        · simp
        · simp
    | loaded target hid => exact ⟨rfl, fun _ => Iff.rfl, trivial⟩
    | saved => exact ⟨rfl, fun _ => Iff.rfl, trivial⟩
    | failed => exact ⟨rfl, fun _ => Iff.rfl, trivial⟩
  | post c replica fails newID =>
    simp only [step]
    cases hc : s.commands c with
    | loaded target hid =>
      dsimp only
      cases hpost : res.post fails newID (res.fields.edit (flags c) target) s.db with
      | error e =>
        left
        refine ⟨rfl, hkeep c .failed (by simp) (by simp [hc]), ?_⟩
        intro target' hid' db r hc' hpost'
        rw [hc] at hc'
        cases hc'
        rw [hpost] at hpost'
        cases hpost'
      | ok db =>
        right
        exact ⟨c, replica, fails, newID, target, hid, db, rfl, hc, hpost, rfl, rfl⟩
    | waiting => exact Or.inl ⟨rfl, fun _ => Iff.rfl, upToDate_of_idle (by simp [hc])⟩
    | saved => exact Or.inl ⟨rfl, fun _ => Iff.rfl, upToDate_of_idle (by simp [hc])⟩
    | failed => exact Or.inl ⟨rfl, fun _ => Iff.rfl, upToDate_of_idle (by simp [hc])⟩
  | list replica now filled fault =>
    left
    exact ⟨rfl, fun _ => Iff.rfl, trivial⟩

theorem row_of_db {s s' : System res id} (h : s'.db = s.db) : s'.row = s.row := by
  unfold System.row
  rw [h]

theorem kept_of_db {first : res.Record} {s s' : System res id} (hdb : s'.db = s.db)
    (hsaved : ∀ c, s'.commands c = .saved ↔ s.commands c = .saved) :
    Kept flags first s' ↔ Kept flags first s := by
  unfold Kept
  simp only [row_of_db hdb, hsaved]

theorem row_of_post {s s' : System res id} {fails : Bool} {newID : Str} {texts : res.Flag → Option Str}
    {target : res.Record} (hid : res.id target = id.1) {db : DB}
    (hpost : res.post fails newID (res.fields.edit texts target) s.db = .ok db) (hdb : s'.db = db) :
    s'.row = some (res.fields.edit texts target) := by
  have hkey : res.id (res.fields.edit texts target) = id.1 := (res.id_edit texts target).trans hid
  have hne : res.id (res.fields.edit texts target) ≠ [] := hkey ▸ id.2
  have hfind := res.find_post hne hpost
  rw [hkey] at hfind
  rw [System.row, hdb]
  exact hfind

theorem saved_setCommand (s : System res id) (c i : Nat) :
    (s.setCommand c .saved).commands i = .saved ↔ i = c ∨ s.commands i = .saved := by
  by_cases hi : i = c
  · subst hi
    simp [System.setCommand]
  · simp [System.setCommand, hi]

/-- The fields of the posted record are kept exactly when those without a flag are up to date. -/
theorem kept_post (hd : Disjoint flags) {first : res.Record} {s s' : System res id}
    (h : Kept flags first s) {c : Nat} {target r : res.Record}
    (hrow : s.row = some r) (hrow' : s'.row = some (res.fields.edit (flags c) target))
    (hsaved : ∀ i, s'.commands i = .saved ↔ i = c ∨ s.commands i = .saved) :
    Kept flags first s' ↔
      ∀ k, flags c k = none → res.fields.get k target = res.fields.get k r := by
  obtain ⟨r', hr', hkept⟩ := h
  obtain rfl : r = r' := Option.some.inj (hrow.symm.trans hr')
  constructor
  · rintro ⟨r', hr', hkept'⟩ k hk
    obtain rfl : res.fields.edit (flags c) target = r' := Option.some.inj (hrow'.symm.trans hr')
    obtain ⟨hnamed, hunnamed⟩ := hkept' k
    rw [res.fields.get_edit_of_none hk] at hnamed hunnamed
    by_cases hother : ∃ i t, s.commands i = .saved ∧ flags i k = some t
    · obtain ⟨i, t, hi, ht⟩ := hother
      exact (hnamed i t ((hsaved i).mpr (Or.inr hi)) ht).trans ((hkept k).1 i t hi ht).symm
    · have hnone (i : Nat) (hi : s.commands i = .saved) : flags i k = none := by
        apply Option.eq_none_iff_forall_ne_some.mpr
        intro t ht
        exact hother ⟨i, t, hi, ht⟩
      have hnone' (i : Nat) (hi : s'.commands i = .saved) : flags i k = none := by
        rcases (hsaved i).mp hi with rfl | hi
        · exact hk
        · exact hnone i hi
      exact (hunnamed hnone').trans ((hkept k).2 hnone).symm
  · intro hfresh
    refine ⟨_, hrow', ?_⟩
    intro k
    constructor
    · intro i t hi ht
      rcases (hsaved i).mp hi with rfl | hi
      · exact res.fields.get_edit_of_some ht target
      · by_cases hic : i = c
        · subst hic
          exact res.fields.get_edit_of_some ht target
        · have hk : flags c k = none := by
            rcases hd i c k hic with hnone | hnone
            · rw [hnone] at ht
              cases ht
            · exact hnone
          rw [res.fields.get_edit_of_none hk, hfresh k hk]
          exact (hkept k).1 i t hi ht
    · intro hnone
      have hk : flags c k = none := hnone c ((hsaved c).mpr (Or.inl rfl))
      rw [res.fields.get_edit_of_none hk, hfresh k hk]
      exact (hkept k).2 fun i hi => hnone i ((hsaved i).mpr (Or.inr hi))

theorem kept_step (hd : Disjoint flags) {first : res.Record} {s : System res id} (a : Action)
    (h : Kept flags first s) : Kept flags first (step flags s a).1 ↔ UpToDate flags s a := by
  rcases @step_cases res id flags s a with
    ⟨hdb, hsaved, hfresh⟩ | ⟨c, replica, fails, newID, target, hid, db, rfl, hc, hpost, hdb, hcommands⟩
  · constructor
    · intro _
      exact hfresh
    · intro _
      exact (kept_of_db hdb hsaved).mpr h
  · have ⟨r, hrow, _⟩ := h
    have hsaved (i : Nat) : (step flags s (.post c replica fails newID)).1.commands i = .saved ↔
        i = c ∨ s.commands i = .saved := by
      rw [hcommands]
      exact saved_setCommand s c i
    rw [kept_post hd h hrow (row_of_post hid hpost hdb) hsaved]
    constructor
    · intro hfresh target' hid' db' r' hc' _ hr' k hk
      rw [hc] at hc'
      cases hc'
      obtain rfl : r = r' := Option.some.inj (hrow.symm.trans hr')
      exact hfresh k hk
    · intro hfresh
      exact hfresh target hid db r hc hpost hrow

theorem kept_start (db : DB) (caches : Nat → Caches) {first : res.Record}
    (h : ((res.rows db).map res.ofRow).find? (fun r => res.id r = id.1) = some first) :
    Kept flags first (start db caches : System res id) := by
  refine ⟨first, h, ?_⟩
  intro k
  constructor
  · intro c t hc
    cases hc
  · intro _
    rfl

end Commands

inductive Kind where
  | connection
  | endpoint
  deriving Repr, DecidableEq

def Kind.resource : Kind → Resource
  | .connection => connections
  | .endpoint => endpoints

/-- In a run of modify commands whose flags are disjoint, from any contents of the caches, the
row is at every point what was there with the changes of the commands that have posted exactly
when every POST is up to date. -/
theorem kept_iff (kind : Kind) (id : RecordID) (flags : Nat → kind.resource.Flag → Option Str)
    (hd : Disjoint flags) (db : DB) (caches : Nat → Caches) (first : kind.resource.Record)
    (hfirst : ((kind.resource.rows db).map kind.resource.ofRow).find?
      (fun r => kind.resource.id r = id.1) = some first) (as : List Action) :
    (∀ n, Kept flags first (Run.final (step flags) (start db caches : System _ id) (as.take n))) ↔
      Run.Along (step flags) (UpToDate flags) (start db caches : System _ id) as :=
  Run.along_iff_inv (fun _ a h => kept_step hd a h) as _ (kept_start db caches hfirst)

def petConnection : APIConnection where
  id := "c1".toList
  name := "pets".toList
  description := []
  baseURL := "http://h".toList
  authType := "none".toList
  authSecretRef := []
  enabled := true
  toolPrefix := []

def petDB : DB := { DB.empty false with connections := ⟨[petConnection], by decide, by decide⟩ }

def noCaches : Nat → Caches := fun _ => ⟨.new 0, .new 0⟩

/-- `--name cats` and `--desc Pets`. -/
def petFlags : Nat → connections.Flag → Option Str
  | 0, .name => some "cats".toList
  | 1, .desc => some "Pets".toList
  | _, _ => none

theorem disjoint_petFlags : Disjoint petFlags := by
  intro c c' k hne
  match c, c' with
  | 0, 0 => exact absurd rfl hne
  | 0, 1 => cases k <;> decide
  | 0, _ + 2 => exact Or.inr (by cases k <;> rfl)
  | 1, 0 => cases k <;> decide
  | 1, 1 => exact absurd rfl hne
  | 1, _ + 2 => exact Or.inr (by cases k <;> rfl)
  | _ + 2, _ => exact Or.inl (by cases k <;> rfl)

def petID : RecordID := ⟨"c1".toList, by decide⟩

def petStart : System connections petID := start petDB noCaches

def turnSteps : List Action :=
  [.get 0 0 0 0 none, .post 0 0 false [], .get 1 0 0 0 none, .post 1 0 false []]

def raceSteps : List Action :=
  [.get 0 0 0 0 none, .get 1 0 0 0 none, .post 0 0 false [], .post 1 0 false []]

theorem kept_turnSteps :
    Kept petFlags petConnection (Run.final (step petFlags) petStart turnSteps) := by
  refine (kept_iff .connection petID petFlags disjoint_petFlags petDB noCaches petConnection rfl
    turnSteps).mpr ?_ 4
  refine ⟨trivial, ?_, trivial, ?_, trivial⟩
  · intro target hid db r hc _ hr k _
    cases hc
    cases hr
    rfl
  · intro target hid db r hc _ hr k _
    cases hc
    cases hr
    rfl

/-- Both commands read the record before either posts it, and the new name is lost. -/
theorem not_kept_raceSteps :
    Disjoint petFlags ∧
      ¬ Kept petFlags petConnection (Run.final (step petFlags) petStart raceSteps) := by
  refine ⟨disjoint_petFlags, ?_⟩
  rintro ⟨r, hr, hkept⟩
  have hname := (hkept .name).1 0 "cats".toList rfl rfl
  cases hr
  have hlost : "pets".toList = "cats".toList := hname
  revert hlost
  decide

end Janus.CliModify
