import Janus.Lib.Run
import Janus.Versions

/-!
# Concurrent saves of an endpoint

A save is a read of the stored hash and version followed by a write, with no transaction
around them. `saveStep` lets the reads and the writes of any number of savers, on one
replica or on several, happen in any order. Where every write still finds what its own
read saw, a version of a row stands for one definition.
-/

namespace Janus.Server

set_option autoImplicit false

open Storage

/-- What the read of a save returns: the hash and the version of the stored row. -/
def selectEndpoint (id : Str) (db : DB) : Option (Str × Nat) :=
  (db.endpoints.find id).map fun row => (row.definitionHash, row.version)

/-- The row that a save writes after its read. -/
def versioned (seen : Option (Str × Nat)) (ep : APIEndpoint) : APIEndpoint :=
  { ep with
    definitionHash := savedHash ep
    version :=
      match seen with
      | none => 1
      | some (hash, version) => if hash ≠ savedHash ep then version + 1 else version }

/-- The write of a save. -/
def upsertEndpoint (fails : Bool) (row : APIEndpoint) (db : DB) : Except StoreError DB :=
  if fails then .error .unavailable
  else if db.foreignKeys && (db.connections.find row.connectionID).isNone then
    .error .foreignKeyViolation
  else
    match db.endpoints.upsert row with
    | none => .error .uniqueViolation
    | some t => .ok { db with endpoints := t }

/-- A save on its own is its read and then its write. -/
theorem saveEndpoint_eq_upsert (fails : Bool) (ep : APIEndpoint) (db : DB) :
    db.saveEndpoint fails ep = upsertEndpoint fails (versioned (selectEndpoint ep.id db) ep) db := by
  have hrow : db.pinned ep = versioned (selectEndpoint ep.id db) ep := by
    unfold DB.pinned versioned selectEndpoint
    cases db.endpoints.find ep.id with
    | none => rfl
    | some old => rfl
  rw [DB.saveEndpoint, upsertEndpoint, hrow]
  rfl

theorem upsertEndpoint_ok {fails : Bool} {row : APIEndpoint} {db db' : DB}
    (h : upsertEndpoint fails row db = .ok db') :
    ∃ t, db.endpoints.upsert row = some t ∧ db' = { db with endpoints := t } := by
  unfold upsertEndpoint at h
  split at h
  · cases h
  · split at h
    · cases h
    · cases hu : db.endpoints.upsert row with
      | none => simp [hu] at h
      | some t =>
        simp only [hu, Except.ok.injEq] at h
        exact ⟨t, rfl, h.symm⟩

/-- A save between its read and its write. -/
structure Pending where
  ep : APIEndpoint
  seen : Option (Str × Nat)

/-- The database, the saves that have read and not yet written, and every row that was ever
committed. -/
structure Savers where
  db : DB
  pending : Nat → Option Pending
  committed : List APIEndpoint

inductive SaveStep where
  | select (saver : Nat) (ep : APIEndpoint)
  | upsert (saver : Nat) (fails : Bool)

def setPending (saver : Nat) (p : Option Pending) (s : Savers) : Savers :=
  { s with pending := fun n => if n = saver then p else s.pending n }

def saveStep (s : Savers) : SaveStep → Savers × List APIEndpoint
  | .select saver ep => (setPending saver (some ⟨ep, selectEndpoint ep.id s.db⟩) s, [])
  | .upsert saver fails =>
    match s.pending saver with
    | none => (s, [])
    | some p =>
      match upsertEndpoint fails (versioned p.seen p.ep) s.db with
      | .error _ => (setPending saver none s, [])
      | .ok db =>
        let row := versioned p.seen p.ep
        ({ setPending saver none s with db := db, committed := s.committed ++ [row] }, [row])

/-- Nobody has saved yet; the rows that are there count as committed. -/
def startSavers (db : DB) : Savers := ⟨db, fun _ => none, db.endpoints.rows⟩

/-- A write finds the hash and the version that its own read saw. -/
def Undisturbed (s : Savers) : SaveStep → Prop
  | .select _ _ => True
  | .upsert saver _ => ∀ p, s.pending saver = some p → selectEndpoint p.ep.id s.db = p.seen

/-- No two committed rows of one endpoint have the same version and different hashes. -/
def OneDefinition (s : Savers) : Prop :=
  ∀ r ∈ s.committed, ∀ r' ∈ s.committed,
    r.id = r'.id → r.version = r'.version → r.definitionHash = r'.definitionHash

/-- The stored row is the newest of its endpoint: every committed one is older, or has its
version and its hash. -/
def NewestStored (s : Savers) : Prop :=
  ∀ r ∈ s.committed, ∃ row, s.db.endpoints.find r.id = some row ∧
    (r.version < row.version ∨ (r.version = row.version ∧ r.definitionHash = row.definitionHash))

theorem newestStored_start (db : DB) : NewestStored (startSavers db) := by
  intro r hr
  exact ⟨r, Table.find_eq_some.mpr ⟨hr, rfl⟩, Or.inr ⟨rfl, rfl⟩⟩

theorem oneDefinition_start (db : DB) : OneDefinition (startSavers db) := by
  intro r hr r' hr' hid _
  rw [Table.eq_of_key_eq (t := db.endpoints) hr hr' hid]

/-- The row of an undisturbed write is newer than every committed row of its endpoint, or
has its version and its hash. -/
theorem versioned_newest {s : Savers} (hn : NewestStored s) {p : Pending}
    (hseen : selectEndpoint p.ep.id s.db = p.seen) {r : APIEndpoint} (hr : r ∈ s.committed)
    (hid : r.id = p.ep.id) :
    r.version < (versioned p.seen p.ep).version ∨
      (r.version = (versioned p.seen p.ep).version ∧
        r.definitionHash = (versioned p.seen p.ep).definitionHash) := by
  obtain ⟨row, hfind, hrow⟩ := hn r hr
  rw [hid] at hfind
  have hsome : p.seen = some (row.definitionHash, row.version) := by
    rw [← hseen, selectEndpoint, hfind]
    rfl
  rw [hsome]
  dsimp only [versioned]
  by_cases hne : row.definitionHash ≠ savedHash p.ep
  · rw [if_pos hne]
    left
    rcases hrow with hlt | ⟨heq, _⟩
    · omega
    · omega
  · rw [if_neg hne]
    have hsame : row.definitionHash = savedHash p.ep := not_not.mp hne
    rcases hrow with hlt | ⟨heq, hhash⟩
    · exact Or.inl hlt
    · exact Or.inr ⟨heq, hhash.trans hsame⟩

theorem newestStored_commit {s : Savers} (hn : NewestStored s) {p : Pending}
    (hseen : selectEndpoint p.ep.id s.db = p.seen)
    {t : Table APIEndpoint APIEndpoint.id APIEndpoint.toolName}
    (ht : s.db.endpoints.upsert (versioned p.seen p.ep) = some t) {r : APIEndpoint}
    (hr : r ∈ s.committed ++ [versioned p.seen p.ep]) :
    ∃ row, t.find r.id = some row ∧
      (r.version < row.version ∨ (r.version = row.version ∧ r.definitionHash = row.definitionHash)) := by
  have hfind := Table.find_upsert ht r.id
  by_cases hid : p.ep.id = r.id
  · rw [if_pos (show (versioned p.seen p.ep).id = r.id from hid)] at hfind
    refine ⟨_, hfind, ?_⟩
    rcases List.mem_append.mp hr with hr | hr
    · exact versioned_newest hn hseen hr hid.symm
    · rw [List.mem_singleton.mp hr]
      exact Or.inr ⟨rfl, rfl⟩
  · rw [if_neg (show (versioned p.seen p.ep).id ≠ r.id from hid)] at hfind
    rcases List.mem_append.mp hr with hr | hr
    · obtain ⟨row, hrow, hnewest⟩ := hn r hr
      exact ⟨row, hfind.trans hrow, hnewest⟩
    · rw [List.mem_singleton.mp hr] at hid
      exact absurd rfl hid

theorem oneDefinition_commit {s : Savers} (hn : NewestStored s) (hone : OneDefinition s) {p : Pending}
    (hseen : selectEndpoint p.ep.id s.db = p.seen) {r r' : APIEndpoint}
    (hr : r ∈ s.committed ++ [versioned p.seen p.ep])
    (hr' : r' ∈ s.committed ++ [versioned p.seen p.ep]) (hid : r.id = r'.id)
    (hversion : r.version = r'.version) : r.definitionHash = r'.definitionHash := by
  -- An old row that has the version of the new one has its hash.
  have hnew {x : APIEndpoint} (hx : x ∈ s.committed) (hxid : x.id = p.ep.id)
      (hxv : x.version = (versioned p.seen p.ep).version) :
      x.definitionHash = (versioned p.seen p.ep).definitionHash := by
    rcases versioned_newest hn hseen hx hxid with hlt | ⟨_, hhash⟩
    · omega
    · exact hhash
  rcases List.mem_append.mp hr with hr | hr
  · rcases List.mem_append.mp hr' with hr' | hr'
    · exact hone r hr r' hr' hid hversion
    · rw [List.mem_singleton.mp hr'] at hid hversion ⊢
      exact hnew hr hid hversion
  · rcases List.mem_append.mp hr' with hr' | hr'
    · rw [List.mem_singleton.mp hr] at hid hversion ⊢
      exact (hnew hr' hid.symm hversion.symm).symm
    · rw [List.mem_singleton.mp hr, List.mem_singleton.mp hr']

/-- What a step does: it leaves the rows alone, or it commits the row of a pending save. -/
theorem saveStep_cases (s : Savers) (a : SaveStep) :
    ((saveStep s a).1.db = s.db ∧ (saveStep s a).1.committed = s.committed) ∨
      ∃ saver fails p t, a = .upsert saver fails ∧ s.pending saver = some p ∧
        s.db.endpoints.upsert (versioned p.seen p.ep) = some t ∧
        (saveStep s a).1.db = { s.db with endpoints := t } ∧
        (saveStep s a).1.committed = s.committed ++ [versioned p.seen p.ep] := by
  cases a with
  | select saver ep => exact Or.inl ⟨rfl, rfl⟩
  | upsert saver fails =>
    cases hp : s.pending saver with
    | none =>
      exact Or.inl ⟨by simp only [saveStep, hp], by simp only [saveStep, hp]⟩
    | some p =>
      cases hu : upsertEndpoint fails (versioned p.seen p.ep) s.db with
      | error e =>
        exact Or.inl ⟨by simp only [saveStep, hp, hu, setPending], by
          simp only [saveStep, hp, hu, setPending]⟩
      | ok db =>
        obtain ⟨t, ht, rfl⟩ := upsertEndpoint_ok hu
        right
        refine ⟨saver, fails, p, t, rfl, hp, ht, ?_, ?_⟩
        · simp only [saveStep, hp, hu]
        · simp only [saveStep, hp, hu]

theorem newest_one_saveStep (s : Savers) (a : SaveStep) (h : NewestStored s ∧ OneDefinition s)
    (ha : Undisturbed s a) : NewestStored (saveStep s a).1 ∧ OneDefinition (saveStep s a).1 := by
  obtain ⟨hn, hone⟩ := h
  unfold NewestStored OneDefinition
  rcases saveStep_cases s a with ⟨hdb, hcommitted⟩ | ⟨saver, fails, p, t, rfl, hp, ht, hdb, hcommitted⟩
  · rw [hdb, hcommitted]
    exact ⟨hn, hone⟩
  · rw [hdb, hcommitted]
    have hseen := ha p hp
    exact ⟨fun r hr => newestStored_commit hn hseen ht hr,
      fun r hr r' hr' => oneDefinition_commit hn hone hseen hr hr'⟩

/-- In every interleaving of saves in which every write finds what its read saw, no version
of an endpoint ever stands for two definitions. -/
theorem oneDefinition_final (db : DB) (steps : List SaveStep)
    (h : Run.Along saveStep Undisturbed (startSavers db) steps) :
    OneDefinition (Run.final saveStep (startSavers db) steps) :=
  (Run.inv_final newest_one_saveStep steps (startSavers db)
    ⟨newestStored_start db, oneDefinition_start db⟩ h).2

/-- Both savers read before either of them writes. -/
def raceSteps : List SaveStep :=
  [.select 1 (versionEndpoint ['/', 'a']), .select 2 (versionEndpoint ['/', 'b']), .upsert 1 false,
    .upsert 2 false]

theorem committed_raceSteps :
    ((Run.final saveStep (startSavers (.empty false)) raceSteps).committed.map fun r =>
      (r.id, r.version, decide (r.definitionHash = savedHash (versionEndpoint ['/', 'a'])))) =
        [(['e'], 1, true), (['e'], 1, false)] := by
  decide +kernel

/-- Version 1 is committed with two definitions. -/
theorem raceSteps_not_oneDefinition :
    ¬ OneDefinition (Run.final saveStep (startSavers (.empty false)) raceSteps) := by
  intro h
  have hc := committed_raceSteps
  revert h hc
  generalize Run.final saveStep (startSavers (.empty false)) raceSteps = s
  intro h hc
  match hs : s.committed with
  | [r, r'] =>
    rw [hs] at hc
    simp only [List.map_cons, List.map_nil, List.cons.injEq, Prod.mk.injEq, decide_eq_true_eq,
      decide_eq_false_iff_not, and_true] at hc
    obtain ⟨⟨hid, hv, hhash⟩, hid', hv', hhash'⟩ := hc
    have hsame := h r (by simp [hs]) r' (by simp [hs]) (hid.trans hid'.symm) (hv.trans hv'.symm)
    exact hhash' (hsame.symm.trans hhash)
  | [] => simp [hs] at hc
  | [_] => simp [hs] at hc
  | _ :: _ :: _ :: _ => simp [hs] at hc

/-- The second saver reads after the first one has written. -/
def turnSteps : List SaveStep :=
  [.select 1 (versionEndpoint ['/', 'a']), .upsert 1 false, .select 2 (versionEndpoint ['/', 'b']),
    .upsert 2 false]

theorem turnSteps_oneDefinition :
    OneDefinition (Run.final saveStep (startSavers (.empty false)) turnSteps) := by
  refine oneDefinition_final (.empty false) turnSteps ⟨trivial, ?_, trivial, ?_, trivial⟩
  · intro p hp
    cases hp
    rfl
  · intro p hp
    cases hp
    rfl

end Janus.Server
