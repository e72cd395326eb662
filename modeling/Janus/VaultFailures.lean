import Janus.Lib.Run
import Janus.LocalVault

/-!
# Saves that fail

The local vault changes its map in memory first and then writes its file in place. A save
that stops leaves a file that can be opened as the map before or the map after only where
nothing or everything has been written, or where an empty file happens to be right; a
call that returns an error leaves the memory as it was only where it changes nothing.
-/

namespace Janus.Vault

set_option autoImplicit false

open JsonStrings

namespace Aead

variable (gcm : Aead)

theorem load_plain {data : List Byte} (hne : data ≠ [])
    (h : localVaultMagic.isPrefixOf data = false) :
    gcm.load data =
      match unmarshal data with
      | none => .error .legacyJson
      | some secrets => .ok (true, secrets) := by
  have hne' : data.isEmpty = false := List.isEmpty_eq_false_iff.mpr hne
  cases hu : unmarshal data with
  | none => simp [load, hne', h, hu]
  | some secrets => simp [load, hne', h, hu]

theorem length_magic : localVaultMagic.length = 9 := by decide +kernel

theorem load_take_magic {n : Nat} (hn : 0 < n) (hlt : n < 9) :
    gcm.load (localVaultMagic.take n) = .error .legacyJson := by
  have hall : ∀ k < 9, 0 < k → localVaultMagic.take k ≠ [] ∧
      localVaultMagic.isPrefixOf (localVaultMagic.take k) = false ∧
        unmarshal (localVaultMagic.take k) = none := by
    decide +kernel
  obtain ⟨hne, hmagic, hjson⟩ := hall n hlt hn
  rw [load_plain gcm hne hmagic, hjson]

def RejectsCuts (nonce : Nonce) (plaintext : List Byte) : Prop :=
  ∀ n < (gcm.sealWith nonce.bytes plaintext).length,
    gcm.open? nonce.bytes ((gcm.sealWith nonce.bytes plaintext).take n) = none

instance (nonce : Nonce) (plaintext : List Byte) : Decidable (gcm.RejectsCuts nonce plaintext) :=
  inferInstanceAs (Decidable (∀ n < _, _))

variable {gcm}

theorem decrypt_take {nonce : Nonce} {plaintext : List Byte} (h : gcm.RejectsCuts nonce plaintext)
    {n : Nat} (hn : n < (gcm.encrypt nonce plaintext).length) :
    ∃ e, gcm.decrypt ((gcm.encrypt nonce plaintext).take n) = .error e := by
  rw [encrypt, List.length_append, nonce.size] at hn
  have hlen : ((gcm.encrypt nonce plaintext).take n).length = n := by
    rw [List.length_take, encrypt, List.length_append, nonce.size]
    omega
  by_cases hshort : n < 12
  · refine ⟨.tooShort, ?_⟩
    rw [decrypt, hlen, if_pos hshort]
  · refine ⟨.authentication, ?_⟩
    have htake : ((gcm.encrypt nonce plaintext).take n).take 12 = nonce.bytes := by
      rw [List.take_take, Nat.min_eq_left (by omega), encrypt, ← nonce.size, List.take_left]
    have hdrop : ((gcm.encrypt nonce plaintext).take n).drop 12 =
        (gcm.sealWith nonce.bytes plaintext).take (n - 12) := by
      rw [List.drop_take, encrypt, ← nonce.size, List.drop_left]
    rw [decrypt, hlen, if_neg hshort, htake, hdrop, h (n - 12) (by omega)]

theorem load_take {nonce : Nonce} {secrets : Option StringMap}
    (h : gcm.RejectsCuts nonce (GoString.ofText (marshalIndent secrets))) {n : Nat} (hpos : 0 < n)
    (hn : n < (gcm.content nonce secrets).length) :
    ∃ e, gcm.load ((gcm.content nonce secrets).take n) = .error e := by
  rw [content, List.length_append, length_magic] at hn
  by_cases hshort : n < 9
  · refine ⟨.legacyJson, ?_⟩
    rw [content, List.take_append_of_le_length (by rw [length_magic]; omega)]
    exact load_take_magic gcm hpos hshort
  · obtain ⟨e, he⟩ := decrypt_take h (n := n - 9) (by omega)
    refine ⟨e, ?_⟩
    rw [content, List.take_append, List.take_of_length_le (by rw [length_magic]; omega), length_magic,
      load_magic, he]

end Aead

/-- An operation that saves: a write, or the migration of a legacy file. -/
inductive Saving where
  | set (name value : GoString)
  | delete (name : GoString)
  | migration
  deriving Repr, DecidableEq

def Saving.run (env : SaveEnv) (v : LocalVault) : Saving → LocalVault
  | .set name value => (v.setSecret env name value).2
  | .delete name => (v.deleteSecret env name).2
  | .migration => (v.save env).2

def Saving.after (m : StringMap) : Saving → StringMap
  | .set name value => m.insert name value
  | .delete name => m.erase name
  | .migration => m

/-- What the operation saves, unless it panics. -/
def Saving.saved (secrets : Option StringMap) : Saving → Option (Option StringMap)
  | .set name value => secrets.map fun m => some (m.insert name value)
  | .delete name => some (secrets.map fun m => m.erase name)
  | .migration => some secrets

theorem Saving.getD_saved {v : LocalVault} {op : Saving} {secrets : Option StringMap}
    (h : op.saved v.secrets = some secrets) : secrets.getD ∅ = op.after v.map := by
  unfold LocalVault.map
  cases op with
  | set name value =>
    obtain ⟨m, hm, rfl⟩ := Option.map_eq_some_iff.mp h
    rw [hm]
    rfl
  | delete name =>
    cases h
    cases v.secrets with
    | none => rfl
    | some m => rfl
  | migration =>
    cases h
    rfl

theorem Saving.file_run (v : LocalVault) (op : Saving) (nonce : Nonce) (stop : Stop) (cause : Str) :
    (op.run ⟨.ok nonce, some (stop, cause)⟩ v).file =
      match op.saved v.secrets with
      | none => v.file
      | some secrets => stop.file v.file (v.gcm.content nonce secrets) := by
  cases op with
  | set name value =>
    cases hs : v.secrets with
    | none => simp [Saving.run, Saving.saved, LocalVault.setSecret, hs]
    | some m => simp [Saving.run, Saving.saved, LocalVault.setSecret, LocalVault.save, hs]
  | delete name => rfl
  | migration => rfl

/-- The file opens, as one of the two maps. -/
def Reopens (gcm : Str → Aead) (encKey : Str) (file : Option (List Byte)) (m m' : StringMap) : Prop :=
  ∀ nonce, ∃ v, (newLocalVault gcm encKey none (.succeeds nonce) file).1 = .ok v ∧
    (v.map = m ∨ v.map = m')

/-- The operation stops before the file is truncated; or with nothing written, one of the two
maps being empty; or with everything written, and the map after it has valid strings only
or is read back as the map before it. -/
def CleanStop (op : Saving) (v : LocalVault) (nonce : Nonce) : Stop → Prop
  | .before => True
  | .after n => ∀ secrets, op.saved v.secrets = some secrets →
      (n = 0 ∧ (v.map = ∅ ∨ op.after v.map = ∅)) ∨
        ((v.gcm.content nonce secrets).length ≤ n ∧
          ((op.after v.map).Valid ∨ reread (op.after v.map) = v.map))

theorem getD_map_reread (secrets : Option StringMap) :
    (secrets.map reread).getD ∅ = reread (secrets.getD ∅) := by
  cases secrets with
  | none => rfl
  | some m => rfl

section Reopening
variable {gcm : Str → Aead} {encKey : Str} (hkey : StrongKey encKey) {m m' : StringMap}
include hkey

theorem reopens_iff_of_load {data : List Byte} {migrated : Bool} {secrets : Option StringMap}
    (h : (gcm (Sha256.sha256 encKey)).load data = .ok (migrated, secrets)) :
    Reopens gcm encKey (some data) m m' ↔ secrets.getD ∅ = m ∨ secrets.getD ∅ = m' := by
  have hopen : ∀ nonce, (newLocalVault gcm encKey none (.succeeds nonce) (some data)).1 = _ :=
    fun nonce => newLocalVault_some hkey nonce data
  simp only [h] at hopen
  constructor
  · intro hr
    obtain ⟨v, hv, hmap⟩ := hr zeroNonce
    rw [hopen] at hv
    cases hv
    exact hmap
  · exact fun hmap nonce => ⟨_, hopen nonce, hmap⟩

theorem not_reopens_of_load {data : List Byte} {e : LoadError}
    (h : (gcm (Sha256.sha256 encKey)).load data = .error e) :
    ¬ Reopens gcm encKey (some data) m m' := by
  intro hr
  obtain ⟨v, hv, _⟩ := hr zeroNonce
  rw [newLocalVault_some hkey, h] at hv
  cases hv

/-- A beginning of a saved file is opened if it is empty or whole. -/
theorem reopens_take_iff {nonce : Nonce} {secrets : Option StringMap}
    (hcuts : (gcm (Sha256.sha256 encKey)).RejectsCuts nonce (GoString.ofText (marshalIndent secrets)))
    {n : Nat} :
    Reopens gcm encKey (some (((gcm (Sha256.sha256 encKey)).content nonce secrets).take n)) m m' ↔
      (n = 0 ∧ (m = ∅ ∨ m' = ∅)) ∨
        (((gcm (Sha256.sha256 encKey)).content nonce secrets).length ≤ n ∧
          (reread (secrets.getD ∅) = m ∨ reread (secrets.getD ∅) = m')) := by
  have hlen : 0 < ((gcm (Sha256.sha256 encKey)).content nonce secrets).length := by
    rw [Aead.content, List.length_append, Aead.length_magic]
    omega
  rcases Nat.eq_zero_or_pos n with rfl | hpos
  · -- The truncated file counts as an empty vault.
    have hempty : (gcm (Sha256.sha256 encKey)).load
        (((gcm (Sha256.sha256 encKey)).content nonce secrets).take 0) = .ok (false, some ∅) := rfl
    rw [reopens_iff_of_load hkey hempty]
    simp only [Option.getD_some, true_and, Nat.le_zero, hlen.ne', false_and, or_false, eq_comm]
  · by_cases hn : n < ((gcm (Sha256.sha256 encKey)).content nonce secrets).length
    · -- Neither a part of the header nor a part of the sealed text is accepted.
      obtain ⟨e, he⟩ := Aead.load_take hcuts hpos hn
      refine iff_of_false (not_reopens_of_load hkey he) ?_
      rintro (⟨h0, _⟩ | ⟨hall, _⟩)
      · omega
      · omega
    · have hle : ((gcm (Sha256.sha256 encKey)).content nonce secrets).length ≤ n := by omega
      have hread := (gcm (Sha256.sha256 encKey)).load_content nonce secrets
      rw [List.take_of_length_le hle, reopens_iff_of_load hkey hread, getD_map_reread]
      simp only [hpos.ne', false_and, hle, true_and, false_or]

end Reopening

/-- An operation that stops somewhere leaves a file that opens as the map before or after it
exactly when it stops cleanly. -/
theorem reopens_iff {gcm : Str → Aead} {encKey : Str} (hkey : StrongKey encKey) {v : LocalVault}
    (hgcm : v.gcm = gcm (Sha256.sha256 encKey)) {data : List Byte} (hfile : v.file = some data)
    {migrated : Bool} (hload : v.gcm.load data = .ok (migrated, v.secrets)) (op : Saving)
    (nonce : Nonce) (hcuts : ∀ secrets, op.saved v.secrets = some secrets →
      v.gcm.RejectsCuts nonce (GoString.ofText (marshalIndent secrets)))
    (stop : Stop) (cause : Str) :
    Reopens gcm encKey (op.run ⟨.ok nonce, some (stop, cause)⟩ v).file v.map (op.after v.map) ↔
      CleanStop op v nonce stop := by
  have hold : Reopens gcm encKey v.file v.map (op.after v.map) := by
    rw [hfile]
    exact (reopens_iff_of_load hkey (hgcm ▸ hload)).mpr (Or.inl rfl)
  rw [Saving.file_run]
  cases hs : op.saved v.secrets with
  | none =>
    refine iff_of_true hold ?_
    cases stop with
    | before => trivial
    | after n =>
      intro secrets h
      cases hs.symm.trans h
  | some secrets =>
    cases stop with
    | before => exact iff_of_true hold trivial
    | after n =>
      have hafter : secrets.getD ∅ = op.after v.map := Saving.getD_saved hs
      have hclean : CleanStop op v nonce (.after n) ↔
          (n = 0 ∧ (v.map = ∅ ∨ op.after v.map = ∅)) ∨
            ((v.gcm.content nonce secrets).length ≤ n ∧
              ((op.after v.map).Valid ∨ reread (op.after v.map) = v.map)) := by
        unfold CleanStop
        rw [hs]
        exact ⟨fun h => h secrets rfl, fun h s hs' => Option.some.inj hs' ▸ h⟩
      rw [hclean]
      dsimp only [Stop.file]
      rw [hgcm] at hcuts ⊢
      rw [reopens_take_iff hkey (hcuts secrets hs), hafter, reread_eq_self]
      simp only [or_comm]

def secondSecret : Saving := .set (.ofText ['l']) (.ofText ['w'])

theorem rejectsCuts_secondSecret {secrets : Option StringMap}
    (h : secondSecret.saved sampleVault.secrets = some secrets) :
    sampleVault.gcm.RejectsCuts zeroNonce (GoString.ofText (marshalIndent secrets)) := by
  obtain rfl := Option.some.inj h
  decide +kernel

/-- A second secret is set, and the process dies with everything written. -/
theorem written_reopens :
    Reopens (fun _ => checksumAead) sampleKey
      (secondSecret.run ⟨.ok zeroNonce, some (.after 100, [])⟩ sampleVault).file sampleVault.map
      (secondSecret.after sampleVault.map) := by
  refine (reopens_iff strongKey_sampleKey rfl rfl load_sampleVault secondSecret zeroNonce
    (fun _ => rejectsCuts_secondSecret) (.after 100) []).mpr ?_
  intro secrets h
  obtain rfl := Option.some.inj h
  refine Or.inr ⟨by decide +kernel, Or.inl (reread_eq_self.mp ?_)⟩
  decide +kernel

/-- The process dies when the file has been truncated. -/
theorem truncated_not_reopens :
    checksumAead.load (checksumAead.content zeroNonce (some sampleSecrets)) =
        .ok (false, sampleVault.secrets) ∧
      ¬ Reopens (fun _ => checksumAead) sampleKey
        (secondSecret.run ⟨.ok zeroNonce, some (.after 0, [])⟩ sampleVault).file sampleVault.map
        (secondSecret.after sampleVault.map) := by
  refine ⟨load_sampleVault, ?_⟩
  have hempty : checksumAead.load [] = .ok (false, some ∅) := rfl
  have hfile : (secondSecret.run ⟨.ok zeroNonce, some (.after 0, [])⟩ sampleVault).file = some [] := rfl
  rw [hfile, reopens_iff_of_load strongKey_sampleKey hempty]
  decide +kernel

inductive VaultCall where
  | set (env : SaveEnv) (name value : GoString)
  | delete (env : SaveEnv) (name : GoString)
  | get (name : GoString)
  | list

/-- A vault, and the map that was last saved successfully. -/
structure Tracked where
  vault : LocalVault
  saved : StringMap

/-- What a write leaves: a successful save is of the map in memory. -/
def Tracked.wrote (s : Tracked) (r : Outcome (Option Str) × LocalVault) : Tracked :=
  ⟨r.2, if r.1 = .returned none then r.2.map else s.saved⟩

def Tracked.step (s : Tracked) : VaultCall → Tracked × List Unit
  | .set env name value => (s.wrote (s.vault.setSecret env name value), [])
  | .delete env name => (s.wrote (s.vault.deleteSecret env name), [])
  | .get _ => (s, [])
  | .list => (s, [])

def VaultCall.error (v : LocalVault) : VaultCall → Option Str
  | .set env name value =>
    match (v.setSecret env name value).1 with
    | .returned e => e
    | .panicked => none
  | .delete env name =>
    match (v.deleteSecret env name).1 with
    | .returned e => e
    | .panicked => none
  | .get _ => none
  | .list => none

/-- The map in memory is the one last saved. -/
def Tracked.Synced (s : Tracked) : Prop := s.vault.map = s.saved

/-- A write that returns an error has changed nothing that a reader sees, and the map in memory
is the one last saved. -/
def AtomicOnError (s : Tracked) (c : VaultCall) : Prop :=
  (c.error s.vault).isSome = true →
    (∀ name, (s.step c).1.vault.getSecret name = s.vault.getSecret name) ∧
      (s.step c).1.vault.listSecrets = s.vault.listSecrets ∧
        (s.step c).1.Synced

/-- The save succeeds, or there was nothing to change: a set of the value that is there, a delete
of a name that is not. -/
def Harmless (s : Tracked) : VaultCall → Prop
  | .set env name value =>
    env.Works ∨ s.vault.secrets = none ∨ s.vault.map.lookup name = some value
  | .delete env name => env.Works ∨ name ∉ s.vault.map
  | .get _ => True
  | .list => True

theorem insert_eq_self {m : StringMap} {name value : GoString} :
    (m.insert name value : StringMap) = m ↔ m.lookup name = some value := by
  constructor
  · intro h
    rw [← h, Finmap.lookup_insert]
  · intro h
    refine Finmap.ext_lookup fun k => ?_
    by_cases hk : k = name
    · rw [hk, Finmap.lookup_insert, h]
    · rw [Finmap.lookup_insert_of_ne m hk]

theorem erase_eq_self {m : StringMap} {name : GoString} :
    (m.erase name : StringMap) = m ↔ name ∉ m := by
  constructor
  · intro h
    rw [← h]
    exact Finmap.notMem_erase_self
  · intro h
    refine Finmap.ext_lookup fun k => ?_
    by_cases hk : k = name
    · rw [hk, Finmap.lookup_erase, Finmap.lookup_eq_none.mpr h]
    · rw [Finmap.lookup_erase_ne hk]

theorem getSecret_eq_iff {v v' : LocalVault} :
    (∀ name, v'.getSecret name = v.getSecret name) ↔ v'.map = v.map := by
  constructor
  · intro h
    refine Finmap.ext_lookup fun name => ?_
    have hn := h name
    unfold LocalVault.getSecret at hn
    cases hl : v.map.lookup name with
    | none =>
      cases hl' : v'.map.lookup name with
      | none => rfl
      | some value => simp [hl, hl'] at hn
    | some value =>
      cases hl' : v'.map.lookup name with
      | none => simp [hl, hl'] at hn
      | some value' => simpa [hl, hl'] using hn
  · intro h name
    unfold LocalVault.getSecret
    rw [h]

/-- A write that has changed the memory to that of `v` and then saves, from a state in which the
map in memory is the saved one. -/
theorem atomic_save_iff {s : Tracked} (hs : s.Synced) (env : SaveEnv) (v : LocalVault) :
    ((v.save env).1.isSome = true →
        (∀ name, (v.save env).2.getSecret name = s.vault.getSecret name) ∧
          (v.save env).2.listSecrets = s.vault.listSecrets ∧
            (v.save env).2.map =
              (s.wrote (.returned (v.save env).1, (v.save env).2)).saved) ↔
      env.Works ∨ v.map = s.vault.map := by
  have hmap : (v.save env).2.map = v.map := by
    rw [LocalVault.map, LocalVault.save_secrets, LocalVault.map]
  rw [← LocalVault.save_eq_none (v := v), getSecret_eq_iff, hmap]
  cases he : (v.save env).1 with
  | none => simp
  | some cause =>
    constructor
    · intro h
      exact Or.inr (h rfl).1
    · rintro (h | h)
      · cases h
      · intro _
        exact ⟨h, congrArg Finmap.keys (hmap.trans h), h.trans hs⟩

/-- Where the map in memory is the saved one, a call is atomic exactly when it is harmless. -/
theorem atomicOnError_iff {s : Tracked} (hs : s.Synced) (c : VaultCall) :
    AtomicOnError s c ↔ Harmless s c := by
  cases c with
  | get name => exact iff_of_true (fun h => by cases h) trivial
  | list => exact iff_of_true (fun h => by cases h) trivial
  | delete env name =>
    refine (atomic_save_iff hs env _).trans (or_congr_right ?_)
    rw [← erase_eq_self]
    unfold LocalVault.map
    cases s.vault.secrets with
    | none => exact iff_of_true rfl (erase_eq_self.mpr (Finmap.notMem_empty))
    | some m => exact Iff.rfl
  | set env name value =>
    cases hsec : s.vault.secrets with
    | none =>
      refine iff_of_true ?_ (Or.inr (Or.inl hsec))
      intro h
      rw [VaultCall.error, LocalVault.setSecret_none hsec] at h
      cases h
    | some m =>
      have hm : s.vault.map = m := by rw [LocalVault.map, hsec, Option.getD_some]
      have hiff := atomic_save_iff hs env ⟨s.vault.gcm, some (m.insert name value), s.vault.file⟩
      simp only [AtomicOnError, VaultCall.error, Tracked.step, LocalVault.setSecret_some hsec]
      refine hiff.trans ?_
      rw [Harmless, hsec, hm]
      exact or_congr_right (insert_eq_self.trans (by simp))

theorem Tracked.wrote_saved {s : Tracked} (env : SaveEnv) (v : LocalVault)
    (h : (v.save env).1 = none) :
    (s.wrote (.returned (v.save env).1, (v.save env).2)).Synced := by
  rw [Tracked.wrote, h]
  rfl

/-- An atomic call leaves the map in memory the saved one. -/
theorem saved_step {s : Tracked} (hs : s.Synced) (c : VaultCall)
    (h : AtomicOnError s c) : (s.step c).1.Synced := by
  by_cases he : (c.error s.vault).isSome = true
  · exact (h he).2.2
  · cases c with
    | get name => exact hs
    | list => exact hs
    | delete env name =>
      have hnone : (LocalVault.save env
          ⟨s.vault.gcm, s.vault.secrets.map fun m => m.erase name, s.vault.file⟩).1 = none := by
        simpa [VaultCall.error, LocalVault.deleteSecret] using he
      exact Tracked.wrote_saved env _ hnone
    | set env name value =>
      cases hsec : s.vault.secrets with
      | none => simpa [Tracked.step, LocalVault.setSecret_none hsec, Tracked.wrote] using hs
      | some m =>
        have hnone : (LocalVault.save env
            ⟨s.vault.gcm, some (m.insert name value), s.vault.file⟩).1 = none := by
          simpa [VaultCall.error, LocalVault.setSecret_some hsec] using he
        rw [Tracked.step, LocalVault.setSecret_some hsec]
        exact Tracked.wrote_saved env _ hnone

/-- In a run of calls on any vault, every call that returns an error is atomic exactly when every
call is harmless. -/
theorem atomicOnError_run_iff (v : LocalVault) (calls : List VaultCall) :
    Run.Along Tracked.step AtomicOnError ⟨v, v.map⟩ calls ↔
      Run.Along Tracked.step Harmless ⟨v, v.map⟩ calls :=
  have hs : Tracked.Synced ⟨v, v.map⟩ := rfl
  Run.along_congr (fun _ c h => atomicOnError_iff h c) (fun _ c h ha => saved_step h c ha) calls _ hs

def refusedSet : VaultCall :=
  .set ⟨.ok zeroNonce, some (.before, "no space left on device".toList)⟩ (.ofText ['l']) (.ofText ['w'])

theorem refusedSet_not_atomic :
    ¬ Run.Along Tracked.step AtomicOnError ⟨sampleVault, sampleVault.map⟩ [refusedSet] := by
  rintro ⟨h, _⟩
  have hget := (h rfl).1 (.ofText ['l'])
  revert hget
  decide +kernel

end Janus.Vault
