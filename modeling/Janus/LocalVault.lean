import Janus.Lib.JsonStrings
import Janus.Lib.Sha256
import Janus.Vault

/-!
# The local vault and its file

Embedding of `LocalVault` of `pkg/vault` down to the bytes of its file: the map in memory,
the sealed file with its header, and the reading of encrypted and of legacy files. A save
writes the file in place, so it can stop with the file truncated and a part of the new
content in it.
-/

namespace Janus.Vault

set_option autoImplicit false

open JsonStrings

/-- The cipher of one key. -/
structure Aead where
  sealWith : List Byte → List Byte → List Byte
  open? : List Byte → List Byte → Option (List Byte)
  open_seal : ∀ nonce plaintext, open? nonce (sealWith nonce plaintext) = some plaintext

structure Nonce where
  bytes : List Byte
  size : bytes.length = 12

def localVaultMagic : List Byte := GoString.ofText "MCPVAULT1".toList

inductive LoadError where
  | tooShort
  | authentication
  | sealedJson
  | legacyJson
  deriving Repr, DecidableEq

inductive OpenError where
  | weakKey
  | failed (cause : Str)
  | load (e : LoadError)
  | migration (cause : Str)
  deriving Repr, DecidableEq

/-- The text of an error; `cause` is that of the JSON reader. -/
def LoadError.message (cause : Str) : LoadError → Str
  | .tooShort =>
    "failed to decrypt local vault (wrong VAULT_ENCRYPTION_KEY?): ciphertext too short".toList
  | .authentication => "failed to decrypt local vault (wrong VAULT_ENCRYPTION_KEY?): ".toList ++
    VaultError.decryptionFailed.message
  | .sealedJson => cause
  | .legacyJson =>
    "local vault file is neither a valid encrypted vault nor legacy plaintext JSON: ".toList ++ cause

def OpenError.message (cause : Str) : OpenError → Str
  | .weakKey => "vault encryption key too weak (need >= 16 bytes)".toList
  | .failed cause => cause
  | .load e => e.message cause
  | .migration cause =>
    "failed to migrate legacy plaintext vault to encrypted: ".toList ++ cause

namespace Aead

variable (gcm : Aead)

def encrypt (nonce : Nonce) (plaintext : List Byte) : List Byte :=
  nonce.bytes ++ gcm.sealWith nonce.bytes plaintext

def decrypt (sealed : List Byte) : Except LoadError (List Byte) :=
  if sealed.length < 12 then .error .tooShort
  else
    match gcm.open? (sealed.take 12) (sealed.drop 12) with
    | some plaintext => .ok plaintext
    | none => .error .authentication

/-- The content of a file with the map; `none` is the nil map. -/
def content (nonce : Nonce) (secrets : Option StringMap) : List Byte :=
  localVaultMagic ++ gcm.encrypt nonce (GoString.ofText (marshalIndent secrets))

/-- What `load` finds in a file: whether it has to be migrated, and the map. -/
def load (data : List Byte) : Except LoadError (Bool × Option StringMap) :=
  if data.isEmpty then .ok (false, some ∅)
  else if localVaultMagic.isPrefixOf data then
    match gcm.decrypt (data.drop localVaultMagic.length) with
    | .error e => .error e
    | .ok plaintext =>
      match unmarshal plaintext with
      | none => .error .sealedJson
      | some secrets => .ok (false, secrets)
  else
    match unmarshal data with
    | none => .error .legacyJson
    | some secrets => .ok (true, secrets)

end Aead

/-- Where the writing of a file stops: before the file is truncated, or after that with so
many of the bytes written. -/
inductive Stop where
  | before
  | after (written : Nat)
  deriving Repr, DecidableEq

def Stop.file (old : Option (List Byte)) (new : List Byte) : Stop → Option (List Byte)
  | .before => old
  | .after n => some (new.take n)

/-- One save: the nonce that is drawn, and where the write fails. -/
structure SaveEnv where
  nonce : Except Str Nonce
  fault : Option (Stop × Str)

def SaveEnv.succeeds (nonce : Nonce) : SaveEnv := ⟨.ok nonce, none⟩

def SaveEnv.Works (env : SaveEnv) : Prop := (∃ nonce, env.nonce = .ok nonce) ∧ env.fault = none

/-- The vault together with the file at its path. -/
structure LocalVault where
  gcm : Aead
  secrets : Option StringMap
  file : Option (List Byte)

/-- A call of the code: it returns, or it panics. -/
inductive Outcome (α : Type) where
  | returned (r : α)
  | panicked
  deriving Repr, DecidableEq

namespace LocalVault

/-- `saveLocked`, with the error it returns. -/
def save (env : SaveEnv) (v : LocalVault) : Option Str × LocalVault :=
  match env.nonce with
  | .error cause => (some cause, v)
  | .ok nonce =>
    match env.fault with
    | some (stop, cause) =>
      (some cause, { v with file := stop.file v.file (v.gcm.content nonce v.secrets) })
    | none => (none, { v with file := some (v.gcm.content nonce v.secrets) })

/-- The secrets as a map; a nil map has none. -/
def map (v : LocalVault) : StringMap := v.secrets.getD ∅

def getSecret (name : GoString) (v : LocalVault) : Except GoString GoString :=
  match v.map.lookup name with
  | some value => .ok value
  | none => .error (.ofText "secret ".toList ++ name ++ .ofText " not found in local vault".toList)

theorem toOption_getSecret (v : LocalVault) (name : GoString) :
    (v.getSecret name).toOption = v.map.lookup name := by
  unfold getSecret
  cases v.map.lookup name with
  | none => rfl
  | some value => rfl

/-- The names, in no order. -/
def listSecrets (v : LocalVault) : Finset GoString := v.map.keys

/-- An assignment to an entry of a nil map panics. -/
def setSecret (env : SaveEnv) (name value : GoString) (v : LocalVault) :
    Outcome (Option Str) × LocalVault :=
  match v.secrets with
  | none => (.panicked, v)
  | some m =>
    let (e, v') := save env { v with secrets := some (m.insert name value) }
    (.returned e, v')

def deleteSecret (env : SaveEnv) (name : GoString) (v : LocalVault) :
    Outcome (Option Str) × LocalVault :=
  let (e, v') := save env { v with secrets := v.secrets.map fun m => m.erase name }
  (.returned e, v')

theorem save_secrets (env : SaveEnv) (v : LocalVault) :
    (v.save env).2.secrets = v.secrets := by
  unfold save
  split
  · rfl
  · split
    · rfl
    · rfl

theorem save_eq_none {env : SaveEnv} {v : LocalVault} :
    (v.save env).1 = none ↔ env.Works := by
  unfold save SaveEnv.Works
  cases env.nonce with
  | error cause => simp
  | ok nonce =>
    cases env.fault with
    | some f => simp
    | none => simp

theorem file_of_save (env : SaveEnv) (v : LocalVault) (h : (v.save env).1 = none) :
    ∃ nonce, (v.save env).2.file = some (v.gcm.content nonce v.secrets) := by
  obtain ⟨⟨nonce, hnonce⟩, hfault⟩ := save_eq_none.mp h
  refine ⟨nonce, ?_⟩
  rw [save, hnonce, hfault]

theorem setSecret_none {v : LocalVault} (h : v.secrets = none) (env : SaveEnv)
    (name value : GoString) : v.setSecret env name value = (.panicked, v) := by
  rw [setSecret, h]

theorem setSecret_some {v : LocalVault} {m : StringMap} (h : v.secrets = some m) (env : SaveEnv)
    (name value : GoString) :
    v.setSecret env name value =
      (.returned (save env ⟨v.gcm, some (m.insert name value), v.file⟩).1,
        (save env ⟨v.gcm, some (m.insert name value), v.file⟩).2) := by
  rw [setSecret, h]

end LocalVault

/-- `NewLocalVault`, with the file it leaves; `fault` is an error of reading the file. -/
def newLocalVault (gcm : Str → Aead) (encKey : Str) (fault : Option Str) (env : SaveEnv)
    (file : Option (List Byte)) : Except OpenError LocalVault × Option (List Byte) :=
  if (Text.bytes encKey).length < 16 then (.error .weakKey, file)
  else
    match fault with
    | some cause => (.error (.failed cause), file)
    | none =>
      match file with
      | none =>
        match LocalVault.save env ⟨gcm (Sha256.sha256 encKey), some ∅, none⟩ with
        | (none, v) => (.ok v, v.file)
        | (some cause, v) => (.error (.failed cause), v.file)
      | some data =>
        match (gcm (Sha256.sha256 encKey)).load data with
        | .error e => (.error (.load e), file)
        | .ok (false, secrets) => (.ok ⟨gcm (Sha256.sha256 encKey), secrets, file⟩, file)
        | .ok (true, secrets) =>
          match LocalVault.save env ⟨gcm (Sha256.sha256 encKey), secrets, file⟩ with
          | (none, v) => (.ok v, v.file)
          | (some cause, v) => (.error (.migration cause), v.file)

theorem magic_isPrefixOf (sealed : List Byte) :
    localVaultMagic.isPrefixOf (localVaultMagic ++ sealed) = true :=
  List.isPrefixOf_iff_prefix.mpr (List.prefix_append _ _)

theorem localVaultMagic_ne_nil : localVaultMagic ≠ [] := by decide

namespace Aead

variable (gcm : Aead)

theorem decrypt_encrypt (nonce : Nonce) (plaintext : List Byte) :
    gcm.decrypt (gcm.encrypt nonce plaintext) = .ok plaintext := by
  have hlen : ¬ (gcm.encrypt nonce plaintext).length < 12 := by
    rw [encrypt, List.length_append, nonce.size]
    omega
  have htake : (gcm.encrypt nonce plaintext).take 12 = nonce.bytes := by
    rw [encrypt, ← nonce.size, List.take_left]
  have hdrop : (gcm.encrypt nonce plaintext).drop 12 = gcm.sealWith nonce.bytes plaintext := by
    rw [encrypt, ← nonce.size, List.drop_left]
  rw [decrypt, if_neg hlen, htake, hdrop, gcm.open_seal]

theorem load_magic (sealed : List Byte) :
    gcm.load (localVaultMagic ++ sealed) =
      match gcm.decrypt sealed with
      | .error e => .error e
      | .ok plaintext =>
        match unmarshal plaintext with
        | none => .error .sealedJson
        | some secrets => .ok (false, secrets) := by
  have hne : (localVaultMagic ++ sealed).isEmpty = false := by
    rw [List.isEmpty_eq_false_iff]
    exact List.append_ne_nil_of_left_ne_nil localVaultMagic_ne_nil sealed
  rw [load, hne, if_neg Bool.false_ne_true, if_pos (magic_isPrefixOf sealed), List.drop_left]

theorem load_content (nonce : Nonce) (secrets : Option StringMap) :
    gcm.load (gcm.content nonce secrets) = .ok (false, secrets.map reread) := by
  simp only [content, load_magic, decrypt_encrypt, unmarshal_marshalIndent]

end Aead

def StrongKey (encKey : Str) : Prop := 16 ≤ (Text.bytes encKey).length

theorem newLocalVault_some {gcm : Str → Aead} {encKey : Str} (hkey : StrongKey encKey)
    (nonce : Nonce) (data : List Byte) :
    (newLocalVault gcm encKey none (.succeeds nonce) (some data)).1 =
      match (gcm (Sha256.sha256 encKey)).load data with
      | .error e => .error (.load e)
      | .ok (migrated, secrets) => .ok ⟨gcm (Sha256.sha256 encKey), secrets,
          if migrated then some ((gcm (Sha256.sha256 encKey)).content nonce secrets) else some data⟩ := by
  rw [newLocalVault, if_neg (Nat.not_lt.mpr hkey)]
  cases (gcm (Sha256.sha256 encKey)).load data with
  | error e => rfl
  | ok r =>
    obtain ⟨migrated, secrets⟩ := r
    cases migrated with
    | false => rfl
    | true => rfl

theorem newLocalVault_none {gcm : Str → Aead} {encKey : Str} (hkey : StrongKey encKey)
    (nonce : Nonce) :
    (newLocalVault gcm encKey none (.succeeds nonce) none).1 =
      .ok ⟨gcm (Sha256.sha256 encKey), some ∅,
        some ((gcm (Sha256.sha256 encKey)).content nonce (some ∅))⟩ := by
  rw [newLocalVault, if_neg (Nat.not_lt.mpr hkey)]
  rfl

/-- The secrets of the provider are the texts in the vault. -/
def Represents (v : LocalVault) (secrets : List (Str × Str)) : Prop :=
  ∀ name, v.map.lookup (.ofText name) = (lookup name secrets).map GoString.ofText

theorem getSecret_of_represents {v : LocalVault} {secrets : List (Str × Str)}
    (h : Represents v secrets) (fault : Option Str) (name : Str) :
    (v.getSecret (.ofText name)).toOption =
      ((Provider.local secrets).getSecret fault name).toOption.map .ofText := by
  rw [LocalVault.toOption_getSecret, h name, Provider.getSecret]
  cases lookup name secrets with
  | none => rfl
  | some value => rfl

/-- A set, whether its save succeeds or not, is the provider's. -/
theorem represents_setSecret {v : LocalVault} {m : StringMap} (hm : v.secrets = some m)
    {secrets : List (Str × Str)} (h : Represents v secrets) (env : SaveEnv) (name value : Str) :
    Represents (v.setSecret env (.ofText name) (.ofText value)).2 (setMember name value secrets) := by
  have hmap : v.map = m := by rw [LocalVault.map, hm, Option.getD_some]
  intro other
  rw [LocalVault.setSecret_some hm, LocalVault.map, LocalVault.save_secrets, Option.getD_some]
  by_cases hn : other = name
  · rw [hn, Finmap.lookup_insert, lookup_setMember_self, Option.map_some]
  · have hne : GoString.ofText other ≠ .ofText name := fun he => hn (GoString.ofText_inj.mp he)
    rw [Finmap.lookup_insert_of_ne m hne, lookup_setMember_of_ne hn, ← hmap]
    exact h other

def checksum (bytes : List Byte) : Byte := bytes.foldl (fun acc b => acc * 31 + b + 1) 7

/-- A cipher that hides nothing and appends sixteen bytes computed from nonce and plaintext. -/
def checksumAead : Aead where
  sealWith nonce plaintext := plaintext ++ List.replicate 16 (checksum (nonce ++ plaintext))
  open? nonce sealed :=
    if sealed.drop (sealed.length - 16) =
        List.replicate 16 (checksum (nonce ++ sealed.take (sealed.length - 16))) then
      some (sealed.take (sealed.length - 16))
    else none
  open_seal nonce plaintext := by
    have hlen : (plaintext ++ List.replicate 16 (checksum (nonce ++ plaintext))).length - 16 =
        plaintext.length := by
      rw [List.length_append, List.length_replicate, Nat.add_sub_cancel]
    rw [hlen, List.take_left, List.drop_left, if_pos rfl]

def zeroNonce : Nonce := ⟨List.replicate 12 0, rfl⟩

def sampleKey : Str := "0123456789abcdef".toList

theorem strongKey_sampleKey : StrongKey sampleKey := by
  unfold StrongKey
  decide +kernel

def sampleSecrets : StringMap := (∅ : StringMap).insert (.ofText ['k']) (.ofText ['v'])

def sampleVault : LocalVault where
  gcm := checksumAead
  secrets := some sampleSecrets
  file := some (checksumAead.content zeroNonce (some sampleSecrets))

theorem valid_sampleSecrets : sampleSecrets.Valid := by
  rw [← reread_eq_self]
  decide +kernel

theorem load_sampleVault :
    checksumAead.load (checksumAead.content zeroNonce (some sampleSecrets)) =
      .ok (false, some sampleSecrets) := by
  rw [Aead.load_content, Option.map_some, reread_of_valid valid_sampleSecrets]

end Janus.Vault
