import Janus.Lib.Json

/-!
# Secret vaults

Embedding of `pkg/vault`: the local vault keeps its secrets in memory and writes
them to a file after every change, the Postgres vault keeps one sealed row for each
secret. Sealing is authenticated encryption: a box opens under the key it was
sealed with and under no other.
-/

namespace Janus.Vault

set_option autoImplicit false

/-- A plaintext sealed under a key with a nonce. -/
structure Box where
  key : Str
  nonce : Str
  plaintext : Str
  deriving Repr, DecidableEq

def Box.open? (key : Str) (b : Box) : Option Str := if b.key = key then some b.plaintext else none

inductive Provider where
  | local (secrets : List (Str × Str))
  | postgres (key : Str) (rows : List (Str × Box))
  deriving Repr, DecidableEq

inductive VaultError where
  | notInLocalVault (name : Str)
  | notInVault (name : Str)
  | decryptionFailed
  | unavailable (cause : Str)
  deriving Repr, DecidableEq

def VaultError.message : VaultError → Str
  | .notInLocalVault name => "secret ".toList ++ name ++ " not found in local vault".toList
  | .notInVault name => "secret ".toList ++ name ++ " not found in vault".toList
  | .decryptionFailed =>
    "decryption failed (wrong key?): cipher: message authentication failed".toList
  | .unavailable cause => cause

/-- `fault` is the error of a database read; the local vault reads its memory. -/
def Provider.getSecret (fault : Option Str) (name : Str) : Provider → Except VaultError Str
  | .local secrets =>
    match lookup name secrets with
    | some v => .ok v
    | none => .error (.notInLocalVault name)
  | .postgres key rows =>
    match fault with
    | some cause => .error (.unavailable cause)
    | none =>
      match lookup name rows with
      | none => .error (.notInVault name)
      | some box =>
        match box.open? key with
        | some v => .ok v
        | none => .error .decryptionFailed

/-- The local vault changes its memory before the file is written, and keeps the change
when the write fails. -/
def Provider.setSecret (fault : Option Str) (nonce name value : Str) :
    Provider → Provider × Option VaultError
  | .local secrets => (.local (setMember name value secrets), fault.map .unavailable)
  | .postgres key rows =>
    match fault with
    | some cause => (.postgres key rows, some (.unavailable cause))
    | none => (.postgres key (setMember name ⟨key, nonce, value⟩ rows), none)

def Provider.deleteSecret (fault : Option Str) (name : Str) : Provider → Provider × Option VaultError
  | .local secrets => (.local (secrets.filter fun m => m.1 ≠ name), fault.map .unavailable)
  | .postgres key rows =>
    match fault with
    | some cause => (.postgres key rows, some (.unavailable cause))
    | none => (.postgres key (rows.filter fun m => m.1 ≠ name), none)

/-- What is read in spite of a possible failure is what the vault holds. -/
theorem getSecret_of_ok {v : Provider} {fault : Option Str} {name value : Str}
    (h : v.getSecret fault name = .ok value) : v.getSecret none name = .ok value := by
  cases v with
  | «local» secrets => exact h
  | postgres key rows =>
    cases fault with
    | some cause => cases h
    | none => exact h

theorem getSecret_setSecret_self {v v' : Provider} {fault : Option Str} {nonce name value : Str}
    (h : v.setSecret fault nonce name value = (v', none)) :
    v'.getSecret none name = .ok value := by
  cases v with
  | «local» secrets =>
    obtain ⟨rfl, _⟩ := Prod.mk.inj h
    simp [Provider.getSecret, lookup_setMember_self]
  | postgres key rows =>
    cases fault with
    | some cause => cases h
    | none =>
      obtain ⟨rfl, _⟩ := Prod.mk.inj h
      simp [Provider.getSecret, lookup_setMember_self, Box.open?]

theorem getSecret_deleteSecret_of_ne {v : Provider} {fault : Option Str} {name other : Str}
    (hne : other ≠ name) : (v.deleteSecret fault name).1.getSecret none other = v.getSecret none other := by
  have hkeep {α : Type} (ms : List (Str × α)) :
      lookup other (ms.filter fun m => m.1 ≠ name) = lookup other ms := by
    simpa using lookup_filter_of_ne hne ms
  cases v with
  | «local» secrets => simp only [Provider.deleteSecret, Provider.getSecret, hkeep]
  | postgres key rows =>
    cases fault with
    | some cause => rfl
    | none => simp only [Provider.deleteSecret, Provider.getSecret, hkeep]

theorem getSecret_setSecret_of_ne {v v' : Provider} {fault : Option Str} {e : Option VaultError}
    {nonce name value other : Str} (h : v.setSecret fault nonce name value = (v', e))
    (hne : other ≠ name) : v'.getSecret none other = v.getSecret none other := by
  cases v with
  | «local» secrets =>
    obtain ⟨rfl, _⟩ := Prod.mk.inj h
    simp [Provider.getSecret, lookup_setMember_of_ne hne]
  | postgres key rows =>
    cases fault with
    | some cause =>
      obtain ⟨rfl, _⟩ := Prod.mk.inj h
      rfl
    | none =>
      obtain ⟨rfl, _⟩ := Prod.mk.inj h
      simp [Provider.getSecret, lookup_setMember_of_ne hne]

end Janus.Vault
