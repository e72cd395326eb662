import Janus.Lib.Base64
import Janus.Lib.Run
import Janus.LocalVault

/-!
# The two vault providers

The local vault writes its whole map as JSON, the Postgres vault seals every value by
itself. Both do what a plain map does, until the local vault is restarted with a value
that is no valid UTF-8, or a name has a NUL byte in it, which a TEXT column refuses.
-/

namespace Janus.Vault

set_option autoImplicit false

open JsonStrings

structure PostgresVault where
  gcm : Aead
  rows : Finmap fun _ : GoString => Str

inductive PostgresError where
  | failed (cause : Str)
  | invalidText
  | notFound (name : GoString)
  | base64
  | load (e : LoadError)
  deriving Repr, DecidableEq

/-- A value of a TEXT column is valid UTF-8 without a NUL byte. -/
def IsColumnText (b : GoString) : Prop := b.Valid ∧ 0 ∉ b

instance (b : GoString) : Decidable (IsColumnText b) := inferInstanceAs (Decidable (_ ∧ _))

namespace PostgresVault

/-- A statement on one name: it may fail, and the name must be a text. -/
def statement (fault : Option Str) (name : GoString) : Option PostgresError :=
  match fault with
  | some cause => some (.failed cause)
  | none => if IsColumnText name then none else some .invalidText

def encrypt (nonce : Nonce) (plaintext : GoString) (v : PostgresVault) : Str :=
  Base64.encode (v.gcm.encrypt nonce plaintext)

def decrypt (v : PostgresVault) (encoded : Str) : Except PostgresError GoString :=
  match Base64.decode encoded with
  | none => .error .base64
  | some data => (v.gcm.decrypt data).mapError .load

def getSecret (fault : Option Str) (name : GoString) (v : PostgresVault) :
    Except PostgresError GoString :=
  match statement fault name with
  | some e => .error e
  | none =>
    match v.rows.lookup name with
    | none => .error (.notFound name)
    | some ct => v.decrypt ct

def setSecret (nonce : Except Str Nonce) (fault : Option Str) (name value : GoString)
    (v : PostgresVault) : Option PostgresError × PostgresVault :=
  match nonce with
  | .error cause => (some (.failed cause), v)
  | .ok nonce =>
    match statement fault name with
    | some e => (some e, v)
    | none => (none, { v with rows := v.rows.insert name (v.encrypt nonce value) })

def listSecrets (fault : Option Str) (v : PostgresVault) : Except PostgresError (Finset GoString) :=
  match fault with
  | some cause => .error (.failed cause)
  | none => .ok v.rows.keys

def deleteSecret (fault : Option Str) (name : GoString) (v : PostgresVault) :
    Option PostgresError × PostgresVault :=
  match statement fault name with
  | some e => (some e, v)
  | none => (none, { v with rows := v.rows.erase name })

theorem decrypt_encrypt (v : PostgresVault) (nonce : Nonce) (plaintext : GoString) :
    v.decrypt (v.encrypt nonce plaintext) = .ok plaintext := by
  rw [decrypt, encrypt, Base64.decode_encode]
  dsimp only
  rw [v.gcm.decrypt_encrypt]
  rfl

end PostgresVault

/-- A call with a name that is valid UTF-8, the two providers drawing a nonce each, or a restart
of the process. -/
inductive VaultOp where
  | set (nonce nonce' : Nonce) (name : Str) (value : GoString)
  | delete (nonce : Nonce) (name : Str)
  | get (name : Str)
  | list
  | restart (nonce : Nonce)

/-- What a caller sees; of an error, that there is one. -/
inductive Answer where
  | value (r : Option GoString)
  | names (r : Option (Finset GoString))
  | done (ok : Bool)
  | panicked
  deriving DecidableEq

def Outcome.answer : Outcome (Option Str) → Answer
  | .returned e => .done e.isNone
  | .panicked => .panicked

def LocalVault.call (gcm : Str → Aead) (encKey : Str) (v : LocalVault) : VaultOp → Answer × LocalVault
  | .set nonce _ name value =>
    ((v.setSecret (.succeeds nonce) (.ofText name) value).1.answer,
      (v.setSecret (.succeeds nonce) (.ofText name) value).2)
  | .delete nonce name =>
    ((v.deleteSecret (.succeeds nonce) (.ofText name)).1.answer,
      (v.deleteSecret (.succeeds nonce) (.ofText name)).2)
  | .get name => (.value (v.getSecret (.ofText name)).toOption, v)
  | .list => (.names (some v.listSecrets), v)
  | .restart nonce =>
    match (newLocalVault gcm encKey none (.succeeds nonce) v.file).1 with
    | .ok v' => (.done true, v')
    | .error _ => (.done false, v)

/-- The Postgres vault, without failures; a restart leaves the table as it is. -/
def PostgresVault.call (v : PostgresVault) : VaultOp → Answer × PostgresVault
  | .set _ nonce' name value =>
    (.done (v.setSecret (.ok nonce') none (.ofText name) value).1.isNone,
      (v.setSecret (.ok nonce') none (.ofText name) value).2)
  | .delete _ name =>
    (.done (v.deleteSecret none (.ofText name)).1.isNone, (v.deleteSecret none (.ofText name)).2)
  | .get name => (.value (v.getSecret none (.ofText name)).toOption, v)
  | .list => (.names (v.listSecrets none).toOption, v)
  | .restart _ => (.done true, v)

def plainCall (m : StringMap) : VaultOp → Answer × StringMap
  | .set _ _ name value => (.done true, m.insert (.ofText name) value)
  | .delete _ name => (.done true, m.erase (.ofText name))
  | .get name => (.value (m.lookup (.ofText name)), m)
  | .list => (.names (some m.keys), m)
  | .restart _ => (.done true, m)

structure Vaults where
  lv : LocalVault
  pg : PostgresVault
  plain : StringMap

section Runs
variable (gcm : Str → Aead) (encKey : Str)

def Vaults.start (nonce : Nonce) : Vaults where
  lv := ⟨gcm (Sha256.sha256 encKey), some ∅,
    some ((gcm (Sha256.sha256 encKey)).content nonce (some ∅))⟩
  pg := ⟨gcm (Sha256.sha256 encKey), ∅⟩
  plain := ∅

def Vaults.step (s : Vaults) (op : VaultOp) : Vaults × List Unit :=
  (⟨(s.lv.call gcm encKey op).2, (s.pg.call op).2, (plainCall s.plain op).2⟩, [])

/-- The two providers answer as the plain map does. -/
def SameAnswers (s : Vaults) (op : VaultOp) : Prop :=
  (s.lv.call gcm encKey op).1 = (plainCall s.plain op).1 ∧
    (s.pg.call op).1 = (plainCall s.plain op).1

/-- The operation is answered as by the plain map, and so is every read after it. -/
def Agree (s : Vaults) (op : VaultOp) : Prop :=
  SameAnswers gcm encKey s op ∧
    (∀ name, SameAnswers gcm encKey (s.step gcm encKey op).1 (.get name)) ∧
      SameAnswers gcm encKey (s.step gcm encKey op).1 .list

/-- No name that is written has a NUL byte, and at a restart every stored value is valid UTF-8. -/
def Faithful (s : Vaults) : VaultOp → Prop
  | .set _ _ name _ => 0 ∉ GoString.ofText name
  | .delete _ name => 0 ∉ GoString.ofText name
  | .get _ => True
  | .list => True
  | .restart _ => ∀ name value, s.plain.lookup name = some value → value.Valid

/-- The memory and the file of the local vault hold the plain map, and so does the table. -/
structure Coupled (s : Vaults) : Prop where
  gcm : s.lv.gcm = gcm (Sha256.sha256 encKey)
  memory : s.lv.secrets = some s.plain
  file : ∃ nonce, s.lv.file = some (s.lv.gcm.content nonce (some s.plain))
  rows : ∀ name, (s.pg.rows.lookup name).map s.pg.decrypt = (s.plain.lookup name).map .ok
  names : ∀ name ∈ s.plain, IsColumnText name

end Runs

section Coupling
variable {gcm : Str → Aead} {encKey : Str} {s : Vaults}

theorem Coupled.map (h : Coupled gcm encKey s) : s.lv.map = s.plain := by
  rw [LocalVault.map, h.memory, Option.getD_some]

theorem Coupled.mem_rows (h : Coupled gcm encKey s) {name : GoString} :
    name ∈ s.pg.rows ↔ name ∈ s.plain := by
  have hr := congrArg Option.isSome (h.rows name)
  rw [Option.isSome_map, Option.isSome_map] at hr
  rw [← Finmap.lookup_isSome, ← Finmap.lookup_isSome, hr]

theorem Coupled.get (h : Coupled gcm encKey s) (name : Str) : SameAnswers gcm encKey s (.get name) := by
  constructor
  · simp only [LocalVault.call, plainCall, LocalVault.toOption_getSecret, h.map]
  · have hrow := h.rows (.ofText name)
    simp only [PostgresVault.call, plainCall, PostgresVault.getSecret, PostgresVault.statement]
    by_cases htext : IsColumnText (.ofText name)
    · rw [if_pos htext]
      dsimp only
      cases hl : s.pg.rows.lookup (.ofText name) with
      | none =>
        rw [hl] at hrow
        rw [Option.map_eq_none_iff.mp hrow.symm]
        rfl
      | some ct =>
        rw [hl] at hrow
        obtain ⟨value, hv, hct⟩ := Option.map_eq_some_iff.mp hrow.symm
        rw [hv]
        dsimp only
        rw [← hct]
        rfl
    · have hnone : s.plain.lookup (.ofText name) = none :=
        Finmap.lookup_eq_none.mpr fun hmem => htext (h.names _ hmem)
      rw [if_neg htext, hnone]
      rfl

theorem Coupled.list (h : Coupled gcm encKey s) : SameAnswers gcm encKey s .list := by
  constructor
  · simp only [LocalVault.call, plainCall, LocalVault.listSecrets, h.map]
  · have hkeys : s.pg.rows.keys = s.plain.keys := by
      ext name
      rw [Finmap.mem_keys, Finmap.mem_keys, h.mem_rows]
    simp only [PostgresVault.call, plainCall, PostgresVault.listSecrets, hkeys]
    rfl

theorem isColumnText_ofText {name : Str} : IsColumnText (.ofText name) ↔ 0 ∉ GoString.ofText name :=
  ⟨fun h => h.2, fun h => ⟨GoString.valid_ofText name, h⟩⟩

theorem Coupled.set (h : Coupled gcm encKey s) {name : Str} (hname : 0 ∉ GoString.ofText name)
    (nonce nonce' : Nonce) (value : GoString) :
    SameAnswers gcm encKey s (.set nonce nonce' name value) ∧
      Coupled gcm encKey (s.step gcm encKey (.set nonce nonce' name value)).1 := by
  have htext : IsColumnText (.ofText name) := isColumnText_ofText.mpr hname
  have hlv := LocalVault.setSecret_some h.memory (.succeeds nonce) (.ofText name) value
  have hpg : s.pg.setSecret (.ok nonce') none (.ofText name) value =
      (none, { s.pg with rows := s.pg.rows.insert (.ofText name) (s.pg.encrypt nonce' value) }) := by
    simp only [PostgresVault.setSecret, PostgresVault.statement, if_pos htext]
  refine ⟨⟨?_, ?_⟩, ?_⟩
  · rw [LocalVault.call, hlv]
    rfl
  · rw [PostgresVault.call, hpg]
    rfl
  · simp only [Vaults.step, LocalVault.call, PostgresVault.call, plainCall, hlv, hpg]
    refine ⟨h.gcm, rfl, ⟨nonce, rfl⟩, ?_, ?_⟩
    · intro k
      by_cases hk : k = .ofText name
      · rw [hk, Finmap.lookup_insert, Finmap.lookup_insert]
        exact congrArg some (s.pg.decrypt_encrypt nonce' value)
      · rw [Finmap.lookup_insert_of_ne _ hk, Finmap.lookup_insert_of_ne _ hk]
        exact h.rows k
    · intro k hk
      rcases Finmap.mem_insert.mp hk with rfl | hk
      · exact htext
      · exact h.names k hk

theorem Coupled.delete (h : Coupled gcm encKey s) {name : Str} (hname : 0 ∉ GoString.ofText name)
    (nonce : Nonce) :
    SameAnswers gcm encKey s (.delete nonce name) ∧
      Coupled gcm encKey (s.step gcm encKey (.delete nonce name)).1 := by
  have htext : IsColumnText (.ofText name) := isColumnText_ofText.mpr hname
  have hlv : s.lv.deleteSecret (.succeeds nonce) (.ofText name) =
      (.returned none, ⟨s.lv.gcm, some (s.plain.erase (.ofText name)),
        some (s.lv.gcm.content nonce (some (s.plain.erase (.ofText name))))⟩) := by
    rw [LocalVault.deleteSecret, h.memory]
    rfl
  have hpg : s.pg.deleteSecret none (.ofText name) =
      (none, { s.pg with rows := s.pg.rows.erase (.ofText name) }) := by
    simp only [PostgresVault.deleteSecret, PostgresVault.statement, if_pos htext]
  refine ⟨⟨?_, ?_⟩, ?_⟩
  · rw [LocalVault.call, hlv]
    rfl
  · rw [PostgresVault.call, hpg]
    rfl
  · simp only [Vaults.step, LocalVault.call, PostgresVault.call, plainCall, hlv, hpg]
    refine ⟨h.gcm, rfl, ⟨nonce, rfl⟩, ?_, ?_⟩
    · intro k
      by_cases hk : k = .ofText name
      · rw [hk, Finmap.lookup_erase, Finmap.lookup_erase]
        rfl
      · rw [Finmap.lookup_erase_ne hk, Finmap.lookup_erase_ne hk]
        exact h.rows k
    · exact fun k hk => h.names k (Finmap.mem_erase.mp hk).2

/-- What the local vault has after a restart is what its file is read as. -/
theorem Coupled.call_restart (hkey : StrongKey encKey) (h : Coupled gcm encKey s) (nonce : Nonce) :
    s.lv.call gcm encKey (.restart nonce) =
      (.done true, { s.lv with secrets := some (reread s.plain) }) := by
  obtain ⟨nonce', hfile⟩ := h.file
  have hload : (gcm (Sha256.sha256 encKey)).load (s.lv.gcm.content nonce' (some s.plain)) =
      .ok (false, some (reread s.plain)) := by
    rw [← h.gcm, Aead.load_content]
    rfl
  rw [LocalVault.call, hfile, newLocalVault_some hkey, hload, ← h.gcm, ← hfile]
  rfl

theorem Coupled.restart (hkey : StrongKey encKey) (h : Coupled gcm encKey s) (nonce : Nonce) :
    SameAnswers gcm encKey s (.restart nonce) := by
  refine ⟨?_, rfl⟩
  rw [h.call_restart hkey]
  rfl

theorem Coupled.step_restart (hkey : StrongKey encKey) (h : Coupled gcm encKey s)
    (hvalid : s.plain.Valid) (nonce : Nonce) :
    Coupled gcm encKey (s.step gcm encKey (.restart nonce)).1 := by
  rw [Vaults.step, h.call_restart hkey, reread_of_valid hvalid]
  exact ⟨h.gcm, rfl, h.file, h.rows, h.names⟩

theorem Coupled.valid_of_restart (hkey : StrongKey encKey) (h : Coupled gcm encKey s) {nonce : Nonce}
    (hreads : ∀ name, SameAnswers gcm encKey (s.step gcm encKey (.restart nonce)).1 (.get name)) :
    s.plain.Valid := by
  rw [← reread_eq_self]
  refine Finmap.ext_lookup fun k => ?_
  by_cases hk : k.Valid
  · have hread := (hreads k.text).1
    rw [Vaults.step, h.call_restart hkey] at hread
    simp only [LocalVault.call, LocalVault.toOption_getSecret, plainCall] at hread
    rw [hk] at hread
    exact Answer.value.inj hread
  · have hnone : ∀ m : StringMap, (∀ k' ∈ m, k'.Valid) → m.lookup k = none := fun m hm =>
      Finmap.lookup_eq_none.mpr fun hmem => hk (hm k hmem)
    rw [hnone s.plain fun k' hk' => (h.names k' hk').1]
    refine hnone _ fun k' hk' => ?_
    obtain ⟨v, hv⟩ := Finmap.mem_iff.mp hk'
    exact (valid_reread s.plain k' v hv).1

/-- Where both providers hold the plain map, an operation agrees exactly when it is faithful. -/
theorem agree_iff (hkey : StrongKey encKey) (h : Coupled gcm encKey s) (op : VaultOp) :
    Agree gcm encKey s op ↔ Faithful s op := by
  have hreads {op : VaultOp} (hanswer : SameAnswers gcm encKey s op)
      (h' : Coupled gcm encKey (s.step gcm encKey op).1) : Agree gcm encKey s op :=
    ⟨hanswer, h'.get, h'.list⟩
  cases op with
  | get name => exact iff_of_true (hreads (h.get name) h) trivial
  | list => exact iff_of_true (hreads h.list h) trivial
  | set nonce nonce' name value =>
    constructor
    · rintro ⟨⟨_, hpg⟩, _⟩ hnul
      have htext : ¬ IsColumnText (.ofText name) := fun ht => isColumnText_ofText.mp ht hnul
      simp [PostgresVault.call, PostgresVault.setSecret, PostgresVault.statement, htext,
        plainCall] at hpg
    · intro hname
      obtain ⟨hanswer, h'⟩ := h.set hname nonce nonce' value
      exact hreads hanswer h'
  | delete nonce name =>
    constructor
    · rintro ⟨⟨_, hpg⟩, _⟩ hnul
      have htext : ¬ IsColumnText (.ofText name) := fun ht => isColumnText_ofText.mp ht hnul
      simp [PostgresVault.call, PostgresVault.deleteSecret, PostgresVault.statement, htext,
        plainCall] at hpg
    · intro hname
      obtain ⟨hanswer, h'⟩ := h.delete hname nonce
      exact hreads hanswer h'
  | restart nonce =>
    constructor
    · rintro ⟨_, hget, _⟩ name value hl
      exact (h.valid_of_restart hkey hget name value hl).2
    · intro hvalues
      have hvalid : s.plain.Valid := fun name value hl =>
        ⟨(h.names name (Finmap.mem_of_lookup_eq_some hl)).1, hvalues name value hl⟩
      exact hreads (h.restart hkey nonce) (h.step_restart hkey hvalid nonce)

theorem coupled_step (hkey : StrongKey encKey) (h : Coupled gcm encKey s) (op : VaultOp)
    (hagree : Agree gcm encKey s op) : Coupled gcm encKey (s.step gcm encKey op).1 := by
  have hop := (agree_iff hkey h op).mp hagree
  cases op with
  | get name => exact h
  | list => exact h
  | set nonce nonce' name value => exact (h.set hop nonce nonce' value).2
  | delete nonce name => exact (h.delete hop nonce).2
  | restart nonce => exact h.step_restart hkey (h.valid_of_restart hkey hagree.2.1) nonce

end Coupling

section Runs
variable (gcm : Str → Aead) (encKey : Str)

theorem coupled_start (nonce : Nonce) : Coupled gcm encKey (.start gcm encKey nonce) :=
  ⟨rfl, rfl, ⟨nonce, rfl⟩, fun _ => rfl, fun _ h => absurd h Finmap.notMem_empty⟩

/-- A run of calls and restarts is answered by both providers as by a plain map exactly when it
is faithful throughout. -/
theorem agree_run_iff {encKey : Str} (hkey : StrongKey encKey) (nonce : Nonce)
    (ops : List VaultOp) :
    Run.Along (Vaults.step gcm encKey) (Agree gcm encKey) (.start gcm encKey nonce) ops ↔
      Run.Along (Vaults.step gcm encKey) Faithful (.start gcm encKey nonce) ops :=
  Run.along_congr (fun _ op h => agree_iff hkey h op) (fun _ op h ha => coupled_step hkey h op ha)
    ops _ (coupled_start gcm encKey nonce)

end Runs

/-- The local vault of a new process is the one that `NewLocalVault` creates. -/
theorem start_lv (gcm : Str → Aead) {encKey : Str} (hkey : StrongKey encKey) (nonce : Nonce) :
    (newLocalVault gcm encKey none (.succeeds nonce) none).1 =
      .ok (Vaults.start gcm encKey nonce).lv :=
  newLocalVault_none hkey nonce

def keptOps : List VaultOp :=
  [.set zeroNonce zeroNonce ['k'] (.ofText ['v']), .restart zeroNonce, .get ['k'], .list]

theorem keptOps_agree :
    Run.Along (Vaults.step (fun _ => checksumAead) sampleKey) (Agree (fun _ => checksumAead) sampleKey)
      (.start (fun _ => checksumAead) sampleKey zeroNonce) keptOps := by
  refine (agree_run_iff (fun _ => checksumAead) strongKey_sampleKey zeroNonce keptOps).mpr ?_
  have hname : (0 : Byte) ∉ GoString.ofText ['k'] := by decide +kernel
  refine ⟨hname, ?_, trivial, trivial, trivial⟩
  intro name value h
  exact (valid_sampleSecrets name value h).2

/-- The one byte `FF`, set and read back after a restart. -/
theorem replacedOps_not_agree :
    ¬ Run.Along (Vaults.step (fun _ => checksumAead) sampleKey)
        (Agree (fun _ => checksumAead) sampleKey) (.start (fun _ => checksumAead) sampleKey zeroNonce)
        [.set zeroNonce zeroNonce ['k'] [255], .restart zeroNonce] := by
  rintro ⟨_, ⟨_, hget, _⟩, _⟩
  have h := (hget ['k']).1
  revert h
  decide +kernel

end Janus.Vault
