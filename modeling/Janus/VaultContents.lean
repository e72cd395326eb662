import Janus.Lib.Run
import Janus.LocalVault

/-!
# What a vault file may contain

Every content that `NewLocalVault` accepts gives a vault that works as a map, except the
JSON document `null`, sealed or plain: it leaves a nil map behind, and the next write
panics. A legacy object of strings is loaded as it is and written back sealed.
-/

namespace Janus.Vault

set_option autoImplicit false

open JsonStrings

/-- The JSON document in a file, sealed or plain. -/
def Aead.document (gcm : Aead) (data : List Byte) : Option Json :=
  if data.isEmpty then none
  else if localVaultMagic.isPrefixOf data then
    match gcm.decrypt (data.drop localVaultMagic.length) with
    | .error _ => none
    | .ok plaintext => JsonText.parse (GoString.text plaintext)
  else JsonText.parse (GoString.text data)

inductive Use where
  | set (nonce : Nonce) (name value : GoString)
  | get (name : GoString)
  | delete (nonce : Nonce) (name : GoString)

def Use.step (v : LocalVault) : Use → LocalVault × List Unit
  | .set nonce name value => ((v.setSecret (.succeeds nonce) name value).2, [])
  | .get _ => (v, [])
  | .delete nonce name => ((v.deleteSecret (.succeeds nonce) name).2, [])

def NoPanic (v : LocalVault) : Use → Prop
  | .set nonce name value => (v.setSecret (.succeeds nonce) name value).1 ≠ .panicked
  | .get _ => True
  | .delete nonce name => (v.deleteSecret (.succeeds nonce) name).1 ≠ .panicked

/-- The values last set. -/
def Use.lastSet (m : StringMap) : Use → StringMap
  | .set _ name value => m.insert name value
  | .get _ => m
  | .delete _ name => m.erase name

/-- The calls run without a panic, and then every name has the value last set. -/
def Works (v : LocalVault) (uses : List Use) : Prop :=
  Run.Along Use.step NoPanic v uses ∧
    ∀ name, ((Run.final Use.step v uses).getSecret name).toOption =
      (uses.foldl Use.lastSet v.map).lookup name

theorem Use.step_of_some {v : LocalVault} {m : StringMap} (h : v.secrets = some m) (u : Use) :
    NoPanic v u ∧ (u.step v).1.secrets = some (u.lastSet m) := by
  cases u with
  | get name => exact ⟨trivial, h⟩
  | set nonce name value =>
    rw [NoPanic, Use.step, LocalVault.setSecret_some h]
    exact ⟨nofun, rfl⟩
  | delete nonce name =>
    rw [NoPanic, Use.step, LocalVault.deleteSecret, h]
    exact ⟨nofun, rfl⟩

theorem works_of_some (uses : List Use) {v : LocalVault} {m : StringMap} (h : v.secrets = some m) :
    Works v uses := by
  suffices hrun : Run.Along Use.step NoPanic v uses ∧
      (Run.final Use.step v uses).secrets = some (uses.foldl Use.lastSet m) by
    refine ⟨hrun.1, fun name => ?_⟩
    rw [LocalVault.toOption_getSecret, LocalVault.map, LocalVault.map, hrun.2, h]
    rfl
  induction uses generalizing v m with
  | nil => exact ⟨trivial, h⟩
  | cons u uses ih =>
    obtain ⟨hpanic, hnext⟩ := Use.step_of_some h u
    obtain ⟨hrun, hfinal⟩ := ih hnext
    exact ⟨⟨hpanic, hrun⟩, hfinal⟩

theorem works_iff (v : LocalVault) : (∀ uses, Works v uses) ↔ v.secrets ≠ none := by
  constructor
  · intro h hnil
    have hpanic := (h [.set zeroNonce [] []]).1.1
    rw [NoPanic, LocalVault.setSecret_none hnil] at hpanic
    exact hpanic rfl
  · intro h uses
    obtain ⟨m, hm⟩ := Option.ne_none_iff_exists'.mp h
    exact works_of_some uses hm

/-- What a vault that was opened has from the file it found. -/
theorem newLocalVault_ok {gcm : Str → Aead} {encKey : Str} {fault : Option Str} {env : SaveEnv}
    {file : Option (List Byte)} {v : LocalVault}
    (h : (newLocalVault gcm encKey fault env file).1 = .ok v) :
    StrongKey encKey ∧ match file with
      | none => v.secrets = some ∅
      | some data => ∃ migrated, (gcm (Sha256.sha256 encKey)).load data = .ok (migrated, v.secrets) ∧
          (migrated = true →
            ∃ nonce, v.file = some ((gcm (Sha256.sha256 encKey)).content nonce v.secrets)) := by
  unfold newLocalVault at h
  split at h
  · cases h
  rename_i hkey
  refine ⟨Nat.le_of_not_lt hkey, ?_⟩
  cases fault with
  | some cause => cases h
  | none =>
    cases file with
    | none =>
      have hsave := LocalVault.save_secrets env ⟨gcm (Sha256.sha256 encKey), some ∅, none⟩
      dsimp only at h ⊢
      split at h
      · rename_i v' hv'
        rw [hv'] at hsave
        cases h
        exact hsave
      · cases h
    | some data =>
      dsimp only at h ⊢
      split at h
      · cases h
      · rename_i secrets hload
        cases h
        exact ⟨false, hload, nofun⟩
      · rename_i secrets hload
        have hsave := LocalVault.save_secrets env ⟨gcm (Sha256.sha256 encKey), secrets, some data⟩
        have hfile := LocalVault.file_of_save env ⟨gcm (Sha256.sha256 encKey), secrets, some data⟩
        split at h
        · rename_i v' hv'
          rw [hv'] at hsave hfile
          cases h
          obtain ⟨nonce, hfile⟩ := hfile rfl
          exact ⟨true, hsave ▸ hload, fun _ => ⟨nonce, hsave ▸ hfile⟩⟩
        · cases h

theorem decodeMap_eq_none {doc : Json} : decodeMap doc = some none ↔ doc = .null := by
  cases doc with
  | null => simp [decodeMap]
  | bool b => simp [decodeMap]
  | num n => simp [decodeMap]
  | str s => simp [decodeMap]
  | arr items => simp [decodeMap]
  | obj members => simp [decodeMap]

theorem unmarshal_eq_none {data : GoString} :
    unmarshal data = some none ↔ JsonText.parse data.text = some .null := by
  rw [unmarshal, Option.bind_eq_some_iff]
  constructor
  · rintro ⟨doc, hdoc, hnone⟩
    rw [hdoc, decodeMap_eq_none.mp hnone]
  · exact fun h => ⟨.null, h, rfl⟩

theorem document_of_load {gcm : Aead} {data : List Byte} {migrated : Bool}
    {secrets : Option StringMap} (h : gcm.load data = .ok (migrated, secrets)) :
    gcm.document data = some .null ↔ secrets = none := by
  unfold Aead.load at h
  unfold Aead.document
  split at h
  · rename_i hempty
    cases h
    simp [hempty]
  rename_i hempty
  rw [if_neg hempty]
  split at h
  · rename_i hmagic
    rw [if_pos hmagic]
    cases hd : gcm.decrypt (data.drop localVaultMagic.length) with
    | error e => simp [hd] at h
    | ok plaintext =>
      simp only [hd] at h
      dsimp only
      rw [← unmarshal_eq_none]
      cases hu : unmarshal plaintext with
      | none => simp [hu] at h
      | some s =>
        simp only [hu] at h
        cases h
        simp
  · rename_i hmagic
    rw [if_neg hmagic, ← unmarshal_eq_none]
    cases hu : unmarshal data with
    | none => simp [hu] at h
    | some s =>
      simp only [hu] at h
      cases h
      simp

theorem parse_magic (rest : List Byte) :
    JsonText.parse (GoString.text (localVaultMagic ++ rest)) = none := by
  rw [localVaultMagic, GoString.text_append]
  rfl

def memberString : Json → GoString
  | .str s => .ofText s
  | _ => []

/-- The map has the members of the object, and nothing else. -/
def HasMembers (m : StringMap) (ms : List (Str × Json)) : Prop :=
  (∀ name, m.lookup (.ofText name) = (lookup name ms).map memberString) ∧ ∀ k ∈ m, k.Valid

/-- What a map has after the members of an object of strings have been put into it. -/
theorem foldlM_members {ms : List (Str × Json)} (h : ∀ m ∈ ms, m.2.isStr = true) (acc : StringMap) :
    ∃ m : StringMap, (ms.foldlM (fun (acc : StringMap) m => (Decode.str [] m.2).map fun s =>
          acc.insert (.ofText m.1) (.ofText s)) acc) = some m ∧
      (∀ name, m.lookup (.ofText name) =
        ((lookup name ms).map memberString).or (acc.lookup (.ofText name))) ∧
      ∀ k ∈ m, k.Valid ∨ k ∈ acc := by
  induction ms generalizing acc with
  | nil => exact ⟨acc, rfl, fun _ => rfl, fun _ hk => Or.inr hk⟩
  | cons e ms ih =>
    obtain ⟨name, value⟩ := e
    obtain ⟨s, rfl⟩ : ∃ s, value = .str s := by
      have hstr := h (name, value) List.mem_cons_self
      cases value with
      | str s => exact ⟨s, rfl⟩
      | _ => cases hstr
    obtain ⟨m, hm, hl, hkeys⟩ := ih (fun e he => h e (List.mem_cons_of_mem _ he))
      (acc.insert (.ofText name) (.ofText s))
    refine ⟨m, hm, ?_, ?_⟩
    · intro n
      rw [hl n, lookup]
      cases lookup n ms with
      | some v => rfl
      | none =>
        by_cases hn : name = n
        · rw [if_pos hn, hn, Finmap.lookup_insert]
          rfl
        · have hne : GoString.ofText n ≠ .ofText name := fun he => hn (GoString.ofText_inj.mp he).symm
          rw [if_neg hn, Finmap.lookup_insert_of_ne acc hne]
          rfl
    · intro k hk
      rcases hkeys k hk with hv | hk
      · exact Or.inl hv
      · rcases Finmap.mem_insert.mp hk with rfl | hk
        · exact Or.inl (GoString.valid_ofText name)
        · exact Or.inr hk

theorem unmarshal_members {data : GoString} {ms : List (Str × Json)}
    (hdoc : JsonText.parse data.text = some (.obj ms)) (h : ∀ m ∈ ms, m.2.isStr = true) :
    ∃ m, unmarshal data = some (some m) ∧ HasMembers m ms := by
  obtain ⟨m, hm, hl, hkeys⟩ := foldlM_members h ∅
  refine ⟨m, ?_, ?_, ?_⟩
  · rw [unmarshal, hdoc]
    exact congrArg (Option.map some) hm
  · intro name
    rw [hl name]
    exact Option.or_none
  · intro k hk
    exact (hkeys k hk).resolve_right Finmap.notMem_empty

theorem load_legacy (gcm : Aead) {data : List Byte} {ms : List (Str × Json)}
    (hdoc : JsonText.parse (GoString.text data) = some (.obj ms)) (h : ∀ m ∈ ms, m.2.isStr = true) :
    ∃ m, gcm.load data = .ok (true, some m) ∧ HasMembers m ms := by
  obtain ⟨m, hm, hmembers⟩ := unmarshal_members hdoc h
  have hne : data.isEmpty = false := by
    cases data with
    | nil => cases hdoc
    | cons b data => rfl
  have hmagic : localVaultMagic.isPrefixOf data = false := by
    by_contra hp
    obtain ⟨rest, rfl⟩ := List.isPrefixOf_iff_prefix.mp (Bool.eq_true_of_not_eq_false hp)
    rw [parse_magic] at hdoc
    cases hdoc
  refine ⟨m, ?_, hmembers⟩
  rw [Aead.load, hne, if_neg Bool.false_ne_true, hmagic, if_neg Bool.false_ne_true, hm]

/-- Of a vault that was opened on any file: it works in every run exactly when the document in
the file is not `null`; and every legacy object of strings is opened with the same key, has
its members and is stored sealed. -/
theorem opened_works_iff {gcm : Str → Aead} {encKey : Str} {fault : Option Str} {env : SaveEnv}
    {file : Option (List Byte)} {v : LocalVault}
    (h : (newLocalVault gcm encKey fault env file).1 = .ok v) :
    ((∀ uses, Works v uses) ↔
        ∀ data, file = some data → (gcm (Sha256.sha256 encKey)).document data ≠ some .null) ∧
      ∀ (nonce : Nonce) (data : List Byte) (ms : List (Str × Json)),
        JsonText.parse (GoString.text data) = some (.obj ms) → (∀ m ∈ ms, m.2.isStr = true) →
          ∃ v', (newLocalVault gcm encKey none (.succeeds nonce) (some data)).1 = .ok v' ∧
            HasMembers v'.map ms ∧
              v'.file = some ((gcm (Sha256.sha256 encKey)).content nonce v'.secrets) := by
  obtain ⟨hkey, hfile⟩ := newLocalVault_ok h
  constructor
  · rw [works_iff]
    cases file with
    | none =>
      have hsecrets : v.secrets = some ∅ := hfile
      refine iff_of_true ?_ nofun
      rw [hsecrets]
      exact Option.some_ne_none _
    | some data =>
      obtain ⟨migrated, hload, _⟩ := hfile
      rw [Ne, ← document_of_load hload]
      constructor
      · intro hnull data' he
        cases he
        exact hnull
      · exact fun hall => hall data rfl
  · intro nonce data ms hdoc hstr
    obtain ⟨m, hload, hmembers⟩ := load_legacy (gcm (Sha256.sha256 encKey)) hdoc hstr
    refine ⟨⟨gcm (Sha256.sha256 encKey), some m,
      some ((gcm (Sha256.sha256 encKey)).content nonce (some m))⟩, ?_, hmembers, rfl⟩
    rw [newLocalVault_some hkey, hload]
    rfl

theorem absent_works :
    Works ⟨checksumAead, some ∅, some (checksumAead.content zeroNonce (some ∅))⟩
      [.set zeroNonce (.ofText ['k']) (.ofText ['v']), .set zeroNonce (.ofText ['k']) [255]] := by
  have hopen : (newLocalVault (fun _ => checksumAead) sampleKey none (.succeeds zeroNonce) none).1 = _ :=
    newLocalVault_none strongKey_sampleKey zeroNonce
  exact (opened_works_iff hopen).1.mpr nofun _

/-- The legacy document `null`, which is accepted, and the first secret set. -/
theorem null_not_works :
    ∃ v, (newLocalVault (fun _ => checksumAead) sampleKey none (.succeeds zeroNonce)
        (some (GoString.ofText "null".toList))).1 = .ok v ∧
      (v.setSecret (.succeeds zeroNonce) (.ofText ['k']) (.ofText ['v'])).1 = .panicked := by
  have hload : checksumAead.load (GoString.ofText "null".toList) = .ok (true, none) := by
    have hjson : unmarshal (GoString.ofText "null".toList) = some none := by decide +kernel
    have hmagic : localVaultMagic.isPrefixOf (GoString.ofText "null".toList) = false := by
      decide +kernel
    have hne : (GoString.ofText "null".toList).isEmpty = false := by decide +kernel
    rw [Aead.load, hne, if_neg Bool.false_ne_true, hmagic, if_neg Bool.false_ne_true, hjson]
  refine ⟨_, (newLocalVault_some strongKey_sampleKey zeroNonce _).trans (by rw [hload]), ?_⟩
  rw [LocalVault.setSecret_none rfl]

end Janus.Vault
