import Mathlib.Data.Finmap
import Mathlib.Data.List.Lex
import Janus.Lib.UrlText

/-!
# Byte strings

A string of Go is any sequence of bytes. Its text is what a reader of UTF-8 sees of it,
with U+FFFD for every byte that is part of no encoding; a string is valid when it is the
encoding of its text. Maps from strings to strings are finite maps, listed by their
sorted keys.
-/

namespace Janus

set_option autoImplicit false

abbrev Byte := Fin 256

instance neZero_byte : NeZero 256 := ⟨by decide⟩

abbrev GoString := List Byte

namespace GoString

def ofText (s : Str) : GoString := (Text.bytes s).map (Fin.ofNat 256)

def text (b : GoString) : Str := Text.ofBytes (b.map Fin.val)

/-- `utf8.ValidString`. -/
def Valid (b : GoString) : Prop := ofText b.text = b

instance (b : GoString) : Decidable b.Valid := inferInstanceAs (Decidable (ofText b.text = b))

theorem map_val_ofText (s : Str) : (ofText s).map Fin.val = Text.bytes s := by
  rw [ofText, List.map_map]
  refine (List.map_congr_left ?_).trans (List.map_id _)
  intro b hb
  exact Nat.mod_eq_of_lt (Text.bytes_lt hb)

@[simp] theorem text_ofText (s : Str) : (ofText s).text = s := by
  rw [text, map_val_ofText, Text.ofBytes_bytes]

theorem text_append (s : Str) (b : GoString) : text (ofText s ++ b) = s ++ b.text := by
  rw [text, List.map_append, map_val_ofText]
  induction s with
  | nil => rfl
  | cons c s ih =>
    rw [Text.bytes, List.flatMap_cons, List.append_assoc, Text.ofBytes_utf8]
    exact congrArg (List.cons c) ih

theorem valid_ofText (s : Str) : (ofText s).Valid := by
  rw [Valid, text_ofText]

theorem ofText_inj {s t : Str} : ofText s = ofText t ↔ s = t := by
  constructor
  · intro h
    rw [← text_ofText s, h, text_ofText]
  · exact congrArg ofText

end GoString

/-- `map[string]string`. -/
abbrev StringMap := Finmap fun _ : GoString => GoString

namespace StringMap

/-- The keys in the order of their bytes. -/
def sortedKeys (m : StringMap) : List GoString :=
  Quot.liftOn m.keys.val (List.insertionSort (· ≤ ·)) fun a b h =>
    ((List.perm_insertionSort _ a).trans (h.trans (List.perm_insertionSort _ b).symm)).eq_of_pairwise
      (fun _ _ _ _ => le_antisymm) (List.pairwise_insertionSort _ a) (List.pairwise_insertionSort _ b)

def entries (m : StringMap) : List (GoString × GoString) :=
  m.sortedKeys.filterMap fun k => (m.lookup k).map fun v => (k, v)

/-- The map into which the entries are put one after the other. -/
def ofEntries (es : List (GoString × GoString)) : StringMap :=
  es.foldl (fun m e => m.insert e.1 e.2) ∅

theorem sortedKeys_perm (m : StringMap) : (m.sortedKeys : Multiset GoString) = m.keys.val := by
  unfold sortedKeys
  induction m.keys.val using Quot.inductionOn with
  | h l => exact Quot.sound (List.perm_insertionSort _ l)

theorem mem_sortedKeys {m : StringMap} {k : GoString} : k ∈ m.sortedKeys ↔ k ∈ m := by
  rw [← Finmap.mem_keys, ← Finset.mem_val, ← sortedKeys_perm, Multiset.mem_coe]

theorem nodup_sortedKeys (m : StringMap) : m.sortedKeys.Nodup := by
  rw [← Multiset.coe_nodup, sortedKeys_perm]
  exact m.keys.nodup

theorem mem_entries {m : StringMap} {k v : GoString} : (k, v) ∈ m.entries ↔ m.lookup k = some v := by
  rw [entries, List.mem_filterMap]
  constructor
  · rintro ⟨k', _, h⟩
    obtain ⟨v', hv', heq⟩ := Option.map_eq_some_iff.mp h
    cases heq
    exact hv'
  · intro h
    exact ⟨k, mem_sortedKeys.mpr (Finmap.mem_of_lookup_eq_some h), by rw [h]; rfl⟩

theorem map_fst_entries (m : StringMap) : m.entries.map Prod.fst = m.sortedKeys := by
  have hall : ∀ ks : List GoString, (∀ k ∈ ks, k ∈ m) →
      (ks.filterMap fun k => (m.lookup k).map fun v => (k, v)).map Prod.fst = ks := by
    intro ks hks
    induction ks with
    | nil => rfl
    | cons k ks ih =>
      obtain ⟨v, hv⟩ := Finmap.mem_iff.mp (hks k List.mem_cons_self)
      simp [hv, ih fun k' hk' => hks k' (List.mem_cons_of_mem k hk')]
  exact hall m.sortedKeys fun k hk => mem_sortedKeys.mp hk

theorem nodup_entries (m : StringMap) : (m.entries.map Prod.fst).Nodup := by
  rw [map_fst_entries]
  exact nodup_sortedKeys m

theorem entries_eq_nil {m : StringMap} : m.entries = [] ↔ m = ∅ := by
  constructor
  · intro h
    refine Finmap.ext_lookup fun k => ?_
    cases hk : m.lookup k with
    | none => rfl
    | some v =>
      have hmem := mem_entries.mpr hk
      rw [h] at hmem
      cases hmem
  · rintro rfl
    rfl

theorem lookup_foldl_of_notMem {es : List (GoString × GoString)} {k : GoString}
    (h : k ∉ es.map Prod.fst) (m : StringMap) :
    (es.foldl (fun m e => m.insert e.1 e.2) m).lookup k = m.lookup k := by
  induction es generalizing m with
  | nil => rfl
  | cons e es ih =>
    rw [List.map_cons, List.mem_cons, not_or] at h
    rw [List.foldl_cons, ih h.2, Finmap.lookup_insert_of_ne m h.1]

theorem lookup_foldl_of_mem {es : List (GoString × GoString)} {k v : GoString}
    (hn : (es.map Prod.fst).Nodup) (h : (k, v) ∈ es) (m : StringMap) :
    (es.foldl (fun m e => m.insert e.1 e.2) m).lookup k = some v := by
  induction es generalizing m with
  | nil => cases h
  | cons e es ih =>
    obtain ⟨he, hn⟩ := List.nodup_cons.mp hn
    rw [List.foldl_cons]
    rcases List.mem_cons.mp h with rfl | h
    · rw [lookup_foldl_of_notMem he, Finmap.lookup_insert]
    · exact ih hn h _

theorem ofEntries_entries (m : StringMap) : ofEntries m.entries = m := by
  refine Finmap.ext_lookup fun k => ?_
  cases hk : m.lookup k with
  | some v => exact lookup_foldl_of_mem (nodup_entries m) (mem_entries.mpr hk) ∅
  | none =>
    refine (lookup_foldl_of_notMem ?_ ∅).trans rfl
    rw [map_fst_entries, mem_sortedKeys, ← Finmap.lookup_eq_none]
    exact hk

/-- What every entry has, the map that they make has. -/
theorem forall_ofEntries {P : GoString → GoString → Prop} {es : List (GoString × GoString)}
    (h : ∀ e ∈ es, P e.1 e.2) {k v : GoString} (hk : (ofEntries es).lookup k = some v) : P k v := by
  have hall : ∀ m : StringMap, (∀ k v, m.lookup k = some v → P k v) →
      ∀ k v, (es.foldl (fun m e => m.insert e.1 e.2) m).lookup k = some v → P k v := by
    clear hk k v
    induction es with
    | nil => exact fun m hm => hm
    | cons e es ih =>
      intro m hm
      refine ih (fun e' he' => h e' (List.mem_cons_of_mem e he')) (m.insert e.1 e.2) ?_
      intro k v hkv
      by_cases hke : k = e.1
      · subst hke
        rw [Finmap.lookup_insert, Option.some.injEq] at hkv
        exact hkv ▸ h e List.mem_cons_self
      · rw [Finmap.lookup_insert_of_ne m hke] at hkv
        exact hm k v hkv
  refine hall ∅ ?_ k v hk
  intro k v hkv
  cases hkv

/-- Every key and every value is valid. -/
def Valid (m : StringMap) : Prop := ∀ k v, m.lookup k = some v → k.Valid ∧ v.Valid

end StringMap

end Janus
