import Janus.Lib.DecodeOrder
import Janus.Lib.NumberShortest

/-!
# Decoded values

The values that `toAny` produces: the numbers are doubles and no object has two members of one
name. They are decoded into themselves (`toAny_decoded`), and what is read from their encoding
is the value with its members in order (`parse_marshal`). What every field of a record keeps
is kept by the decoding of the record (`Decode.record_keeps`).
-/

namespace Janus

set_option autoImplicit false

section Members

variable {α : Type} {k : Str} {ms : List (Str × α)}

theorem setMember_of_fresh (v : α) (h : k ∉ ms.map Prod.fst) : setMember k v ms = ms ++ [(k, v)] := by
  induction ms with
  | nil => rfl
  | cons m ms ih =>
    rw [List.map_cons, List.mem_cons, not_or] at h
    unfold setMember
    rw [if_neg (Ne.symm h.1), ih h.2]
    rfl

theorem lookup_of_fresh (h : k ∉ ms.map Prod.fst) : lookup k ms = none :=
  lookup_eq_none_of_forall fun m hm hk => h (List.mem_map.mpr ⟨m, hm, hk⟩)

/-- Members of different names are put into a map one after the other. -/
theorem foldl_setMember_fresh (acc : List (Str × α)) (h : ((acc ++ ms).map Prod.fst).Nodup) :
    ms.foldl (fun acc (k, v) => setMember k v acc) acc = acc ++ ms := by
  induction ms generalizing acc with
  | nil => exact (List.append_nil acc).symm
  | cons m ms ih =>
    obtain ⟨l, v⟩ := m
    have hfresh : l ∉ acc.map Prod.fst := by
      rw [List.map_append, List.nodup_append] at h
      intro hl
      exact h.2.2 l hl l (List.mem_cons_self ..) rfl
    rw [List.append_cons] at h ⊢
    rw [List.foldl_cons]
    dsimp only
    rw [setMember_of_fresh v hfresh]
    exact ih _ h

end Members

namespace Json

mutual
def Decoded : Json → Prop
  | .num n => n.float64 = some n
  | .arr xs => DecodedItems xs
  | .obj ms => (ms.map Prod.fst).Nodup ∧ DecodedMembers ms
  | .null | .bool _ | .str _ => True
def DecodedItems : List Json → Prop
  | [] => True
  | x :: xs => x.Decoded ∧ DecodedItems xs
def DecodedMembers : List (Str × Json) → Prop
  | [] => True
  | (_, x) :: ms => x.Decoded ∧ DecodedMembers ms
end

theorem decodedItems_iff {xs : List Json} : DecodedItems xs ↔ ∀ x ∈ xs, x.Decoded := by
  induction xs with
  | nil => simp [DecodedItems]
  | cons x xs ih => simp [DecodedItems, ih]

theorem decodedMembers_iff {ms : List (Str × Json)} : DecodedMembers ms ↔ ∀ m ∈ ms, m.2.Decoded := by
  induction ms with
  | nil => simp [DecodedMembers]
  | cons m ms ih =>
    obtain ⟨k, x⟩ := m
    simp [DecodedMembers, ih]

mutual
theorem toAny_decoded (v : Json) (h : v.Decoded) : v.toAny = some v := by
  match v with
  | .null | .bool _ | .str _ => rfl
  | .num n =>
    have hn : n.float64 = some n := h
    rw [toAny, hn]
    rfl
  | .arr xs =>
    rw [toAny, toAnyItems_decoded xs h]
    rfl
  | .obj ms =>
    obtain ⟨hnodup, hms⟩ := h
    rw [toAny, toAnyMembers_decoded ms hms, Option.map_some, foldl_setMember_fresh [] hnodup]
    rfl
theorem toAnyItems_decoded (xs : List Json) (h : DecodedItems xs) : toAnyItems xs = some xs := by
  match xs with
  | [] => rfl
  | x :: xs =>
    rw [toAnyItems, toAny_decoded x h.1, Option.bind_some, toAnyItems_decoded xs h.2]
    rfl
theorem toAnyMembers_decoded (ms : List (Str × Json)) (h : DecodedMembers ms) :
    toAnyMembers ms = some ms := by
  match ms with
  | [] => rfl
  | (k, x) :: ms =>
    rw [toAnyMembers, toAny_decoded x h.1, Option.bind_some, toAnyMembers_decoded ms h.2]
    rfl
end

mutual
theorem decoded_of_toAny (v w : Json) (h : v.toAny = some w) : w.Decoded := by
  match v with
  | .null | .bool _ | .str _ =>
    cases h
    trivial
  | .num n =>
    obtain ⟨m, hm, rfl⟩ := Option.map_eq_some_iff.mp h
    exact float64_float64 hm
  | .arr xs =>
    obtain ⟨ys, hys, rfl⟩ := Option.map_eq_some_iff.mp h
    exact decodedItems_of_toAny xs ys hys
  | .obj ms =>
    obtain ⟨ns, os, hns, rfl, hnodup, hsub⟩ := toAny_obj h
    have hall := decodedMembers_iff.mp (decodedMembers_of_toAny ms ns hns)
    exact ⟨hnodup, decodedMembers_iff.mpr fun m hm => hall m (hsub m hm)⟩
theorem decodedItems_of_toAny (xs ys : List Json) (h : toAnyItems xs = some ys) : DecodedItems ys := by
  match xs with
  | [] =>
    cases h
    trivial
  | x :: xs =>
    obtain ⟨y, hy, hrest⟩ := Option.bind_eq_some_iff.mp h
    obtain ⟨zs, hzs, rfl⟩ := Option.map_eq_some_iff.mp hrest
    exact ⟨decoded_of_toAny x y hy, decodedItems_of_toAny xs zs hzs⟩
theorem decodedMembers_of_toAny (ms ns : List (Str × Json)) (h : toAnyMembers ms = some ns) :
    DecodedMembers ns := by
  match ms with
  | [] =>
    cases h
    trivial
  | (k, x) :: ms =>
    obtain ⟨y, hy, hrest⟩ := Option.bind_eq_some_iff.mp h
    obtain ⟨os, hos, rfl⟩ := Option.map_eq_some_iff.mp hrest
    exact ⟨decoded_of_toAny x y hy, decodedMembers_of_toAny ms os hos⟩
end

mutual
theorem decoded_sorted (v : Json) (h : v.Decoded) : v.sorted.Decoded := by
  match v with
  | .null | .bool _ | .str _ | .num _ => exact h
  | .arr xs => exact decodedItems_iff.mpr (decoded_sortedItems xs h)
  | .obj ms =>
    obtain ⟨hnodup, hms⟩ := h
    have hkeys : ((sortedMembers ms).map Prod.fst).Nodup := by rwa [fst_sortedMembers]
    have hall := decoded_sortedMembers ms hms
    exact ⟨((perm_sortMembers _).map Prod.fst).nodup_iff.mpr hkeys,
      decodedMembers_iff.mpr fun m hm => hall m (mem_sortMembers.mp hm)⟩
theorem decoded_sortedItems (xs : List Json) (h : DecodedItems xs) :
    ∀ x ∈ sortedItems xs, x.Decoded := by
  match xs with
  | [] => simp [sortedItems]
  | x :: xs => exact List.forall_mem_cons.mpr ⟨decoded_sorted x h.1, decoded_sortedItems xs h.2⟩
theorem decoded_sortedMembers (ms : List (Str × Json)) (h : DecodedMembers ms) :
    ∀ m ∈ sortedMembers ms, m.2.Decoded := by
  match ms with
  | [] => simp [sortedMembers]
  | (k, x) :: ms => exact List.forall_mem_cons.mpr ⟨decoded_sorted x h.1, decoded_sortedMembers ms h.2⟩
end

/-- What is read from the encoding of a decoded value. -/
theorem parse_marshal {v : Json} (h : v.Decoded) :
    (JsonText.parse v.marshal).bind toAny = some v.sorted := by
  rw [marshal, JsonText.parse_compact, Option.bind_some]
  exact toAny_decoded v.sorted (decoded_sorted v h)

theorem sortedMembers_eq_map (ms : List (Str × Json)) :
    sortedMembers ms = ms.map fun m => (m.1, m.2.sorted) := by
  induction ms with
  | nil => rfl
  | cons m ms ih =>
    rw [List.map_cons, ← ih]
    rfl

/-- The members of an encoded object, read again. -/
theorem lookup_sorted {ms : List (Str × Json)} (h : (ms.map Prod.fst).Nodup) (k : Str) :
    lookup k (sortMembers (sortedMembers ms)) = (lookup k ms).map sorted := by
  have hkeys : ((sortedMembers ms).map Prod.fst).Nodup := by rwa [fst_sortedMembers]
  rw [lookup_perm k hkeys (perm_sortMembers _).symm, sortedMembers_eq_map, lookup_map]

end Json

namespace Decode

section Keeps

variable {α : Type} {P : α → Prop}

theorem record_keeps {assign : α → Str → Json → Option α}
    (hassign : ∀ a k v a', P a → assign a k v = some a' → P a') {old new : α} {v : Json} (hold : P old)
    (h : record assign old v = some new) : P new := by
  cases v with
  | obj ms =>
    have hfold (ms : List (Str × Json)) (a : α) (ha : P a)
        (hms : ms.foldlM (fun a m => assign a m.1 m.2) a = some new) : P new := by
      induction ms generalizing a with
      | nil =>
        cases hms
        exact ha
      | cons m ms ih =>
        obtain ⟨a', ha', hrest⟩ := Option.bind_eq_some_iff.mp hms
        exact ih a' (hassign a m.1 m.2 a' ha ha') hrest
    exact hfold ms old hold h
  | null =>
    cases h
    exact hold
  | bool _ | num _ | str _ | arr _ => cases h

theorem items_keeps {zero : α} {dec : α → Json → Option α} (hzero : P zero)
    (hdec : ∀ a v a', P a → dec a v = some a' → P a') {xs : List Json} {old new : List α}
    (hold : ∀ a ∈ old, P a) (h : items zero dec old xs = some new) : ∀ a ∈ new, P a := by
  induction xs generalizing old new with
  | nil =>
    cases old <;> cases h <;> exact fun _ h => nomatch h
  | cons x xs ih =>
    cases old with
    | nil =>
      obtain ⟨y, hy, hrest⟩ := Option.bind_eq_some_iff.mp h
      obtain ⟨ys, hys, rfl⟩ := Option.map_eq_some_iff.mp hrest
      exact List.forall_mem_cons.mpr ⟨hdec zero x y hzero hy, ih hold hys⟩
    | cons o os =>
      obtain ⟨ho, hos⟩ := List.forall_mem_cons.mp hold
      obtain ⟨y, hy, hrest⟩ := Option.bind_eq_some_iff.mp h
      obtain ⟨ys, hys, rfl⟩ := Option.map_eq_some_iff.mp hrest
      exact List.forall_mem_cons.mpr ⟨hdec o x y ho hy, ih hos hys⟩

theorem list_keeps {zero : α} {dec : α → Json → Option α} (hzero : P zero)
    (hdec : ∀ a v a', P a → dec a v = some a' → P a') {v : Json} {old new : List α}
    (hold : ∀ a ∈ old, P a) (h : list zero dec old v = some new) : ∀ a ∈ new, P a := by
  cases v with
  | arr xs => exact items_keeps hzero hdec hold h
  | null =>
    cases h
    exact fun _ h => nomatch h
  | bool _ | num _ | str _ | obj _ => cases h

/-- A map with one entry for each name, whose entries have the property. -/
def Entries (P : α → Prop) (ms : List (Str × α)) : Prop := (ms.map Prod.fst).Nodup ∧ ∀ m ∈ ms, P m.2

theorem entries_nil : Entries P [] := ⟨List.nodup_nil, fun _ h => nomatch h⟩

theorem Entries.set {ms : List (Str × α)} (h : Entries P ms) (k : Str) {v : α} (hv : P v) :
    Entries P (setMember k v ms) := by
  refine ⟨nodup_setMember k v h.1, ?_⟩
  intro m hm
  rcases mem_of_mem_setMember hm with rfl | hm
  · exact hv
  · exact h.2 m hm

theorem Entries.foldl {ms acc : List (Str × α)} (hacc : Entries P acc) (hms : ∀ m ∈ ms, P m.2) :
    Entries P (ms.foldl (fun acc m => setMember m.1 m.2 acc) acc) := by
  induction ms generalizing acc with
  | nil => exact hacc
  | cons m ms ih =>
    obtain ⟨hm, hrest⟩ := List.forall_mem_cons.mp hms
    exact ih (hacc.set m.1 hm) hrest

theorem Entries.of_lookup {ms : List (Str × α)} (h : Entries P ms) {k : Str} {v : α}
    (hv : lookup k ms = some v) : P v :=
  h.2 (k, v) (mem_of_lookup hv)

theorem map_keeps {dec : Json → Option α} (hdec : ∀ v a, dec v = some a → P a) {v : Json}
    {old new : List (Str × α)} (hold : Entries P old) (h : map dec old v = some new) : Entries P new := by
  cases v with
  | obj ms =>
    have hfold (ms : List (Str × Json)) (acc : List (Str × α)) (hacc : Entries P acc)
        (hms : ms.foldlM (fun acc m => (dec m.2).map fun v => setMember m.1 v acc) acc = some new) :
        Entries P new := by
      induction ms generalizing acc with
      | nil =>
        cases hms
        exact hacc
      | cons m ms ih =>
        obtain ⟨acc', hacc', hrest⟩ := Option.bind_eq_some_iff.mp hms
        obtain ⟨x, hx, rfl⟩ := Option.map_eq_some_iff.mp hacc'
        exact ih _ (hacc.set m.1 (hdec m.2 x hx)) hrest
    exact hfold ms old hold h
  | null =>
    cases h
    exact entries_nil
  | bool _ | num _ | str _ | arr _ => cases h

theorem anyMap_keeps {v : Json} {old new : List (Str × Json)} (hold : Entries Json.Decoded old)
    (h : anyMap old v = some new) : Entries Json.Decoded new :=
  map_keeps Json.decoded_of_toAny hold h

theorem pointer_keeps {zero : α} {dec : α → Json → Option α} (hzero : P zero)
    (hdec : ∀ a v a', P a → dec a v = some a' → P a') {v : Json} {old new : Option α}
    (hold : ∀ a ∈ old, P a) (h : pointer zero dec old v = some new) : ∀ a ∈ new, P a := by
  cases v with
  | null =>
    cases h
    exact fun _ h => nomatch h
  | bool _ | num _ | str _ | arr _ | obj _ =>
    obtain ⟨a, ha, rfl⟩ := Option.map_eq_some_iff.mp h
    intro a' ha'
    cases ha'
    refine hdec _ _ a ?_ ha
    cases old with
    | none => exact hzero
    | some o => exact hold o rfl

end Keeps
end Decode
end Janus
