import Janus.Lib.Json

/-!
# The strings of a value
-/

namespace Janus.Json

set_option autoImplicit false

mutual
/-- The strings of a value, the names of members apart. -/
def strings : Json → List Str
  | .str s => [s]
  | .arr xs => stringsItems xs
  | .obj ms => stringsMembers ms
  | .null | .bool _ | .num _ => []
def stringsItems : List Json → List Str
  | [] => []
  | x :: xs => x.strings ++ stringsItems xs
def stringsMembers : List (Str × Json) → List Str
  | [] => []
  | (_, x) :: ms => x.strings ++ stringsMembers ms
end

mutual
/-- A value with the same names, lengths and other leaves and with its strings replaced. -/
def mapStrings (f : Str → Str) : Json → Json
  | .str s => .str (f s)
  | .arr xs => .arr (mapStringsItems f xs)
  | .obj ms => .obj (mapStringsMembers f ms)
  | .null => .null
  | .bool b => .bool b
  | .num n => .num n
def mapStringsItems (f : Str → Str) : List Json → List Json
  | [] => []
  | x :: xs => x.mapStrings f :: mapStringsItems f xs
def mapStringsMembers (f : Str → Str) : List (Str × Json) → List (Str × Json)
  | [] => []
  | (k, x) :: ms => (k, x.mapStrings f) :: mapStringsMembers f ms
end

theorem mapStringsMembers_eq (f : Str → Str) (ms : List (Str × Json)) :
    mapStringsMembers f ms = ms.map fun m => (m.1, m.2.mapStrings f) := by
  induction ms with
  | nil => rfl
  | cons m ms ih => simp [mapStringsMembers, ih]

theorem fst_mapStringsMembers (f : Str → Str) (ms : List (Str × Json)) :
    (mapStringsMembers f ms).map Prod.fst = ms.map Prod.fst := by
  simp [mapStringsMembers_eq]

theorem stringsMembers_eq (ms : List (Str × Json)) :
    stringsMembers ms = ms.flatMap fun m => m.2.strings := by
  induction ms with
  | nil => rfl
  | cons m ms ih => simp [stringsMembers, ih]

mutual
theorem mapStrings_self {f : Str → Str} (hf : ∀ s, f s = s) (v : Json) : v.mapStrings f = v := by
  match v with
  | .null | .bool _ | .num _ => rfl
  | .str s => simp [mapStrings, hf]
  | .arr xs => simp [mapStrings, mapStringsItems_self hf xs]
  | .obj ms => simp [mapStrings, mapStringsMembers_self hf ms]
theorem mapStringsItems_self {f : Str → Str} (hf : ∀ s, f s = s) (xs : List Json) :
    mapStringsItems f xs = xs := by
  match xs with
  | [] => rfl
  | x :: xs => simp [mapStringsItems, mapStrings_self hf x, mapStringsItems_self hf xs]
theorem mapStringsMembers_self {f : Str → Str} (hf : ∀ s, f s = s) (ms : List (Str × Json)) :
    mapStringsMembers f ms = ms := by
  match ms with
  | [] => rfl
  | (k, x) :: ms => simp [mapStringsMembers, mapStrings_self hf x, mapStringsMembers_self hf ms]
end

theorem foldl_setMember_map (f : Json → Json) (ms acc : List (Str × Json)) :
    (ms.foldl (fun acc (k, v) => setMember k v acc) acc).map (fun m => (m.1, f m.2)) =
      (ms.map fun m => (m.1, f m.2)).foldl (fun acc (k, v) => setMember k v acc)
        (acc.map fun m => (m.1, f m.2)) := by
  induction ms generalizing acc with
  | nil => rfl
  | cons m ms ih =>
    rw [List.foldl_cons, ih, setMember_map]
    rfl

mutual
theorem toAny_mapStrings (f : Str → Str) (v : Json) :
    (v.mapStrings f).toAny = v.toAny.map (mapStrings f) := by
  match v with
  | .null | .bool _ | .str _ => rfl
  | .num n =>
    simp only [mapStrings, toAny, Option.map_map]
    rfl
  | .arr xs =>
    simp only [mapStrings, toAny, toAny_mapStringsItems f xs, Option.map_map]
    rfl
  | .obj ms =>
    simp only [mapStrings, toAny, toAny_mapStringsMembers f ms, Option.map_map]
    apply Option.map_congr
    intro ns _
    simp only [Function.comp_apply, mapStrings, mapStringsMembers_eq,
      foldl_setMember_map (mapStrings f), List.map_nil]
theorem toAny_mapStringsItems (f : Str → Str) (xs : List Json) :
    toAnyItems (mapStringsItems f xs) = (toAnyItems xs).map (mapStringsItems f) := by
  match xs with
  | [] => rfl
  | x :: xs =>
    simp only [mapStringsItems, toAnyItems, toAny_mapStrings f x, toAny_mapStringsItems f xs]
    cases x.toAny with
    | none => rfl
    | some y => cases toAnyItems xs <;> rfl
theorem toAny_mapStringsMembers (f : Str → Str) (ms : List (Str × Json)) :
    toAnyMembers (mapStringsMembers f ms) = (toAnyMembers ms).map (mapStringsMembers f) := by
  match ms with
  | [] => rfl
  | (k, x) :: ms =>
    simp only [mapStringsMembers, toAnyMembers, toAny_mapStrings f x, toAny_mapStringsMembers f ms]
    cases x.toAny with
    | none => rfl
    | some y => cases toAnyMembers ms <;> rfl
end

end Janus.Json
