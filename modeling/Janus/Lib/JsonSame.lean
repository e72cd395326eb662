import Janus.Lib.JsonCompact
import Janus.Lib.NumberRounding

/-!
# Values up to the order of members

Two decoded values are the same when they agree as trees in which an object is a map
from names to values. With one member for each name the sorted form decides this
(`same_iff_sorted`), so two decoded values have one encoding exactly when they are the
same (`marshal_eq_iff`). The encoding of a decoded value is itself decoded
(`decode_marshal`).
-/

namespace Janus

set_option autoImplicit false

def Ascending {α : Type} (ms : List (Str × α)) : Prop :=
  ms.Pairwise fun m n => Text.leStr m.1 n.1 = true

theorem ascending_insertMember {α : Type} (m : Str × α) {ms : List (Str × α)} (h : Ascending ms) :
    Ascending (insertMember m ms) := by
  induction ms with
  | nil => exact List.pairwise_singleton _ m
  | cons n ms ih =>
    obtain ⟨hn, hms⟩ := List.pairwise_cons.mp h
    simp only [insertMember]
    split
    · rename_i hle
      apply List.pairwise_cons.mpr
      refine ⟨?_, h⟩
      intro x hx
      rcases List.mem_cons.mp hx with rfl | hx
      · exact hle
      · exact Text.leStr_trans hle (hn x hx)
    · rename_i hle
      apply List.pairwise_cons.mpr
      refine ⟨?_, ih hms⟩
      intro x hx
      rcases mem_insertMember.mp hx with rfl | hx
      · exact (Text.leStr_total n.1 x.1).resolve_right hle
      · exact hn x hx

theorem ascending_sortMembers {α : Type} (ms : List (Str × α)) : Ascending (sortMembers ms) := by
  induction ms with
  | nil => exact List.Pairwise.nil
  | cons m ms ih => exact ascending_insertMember m ih

theorem eq_of_fst_eq {α : Type} {ms : List (Str × α)} (h : (ms.map Prod.fst).Nodup) {k : Str}
    {x y : α} (hx : (k, x) ∈ ms) (hy : (k, y) ∈ ms) : x = y := by
  have hlook := (lookup_eq_some_iff h).mpr hx
  rw [(lookup_eq_some_iff h).mpr hy] at hlook
  exact (Option.some.inj hlook).symm

/-- With one member for each name, sorting forgets the order and nothing else. -/
theorem sortMembers_eq_iff {α : Type} {ms ns : List (Str × α)} (hm : (ms.map Prod.fst).Nodup)
    (hn : (ns.map Prod.fst).Nodup) :
    sortMembers ms = sortMembers ns ↔ ∀ m, m ∈ ms ↔ m ∈ ns := by
  constructor
  · intro h m
    rw [← mem_sortMembers, h, mem_sortMembers]
  · intro h
    have hperm : ms.Perm ns :=
      (List.perm_ext_iff_of_nodup hm.of_map hn.of_map).mpr h
    refine List.Perm.eq_of_pairwise ?_ (ascending_sortMembers ms) (ascending_sortMembers ns)
      ((perm_sortMembers ms).trans (hperm.trans (perm_sortMembers ns).symm))
    rintro ⟨k, x⟩ ⟨l, y⟩ hx hy hle hge
    obtain rfl : k = l := Text.leStr_antisymm hle hge
    rw [eq_of_fst_eq hn ((h _).mp (mem_sortMembers.mp hx)) (mem_sortMembers.mp hy)]

namespace Json

mutual
/-- One value, an object being a map from its names. -/
def Same : Json → Json → Prop
  | .null, .null => True
  | .bool a, .bool b => a = b
  | .num a, .num b => a = b
  | .str a, .str b => a = b
  | .arr xs, .arr ys => SameItems xs ys
  | .obj ms, .obj ns => SameMembers ms ns ∧ ∀ n ∈ ns, n.1 ∈ ms.map Prod.fst
  | _, _ => False
def SameItems : List Json → List Json → Prop
  | [], [] => True
  | x :: xs, y :: ys => x.Same y ∧ SameItems xs ys
  | _, _ => False
/-- Every member has the same value under its name in the other object. -/
def SameMembers : List (Str × Json) → List (Str × Json) → Prop
  | [], _ => True
  | (k, x) :: ms, ns => (∃ y, lookup k ns = some y ∧ x.Same y) ∧ SameMembers ms ns
end

mutual
/-- No object has two members of one name. -/
def Distinct : Json → Prop
  | .arr xs => DistinctItems xs
  | .obj ms => (ms.map Prod.fst).Nodup ∧ DistinctMembers ms
  | .null | .bool _ | .num _ | .str _ => True
def DistinctItems : List Json → Prop
  | [] => True
  | x :: xs => x.Distinct ∧ DistinctItems xs
def DistinctMembers : List (Str × Json) → Prop
  | [] => True
  | (_, x) :: ms => x.Distinct ∧ DistinctMembers ms
end

theorem distinctMembers_iff {ms : List (Str × Json)} :
    DistinctMembers ms ↔ ∀ m ∈ ms, m.2.Distinct := by
  induction ms with
  | nil => simp [DistinctMembers]
  | cons m ms ih =>
    obtain ⟨k, x⟩ := m
    simp [DistinctMembers, ih]

theorem mem_sortedMembers {k : Str} {z : Json} {ms : List (Str × Json)} :
    (k, z) ∈ sortedMembers ms ↔ ∃ x, (k, x) ∈ ms ∧ x.sorted = z := by
  induction ms with
  | nil => simp [sortedMembers]
  | cons m ms ih =>
    obtain ⟨l, y⟩ := m
    simp only [sortedMembers, List.mem_cons, Prod.mk.injEq, ih]
    constructor
    · rintro (⟨rfl, rfl⟩ | ⟨x, hx, rfl⟩)
      · exact ⟨y, Or.inl ⟨rfl, rfl⟩, rfl⟩
      · exact ⟨x, Or.inr hx, rfl⟩
    · rintro ⟨x, ⟨rfl, rfl⟩ | hx, rfl⟩
      · exact Or.inl ⟨rfl, rfl⟩
      · exact Or.inr ⟨x, hx, rfl⟩

theorem fst_sortedMembers (ms : List (Str × Json)) :
    (sortedMembers ms).map Prod.fst = ms.map Prod.fst := by
  induction ms with
  | nil => rfl
  | cons m ms ih =>
    obtain ⟨k, x⟩ := m
    simp [sortedMembers, ih]

/-- Where one object's members are among the other's, the names decide the rest. -/
theorem mem_iff_of_subset {α : Type} {ms ns : List (Str × α)} (hn : (ns.map Prod.fst).Nodup)
    (hsub : ∀ m ∈ ms, m ∈ ns) :
    (∀ m, m ∈ ms ↔ m ∈ ns) ↔ ∀ n ∈ ns, n.1 ∈ ms.map Prod.fst := by
  constructor
  · intro h n hmem
    exact List.mem_map.mpr ⟨n, (h n).mpr hmem, rfl⟩
  · intro h n
    refine ⟨hsub n, ?_⟩
    intro hmem
    obtain ⟨⟨k, x⟩, hx, rfl⟩ := List.mem_map.mp (h n hmem)
    obtain ⟨l, y⟩ := n
    rw [eq_of_fst_eq hn hmem (hsub _ hx)]
    exact hx

mutual
/-- The sorted form of a value decides sameness. -/
theorem same_iff_sorted (v w : Json) (hv : v.Distinct) (hw : w.Distinct) :
    v.Same w ↔ v.sorted = w.sorted := by
  match v with
  | .null | .bool _ | .num _ | .str _ => cases w <;> simp [Same, sorted]
  | .arr xs =>
    cases w with
    | arr ys =>
      simp only [Same, sorted, arr.injEq]
      exact sameItems_iff_sorted xs ys hv hw
    | _ => simp [Same, sorted]
  | .obj ms =>
    cases w with
    | obj ns =>
      obtain ⟨hnodup, hdm⟩ := hv
      obtain ⟨hnodup', hdn⟩ := hw
      have hkeys : ((sortedMembers ms).map Prod.fst).Nodup := by rwa [fst_sortedMembers]
      have hkeys' : ((sortedMembers ns).map Prod.fst).Nodup := by rwa [fst_sortedMembers]
      simp only [Same, sorted, obj.injEq]
      rw [sortMembers_eq_iff hkeys hkeys', sameMembers_iff_sorted ms ns hdm hnodup' hdn]
      constructor
      · rintro ⟨hsub, hnames⟩
        refine (mem_iff_of_subset hkeys' hsub).mpr ?_
        rintro ⟨k, z⟩ hz
        obtain ⟨x, hx, _⟩ := mem_sortedMembers.mp hz
        rw [fst_sortedMembers]
        exact hnames (k, x) hx
      · intro h
        refine ⟨fun m hm => (h m).mp hm, ?_⟩
        rintro ⟨k, y⟩ hy
        have hnames := (mem_iff_of_subset hkeys' fun m hm => (h m).mp hm).mp h
        have hk := hnames (k, y.sorted) (mem_sortedMembers.mpr ⟨y, hy, rfl⟩)
        rwa [fst_sortedMembers] at hk
    | _ => simp [Same, sorted]
theorem sameItems_iff_sorted (xs ys : List Json) (hx : DistinctItems xs) (hy : DistinctItems ys) :
    SameItems xs ys ↔ sortedItems xs = sortedItems ys := by
  match xs, ys with
  | [], [] => simp [SameItems]
  | [], _ :: _ => simp [SameItems, sortedItems]
  | _ :: _, [] => simp [SameItems, sortedItems]
  | x :: xs, y :: ys =>
    simp only [SameItems, sortedItems, List.cons.injEq]
    rw [same_iff_sorted x y hx.1 hy.1, sameItems_iff_sorted xs ys hx.2 hy.2]
theorem sameMembers_iff_sorted (ms ns : List (Str × Json)) (hm : DistinctMembers ms)
    (hn : (ns.map Prod.fst).Nodup) (hd : DistinctMembers ns) :
    SameMembers ms ns ↔ ∀ m ∈ sortedMembers ms, m ∈ sortedMembers ns := by
  match ms with
  | [] => simp [SameMembers, sortedMembers]
  | (k, x) :: ms =>
    have hrest := sameMembers_iff_sorted ms ns hm.2 hn hd
    simp only [SameMembers, sortedMembers, List.forall_mem_cons, hrest]
    apply and_congr_left
    intro _
    rw [mem_sortedMembers]
    constructor
    · rintro ⟨y, hy, hsame⟩
      have hmem := mem_of_lookup hy
      have hyd := distinctMembers_iff.mp hd _ hmem
      exact ⟨y, hmem, ((same_iff_sorted x y hm.1 hyd).mp hsame).symm⟩
    · rintro ⟨y, hmem, he⟩
      have hyd := distinctMembers_iff.mp hd _ hmem
      exact ⟨y, (lookup_eq_some_iff hn).mpr hmem, (same_iff_sorted x y hm.1 hyd).mpr he.symm⟩
end

theorem sameMembers_of_forall {ms ns : List (Str × Json)}
    (h : ∀ m ∈ ms, ∃ y, lookup m.1 ns = some y ∧ m.2.Same y) : SameMembers ms ns := by
  induction ms with
  | nil => trivial
  | cons m ms ih =>
    obtain ⟨hm, hrest⟩ := List.forall_mem_cons.mp h
    exact ⟨hm, ih hrest⟩

mutual
/-- Sorting the members leaves the value what it is. -/
theorem same_sorted (v : Json) (h : v.Distinct) : v.Same v.sorted := by
  match v with
  | .null => trivial
  | .bool _ | .num _ | .str _ => rfl
  | .arr xs => exact same_sortedItems xs h
  | .obj ms =>
    obtain ⟨hnodup, hd⟩ := h
    have hkeys : ((sortMembers (sortedMembers ms)).map Prod.fst).Nodup :=
      (((perm_sortMembers _).map Prod.fst).nodup_iff).mpr (by rwa [fst_sortedMembers])
    refine ⟨sameMembers_of_forall fun m hm => ⟨m.2.sorted, ?_, same_sortedMembers ms hd m hm⟩, ?_⟩
    · exact (lookup_eq_some_iff hkeys).mpr (mem_sortMembers.mpr (mem_sortedMembers.mpr ⟨m.2, hm, rfl⟩))
    · rintro ⟨k, y⟩ hn
      obtain ⟨x, hx, _⟩ := mem_sortedMembers.mp (mem_sortMembers.mp hn)
      exact List.mem_map.mpr ⟨(k, x), hx, rfl⟩
theorem same_sortedItems (xs : List Json) (h : DistinctItems xs) : SameItems xs (sortedItems xs) := by
  match xs with
  | [] => trivial
  | x :: xs => exact ⟨same_sorted x h.1, same_sortedItems xs h.2⟩
theorem same_sortedMembers (ms : List (Str × Json)) (h : DistinctMembers ms) :
    ∀ m ∈ ms, m.2.Same m.2.sorted := by
  match ms with
  | [] => simp
  | (k, x) :: ms =>
    exact List.forall_mem_cons.mpr ⟨same_sorted x h.1, same_sortedMembers ms h.2⟩
end

/-- Two values with distinct names have one encoding exactly when they are the same. -/
theorem marshal_eq_iff {v w : Json} (hv : v.Distinct) (hw : w.Distinct) :
    v.marshal = w.marshal ↔ v.Same w := by
  rw [same_iff_sorted v w hv hw]
  constructor
  · intro h
    have hread := congrArg JsonText.parse h
    simp only [marshal, JsonText.parse_compact] at hread
    exact Option.some.inj hread
  · intro h
    rw [marshal, h, marshal]

/-- The map that a list of members is put into. -/
theorem foldl_setMember {α : Type} (ns acc : List (Str × α)) (h : (acc.map Prod.fst).Nodup) :
    ((ns.foldl (fun acc (k, v) => setMember k v acc) acc).map Prod.fst).Nodup ∧
      ∀ m ∈ ns.foldl (fun acc (k, v) => setMember k v acc) acc, m ∈ acc ∨ m ∈ ns := by
  induction ns generalizing acc with
  | nil => exact ⟨h, fun m hm => Or.inl hm⟩
  | cons n ns ih =>
    obtain ⟨k, v⟩ := n
    obtain ⟨hnodup, hmem⟩ := ih (setMember k v acc) (nodup_setMember k v h)
    refine ⟨hnodup, ?_⟩
    intro m hm
    rcases hmem m hm with hset | hns
    · rcases mem_of_mem_setMember hset with rfl | hacc
      · exact Or.inr List.mem_cons_self
      · exact Or.inl hacc
    · exact Or.inr (List.mem_cons_of_mem _ hns)

theorem toAny_obj {ms : List (Str × Json)} {w : Json} (h : toAny (.obj ms) = some w) :
    ∃ ns os, toAnyMembers ms = some ns ∧ w = .obj os ∧ (os.map Prod.fst).Nodup ∧
      ∀ m ∈ os, m ∈ ns := by
  obtain ⟨ns, hns, rfl⟩ := Option.map_eq_some_iff.mp h
  obtain ⟨hnodup, hmem⟩ := foldl_setMember ns [] List.nodup_nil
  exact ⟨ns, _, hns, rfl, hnodup, fun m hm => (hmem m hm).resolve_left List.not_mem_nil⟩

mutual
theorem distinct_of_toAny (v w : Json) (h : v.toAny = some w) : w.Distinct := by
  match v with
  | .null | .bool _ | .str _ =>
    cases h
    trivial
  | .num n =>
    obtain ⟨m, _, rfl⟩ := Option.map_eq_some_iff.mp h
    trivial
  | .arr xs =>
    obtain ⟨ys, hys, rfl⟩ := Option.map_eq_some_iff.mp h
    exact distinctItems_of_toAny xs ys hys
  | .obj ms =>
    obtain ⟨ns, os, hns, rfl, hnodup, hsub⟩ := toAny_obj h
    refine ⟨hnodup, distinctMembers_iff.mpr ?_⟩
    intro m hm
    exact distinctMembers_iff.mp (distinctMembers_of_toAny ms ns hns) m (hsub m hm)
theorem distinctItems_of_toAny (xs ys : List Json) (h : toAnyItems xs = some ys) :
    DistinctItems ys := by
  match xs with
  | [] =>
    cases h
    trivial
  | x :: xs =>
    obtain ⟨y, hy, hrest⟩ := Option.bind_eq_some_iff.mp h
    obtain ⟨zs, hzs, rfl⟩ := Option.map_eq_some_iff.mp hrest
    exact ⟨distinct_of_toAny x y hy, distinctItems_of_toAny xs zs hzs⟩
theorem distinctMembers_of_toAny (ms ns : List (Str × Json)) (h : toAnyMembers ms = some ns) :
    DistinctMembers ns := by
  match ms with
  | [] =>
    cases h
    trivial
  | (k, x) :: ms =>
    obtain ⟨y, hy, hrest⟩ := Option.bind_eq_some_iff.mp h
    obtain ⟨os, hos, rfl⟩ := Option.map_eq_some_iff.mp hrest
    exact ⟨distinct_of_toAny x y hy, distinctMembers_of_toAny ms os hos⟩
end

theorem toAnyItems_isSome {xs : List Json} :
    (toAnyItems xs).isSome = true ↔ ∀ x ∈ xs, x.toAny.isSome = true := by
  induction xs with
  | nil => simp [toAnyItems]
  | cons x xs ih => cases hx : x.toAny <;> simp [toAnyItems, hx, ih]

theorem toAnyMembers_isSome {ms : List (Str × Json)} :
    (toAnyMembers ms).isSome = true ↔ ∀ m ∈ ms, m.2.toAny.isSome = true := by
  induction ms with
  | nil => simp [toAnyMembers]
  | cons m ms ih =>
    obtain ⟨k, x⟩ := m
    cases hx : x.toAny <;> simp [toAnyMembers, hx, ih]

mutual
/-- A decoded value is decoded again: its numbers are in range. -/
theorem toAny_again (v w : Json) (h : v.toAny = some w) : w.toAny.isSome = true := by
  match v with
  | .null | .bool _ | .str _ =>
    cases h
    rfl
  | .num n =>
    obtain ⟨m, hm, rfl⟩ := Option.map_eq_some_iff.mp h
    simpa [toAny] using float64_again hm
  | .arr xs =>
    obtain ⟨ys, hys, rfl⟩ := Option.map_eq_some_iff.mp h
    simpa [toAny] using toAnyItems_again xs ys hys
  | .obj ms =>
    obtain ⟨ns, os, hns, rfl, _, hsub⟩ := toAny_obj h
    have hall := toAnyMembers_isSome.mp (toAnyMembers_again ms ns hns)
    simpa [toAny] using toAnyMembers_isSome.mpr fun m hm => hall m (hsub m hm)
theorem toAnyItems_again (xs ys : List Json) (h : toAnyItems xs = some ys) :
    (toAnyItems ys).isSome = true := by
  match xs with
  | [] =>
    cases h
    rfl
  | x :: xs =>
    obtain ⟨y, hy, hrest⟩ := Option.bind_eq_some_iff.mp h
    obtain ⟨zs, hzs, rfl⟩ := Option.map_eq_some_iff.mp hrest
    apply toAnyItems_isSome.mpr
    rw [List.forall_mem_cons]
    exact ⟨toAny_again x y hy, toAnyItems_isSome.mp (toAnyItems_again xs zs hzs)⟩
theorem toAnyMembers_again (ms ns : List (Str × Json)) (h : toAnyMembers ms = some ns) :
    (toAnyMembers ns).isSome = true := by
  match ms with
  | [] =>
    cases h
    rfl
  | (k, x) :: ms =>
    obtain ⟨y, hy, hrest⟩ := Option.bind_eq_some_iff.mp h
    obtain ⟨os, hos, rfl⟩ := Option.map_eq_some_iff.mp hrest
    apply toAnyMembers_isSome.mpr
    rw [List.forall_mem_cons]
    exact ⟨toAny_again x y hy, toAnyMembers_isSome.mp (toAnyMembers_again ms os hos)⟩
end

mutual
theorem toAny_sorted (v : Json) (h : v.toAny.isSome = true) : v.sorted.toAny.isSome = true := by
  match v with
  | .null | .bool _ | .str _ | .num _ => exact h
  | .arr xs =>
    have hxs : (toAnyItems xs).isSome = true := by simpa [toAny] using h
    simpa [toAny, sorted] using toAnyItems_isSome.mpr (toAny_sortedItems xs (toAnyItems_isSome.mp hxs))
  | .obj ms =>
    have hms : (toAnyMembers ms).isSome = true := by simpa [toAny] using h
    have hall := toAny_sortedMembers ms (toAnyMembers_isSome.mp hms)
    simpa [toAny, sorted] using toAnyMembers_isSome.mpr fun m hm => hall m (mem_sortMembers.mp hm)
theorem toAny_sortedItems (xs : List Json) (h : ∀ x ∈ xs, x.toAny.isSome = true) :
    ∀ x ∈ sortedItems xs, x.toAny.isSome = true := by
  match xs with
  | [] => simp [sortedItems]
  | x :: xs =>
    obtain ⟨hx, hxs⟩ := List.forall_mem_cons.mp h
    exact List.forall_mem_cons.mpr ⟨toAny_sorted x hx, toAny_sortedItems xs hxs⟩
theorem toAny_sortedMembers (ms : List (Str × Json)) (h : ∀ m ∈ ms, m.2.toAny.isSome = true) :
    ∀ m ∈ sortedMembers ms, m.2.toAny.isSome = true := by
  match ms with
  | [] => simp [sortedMembers]
  | (k, x) :: ms =>
    obtain ⟨hx, hms⟩ := List.forall_mem_cons.mp h
    exact List.forall_mem_cons.mpr ⟨toAny_sorted x hx, toAny_sortedMembers ms hms⟩
end

/-- The encoding of a decoded value is decoded. -/
theorem decode_marshal {v w : Json} (h : v.toAny = some w) :
    ((JsonText.parse w.marshal).bind toAny).isSome = true := by
  rw [marshal, JsonText.parse_compact, Option.bind_some]
  exact toAny_sorted w (toAny_again v w h)

end Json
end Janus
