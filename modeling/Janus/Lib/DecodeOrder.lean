import Janus.Lib.Decode
import Janus.Lib.JsonSame

/-!
# Decoding up to the order of members

Two documents are reorderings of each other when they are the same value and no object of
either has two members whose names differ in letter case only. Each decoding rule then takes
them to related results: a record needs that members of different names are assigned
independently (`record_rel`), a map from names comes out with the same entries in some order
(`map_rel`), and an untyped value comes out the same (`toAny_rel`).
-/

namespace Janus

set_option autoImplicit false

section Related

variable {α β γ δ : Type} {R : α → β → Prop} {S : γ → δ → Prop}

theorem rel_map {f : α → γ} {g : β → δ} {x : Option α} {y : Option β}
    (hf : ∀ a b, R a b → S (f a) (g b)) (h : Option.Rel R x y) : Option.Rel S (x.map f) (y.map g) := by
  cases h with
  | none => exact .none
  | some hab => exact .some (hf _ _ hab)

theorem rel_map_right {S : α → γ → Prop} {f : β → γ} {x : Option α} {y : Option β}
    (hf : ∀ a b, R a b → S a (f b)) (h : Option.Rel R x y) : Option.Rel S x (y.map f) := by
  cases h with
  | none => exact .none
  | some hab => exact .some (hf _ _ hab)

theorem rel_bind {f : α → Option γ} {g : β → Option δ} {x : Option α} {y : Option β}
    (hf : ∀ a b, R a b → Option.Rel S (f a) (g b)) (h : Option.Rel R x y) :
    Option.Rel S (x.bind f) (y.bind g) := by
  cases h with
  | none => exact .none
  | some hab => exact hf _ _ hab

theorem rel_or {x x' : Option α} {y y' : Option β} (h : Option.Rel R x y) (h' : Option.Rel R x' y') :
    Option.Rel R (x.or x') (y.or y') := by
  cases h with
  | none => exact h'
  | some hab => exact .some hab

theorem rel_isSome {x : Option α} {y : Option β} (h : Option.Rel R x y) : x.isSome = y.isSome := by
  cases h with
  | none => rfl
  | some hab => rfl

theorem rel_getD {a : α} {b : β} (hab : R a b) {x : Option α} {y : Option β} (h : Option.Rel R x y) :
    R (x.getD a) (y.getD b) := by
  cases h with
  | none => exact hab
  | some hxy => exact hxy

theorem rel_cases {x : Option α} {y : Option β} (h : Option.Rel R x y) :
    (x = none ∧ y = none) ∨ ∃ a b, x = some a ∧ y = some b ∧ R a b := by
  cases h with
  | none => exact Or.inl ⟨rfl, rfl⟩
  | some hab => exact Or.inr ⟨_, _, rfl, rfl, hab⟩

theorem rel_some_left {a : α} {y : Option β} (h : Option.Rel R (some a) y) : ∃ b, y = some b ∧ R a b := by
  cases h with
  | some hab => exact ⟨_, rfl, hab⟩

theorem rel_some_right {x : Option α} {b : β} (h : Option.Rel R x (some b)) : ∃ a, x = some a ∧ R a b := by
  cases h with
  | some hab => exact ⟨_, rfl, hab⟩

theorem rel_eq {x y : Option α} (h : Option.Rel Eq x y) : x = y := by
  cases h with
  | none => rfl
  | some hab => rw [hab]

theorem rel_refl {x : Option α} : Option.Rel Eq x x := by
  cases x with
  | none => exact .none
  | some a => exact .some rfl

end Related

/-- Two maps with the same names and related values. -/
structure MapRel {α : Type} (R : α → α → Prop) (ms ns : List (Str × α)) : Prop where
  left : (ms.map Prod.fst).Nodup
  right : (ns.map Prod.fst).Nodup
  entries : ∀ k, Option.Rel R (lookup k ms) (lookup k ns)

section Maps

variable {α : Type} {R : α → α → Prop} {ms ns : List (Str × α)}

theorem MapRel.nil : MapRel R [] [] :=
  ⟨List.nodup_nil, List.nodup_nil, fun _ => .none⟩

theorem MapRel.set (h : MapRel R ms ns) (k : Str) {x y : α} (hxy : R x y) :
    MapRel R (setMember k x ms) (setMember k y ns) where
  left := nodup_setMember k x h.left
  right := nodup_setMember k y h.right
  entries := by
    intro l
    by_cases hl : l = k
    · subst hl
      rw [lookup_setMember_self, lookup_setMember_self]
      exact .some hxy
    · rw [lookup_setMember_of_ne hl, lookup_setMember_of_ne hl]
      exact h.entries l

theorem lookup_isSome_iff {k : Str} : (lookup k ms).isSome = true ↔ k ∈ ms.map Prod.fst := by
  induction ms with
  | nil => simp [lookup]
  | cons m ms ih =>
    obtain ⟨l, x⟩ := m
    by_cases hl : l = k
    · simp [lookup, hl]
    · have hkl : ¬ k = l := fun he => hl he.symm
      simp only [lookup, if_neg hl, Option.or_none, List.map_cons, List.mem_cons, hkl, false_or, ih]

theorem MapRel.fst (h : MapRel R ms ns) : (ms.map Prod.fst).Perm (ns.map Prod.fst) := by
  apply (List.perm_ext_iff_of_nodup h.left h.right).mpr
  intro k
  rw [← lookup_isSome_iff, ← lookup_isSome_iff, rel_isSome (h.entries k)]

theorem fst_of_forall₂ (h : List.Forall₂ (fun m n => m.1 = n.1 ∧ R m.2 n.2) ms ns) :
    ms.map Prod.fst = ns.map Prod.fst := by
  induction h with
  | nil => rfl
  | cons hmn _ ih => rw [List.map_cons, List.map_cons, ih, hmn.1]

theorem lookup_of_forall₂ (h : List.Forall₂ (fun m n => m.1 = n.1 ∧ R m.2 n.2) ms ns) (k : Str) :
    Option.Rel R (lookup k ms) (lookup k ns) := by
  induction h with
  | nil => exact .none
  | @cons m n ms ns hmn _ ih =>
    obtain ⟨l, x⟩ := m
    obtain ⟨l', y⟩ := n
    obtain ⟨rfl, hxy⟩ := hmn
    rw [lookup, lookup]
    apply rel_or ih
    split_ifs
    · exact .some hxy
    · exact .none

/-- Two lists of entries with the same names in the same places. -/
theorem MapRel.of_forall₂ (h : List.Forall₂ (fun m n => m.1 = n.1 ∧ R m.2 n.2) ms ns)
    (hms : (ms.map Prod.fst).Nodup) : MapRel R ms ns :=
  ⟨hms, fst_of_forall₂ h ▸ hms, lookup_of_forall₂ h⟩

theorem MapRel.exists_right (h : MapRel R ms ns) {m : Str × α} (hm : m ∈ ms) :
    ∃ y, lookup m.1 ns = some y ∧ R m.2 y := by
  have hrel := h.entries m.1
  rw [(lookup_eq_some_iff h.left).mpr hm] at hrel
  exact rel_some_left hrel

theorem MapRel.exists_left (h : MapRel R ms ns) {n : Str × α} (hn : n ∈ ns) :
    ∃ x, lookup n.1 ms = some x ∧ R x n.2 := by
  have hrel := h.entries n.1
  rw [(lookup_eq_some_iff h.right).mpr hn] at hrel
  exact rel_some_right hrel

theorem MapRel.eq_nil_iff (h : MapRel R ms ns) : ms = [] ↔ ns = [] := by
  have hlen := h.fst.length_eq
  rw [List.length_map, List.length_map] at hlen
  rw [← List.length_eq_zero_iff, ← List.length_eq_zero_iff, hlen]

theorem MapRel.perm {os : List (Str × α)} (h : MapRel R ms ns) (hp : os.Perm ns) : MapRel R ms os where
  left := h.left
  right := (hp.map Prod.fst).nodup_iff.mpr h.right
  entries := fun k => by
    rw [lookup_perm k h.right hp.symm]
    exact h.entries k

/-- The values of the second map in another form. -/
theorem MapRel.map_right {S : α → α → Prop} {f : α → α} (hf : ∀ x y, R x y → S x (f y))
    (h : MapRel R ms ns) : MapRel S ms (ns.map fun n => (n.1, f n.2)) where
  left := h.left
  right := by
    rw [List.map_map]
    exact h.right
  entries := by
    intro k
    rw [lookup_map]
    exact rel_map_right hf (h.entries k)

/-- What stands under a name after the entries of a map have been put over another map. -/
theorem lookup_foldl_setMember (acc : List (Str × α)) (k : Str) :
    lookup k (ms.foldl (fun acc m => setMember m.1 m.2 acc) acc) =
      (lookup k ms).or (lookup k acc) := by
  induction ms generalizing acc with
  | nil => rfl
  | cons m ms ih =>
    obtain ⟨l, x⟩ := m
    rw [List.foldl_cons, ih, lookup, Option.or_assoc]
    by_cases hl : l = k
    · subst hl
      rw [lookup_setMember_self, if_pos rfl, Option.some_or]
    · rw [lookup_setMember_of_ne fun he => hl he.symm, if_neg hl, Option.none_or]

theorem MapRel.foldl_setMember {as bs : List (Str × α)} (h : MapRel R ms ns) (hacc : MapRel R as bs) :
    MapRel R (ms.foldl (fun acc m => setMember m.1 m.2 acc) as)
      (ns.foldl (fun acc m => setMember m.1 m.2 acc) bs) where
  left := (Json.foldl_setMember ms as hacc.left).1
  right := (Json.foldl_setMember ns bs hacc.right).1
  entries := by
    intro k
    rw [lookup_foldl_setMember, lookup_foldl_setMember]
    exact rel_or (h.entries k) (hacc.entries k)

end Maps

namespace Json

open Text (equalFold)

mutual
/-- No object has two members whose names differ in letter case only. -/
def FoldDistinct : Json → Prop
  | .arr xs => FoldDistinctItems xs
  | .obj ms => (ms.Pairwise fun m n => equalFold m.1 n.1 = false) ∧ FoldDistinctMembers ms
  | .null | .bool _ | .num _ | .str _ => True
def FoldDistinctItems : List Json → Prop
  | [] => True
  | x :: xs => x.FoldDistinct ∧ FoldDistinctItems xs
def FoldDistinctMembers : List (Str × Json) → Prop
  | [] => True
  | (_, x) :: ms => x.FoldDistinct ∧ FoldDistinctMembers ms
end

theorem foldDistinctItems_iff {xs : List Json} : FoldDistinctItems xs ↔ ∀ x ∈ xs, x.FoldDistinct := by
  induction xs with
  | nil => simp [FoldDistinctItems]
  | cons x xs ih => simp [FoldDistinctItems, ih]

theorem foldDistinctMembers_iff {ms : List (Str × Json)} :
    FoldDistinctMembers ms ↔ ∀ m ∈ ms, m.2.FoldDistinct := by
  induction ms with
  | nil => simp [FoldDistinctMembers]
  | cons m ms ih =>
    obtain ⟨k, x⟩ := m
    simp [FoldDistinctMembers, ih]

theorem distinctItems_iff {xs : List Json} : DistinctItems xs ↔ ∀ x ∈ xs, x.Distinct := by
  induction xs with
  | nil => simp [DistinctItems]
  | cons x xs ih => simp [DistinctItems, ih]

theorem sameMembers_iff {ms ns : List (Str × Json)} :
    SameMembers ms ns ↔ ∀ m ∈ ms, ∃ y, lookup m.1 ns = some y ∧ m.2.Same y := by
  induction ms with
  | nil => simp [SameMembers]
  | cons m ms ih =>
    obtain ⟨k, x⟩ := m
    simp [SameMembers, ih]

theorem nodup_of_foldDistinct {α : Type} {ms : List (Str × α)}
    (h : ms.Pairwise fun m n => equalFold m.1 n.1 = false) : (ms.map Prod.fst).Nodup := by
  apply List.pairwise_map.mpr
  apply h.imp
  intro m n hfold he
  rw [he, equalFold, decide_eq_false_iff_not] at hfold
  exact hfold rfl

/-- A condition that goes down to the parts, under which an object has one member of each name. -/
structure Hereditary (P : Json → Prop) : Prop where
  items : ∀ xs, P (.arr xs) → ∀ x ∈ xs, P x
  names : ∀ ms, P (.obj ms) → (ms.map Prod.fst).Nodup
  members : ∀ ms, P (.obj ms) → ∀ m ∈ ms, P m.2

theorem hereditary_distinct : Hereditary Distinct where
  items := fun _ h => distinctItems_iff.mp h
  names := fun _ h => h.1
  members := fun _ h => distinctMembers_iff.mp h.2

theorem hereditary_foldDistinct : Hereditary FoldDistinct where
  items := fun _ h => foldDistinctItems_iff.mp h
  names := fun _ h => nodup_of_foldDistinct h.1
  members := fun _ h => foldDistinctMembers_iff.mp h.2

/-- One value twice, both under a condition. -/
structure SameIn (P : Json → Prop) (v w : Json) : Prop where
  left : P v
  right : P w
  same : v.Same w

/-- One document, the members of its objects in two orders. -/
def Reordered : Json → Json → Prop := SameIn FoldDistinct

/-- One decoded value, its maps in two orders. -/
def Alike : Json → Json → Prop := SameIn Distinct

/-- Two values of one shape, their parts related. -/
inductive Shape (R : Json → Json → Prop) : Json → Json → Prop
  | null : Shape R .null .null
  | bool (b : Bool) : Shape R (.bool b) (.bool b)
  | num (n : NumLit) : Shape R (.num n) (.num n)
  | str (s : Str) : Shape R (.str s) (.str s)
  | arr {xs ys : List Json} (items : List.Forall₂ R xs ys) : Shape R (.arr xs) (.arr ys)
  | obj {ms ns : List (Str × Json)} (members : MapRel R ms ns) : Shape R (.obj ms) (.obj ns)

section Parts

variable {P : Json → Prop}

theorem forall₂_of_sameItems {xs ys : List Json} (hx : ∀ x ∈ xs, P x) (hy : ∀ y ∈ ys, P y)
    (h : SameItems xs ys) : List.Forall₂ (SameIn P) xs ys := by
  induction xs generalizing ys with
  | nil =>
    cases ys with
    | nil => exact .nil
    | cons y ys => exact h.elim
  | cons x xs ih =>
    cases ys with
    | nil => exact h.elim
    | cons y ys =>
      obtain ⟨hx, hxs⟩ := List.forall_mem_cons.mp hx
      obtain ⟨hy, hys⟩ := List.forall_mem_cons.mp hy
      exact .cons ⟨hx, hy, h.1⟩ (ih hxs hys h.2)

theorem SameIn.mapRel (hP : Hereditary P) {ms ns : List (Str × Json)}
    (h : SameIn P (.obj ms) (.obj ns)) : MapRel (SameIn P) ms ns where
  left := hP.names ms h.left
  right := hP.names ns h.right
  entries := by
    intro k
    cases hx : lookup k ms with
    | none =>
      have hnone : lookup k ns = none := by
        apply lookup_eq_none_of_forall
        intro n hn hk
        have hmem := lookup_isSome_iff.mpr (h.same.2 n hn)
        rw [hk, hx] at hmem
        cases hmem
      rw [hnone]
      exact .none
    | some x =>
      obtain ⟨y, hy, hsame⟩ := sameMembers_iff.mp h.same.1 _ (mem_of_lookup hx)
      rw [hy]
      exact .some ⟨hP.members ms h.left _ (mem_of_lookup hx),
        hP.members ns h.right _ (mem_of_lookup hy), hsame⟩

theorem SameIn.shape (hP : Hereditary P) {v w : Json} (h : SameIn P v w) : Shape (SameIn P) v w := by
  have hsame := h.same
  cases v with
  | null =>
    cases w with
    | null => exact .null
    | _ => exact hsame.elim
  | bool a =>
    cases w with
    | bool b => exact hsame ▸ .bool a
    | _ => exact hsame.elim
  | num a =>
    cases w with
    | num b => exact hsame ▸ .num a
    | _ => exact hsame.elim
  | str a =>
    cases w with
    | str b => exact hsame ▸ .str a
    | _ => exact hsame.elim
  | arr xs =>
    cases w with
    | arr ys => exact .arr (forall₂_of_sameItems (hP.items xs h.left) (hP.items ys h.right) hsame)
    | _ => exact hsame.elim
  | obj ms =>
    cases w with
    | obj ns => exact .obj (h.mapRel hP)
    | _ => exact hsame.elim

end Parts

theorem Reordered.shape {v w : Json} (h : Reordered v w) : Shape Reordered v w :=
  SameIn.shape hereditary_foldDistinct h

theorem Alike.shape {x y : Json} (h : Alike x y) : Shape Alike x y :=
  SameIn.shape hereditary_distinct h

theorem alike_arr {xs ys : List Json} (h : List.Forall₂ Alike xs ys) : Alike (.arr xs) (.arr ys) := by
  induction h with
  | nil => exact ⟨trivial, trivial, trivial⟩
  | cons hxy _ ih => exact ⟨⟨hxy.left, ih.left⟩, ⟨hxy.right, ih.right⟩, ⟨hxy.same, ih.same⟩⟩

theorem alike_obj {ms ns : List (Str × Json)} (h : MapRel Alike ms ns) : Alike (.obj ms) (.obj ns) where
  left := by
    refine ⟨h.left, distinctMembers_iff.mpr ?_⟩
    intro m hm
    obtain ⟨y, _, hxy⟩ := h.exists_right hm
    exact hxy.left
  right := by
    refine ⟨h.right, distinctMembers_iff.mpr ?_⟩
    intro n hn
    obtain ⟨x, _, hxy⟩ := h.exists_left hn
    exact hxy.right
  same := by
    refine ⟨sameMembers_iff.mpr ?_, ?_⟩
    · intro m hm
      obtain ⟨y, hy, hxy⟩ := h.exists_right hm
      exact ⟨y, hy, hxy.same⟩
    · intro n hn
      exact h.fst.mem_iff.mpr (List.mem_map_of_mem hn)

theorem marshal_eq_of_alike {x y : Json} (h : Alike x y) : x.marshal = y.marshal :=
  (marshal_eq_iff h.left h.right).mpr h.same

end Json

namespace Decode

open Json
open Text (equalFold)

variable {α : Type} {R : α → α → Prop}

theorem str_rel {s t : Str} (hst : s = t) {v w : Json} (h : Reordered v w) :
    Option.Rel Eq (str s v) (str t w) := by
  subst hst
  cases h.shape with
  | null | bool | num | str | arr | obj => exact rel_refl

theorem bool_rel {b c : Bool} (hbc : b = c) {v w : Json} (h : Reordered v w) :
    Option.Rel Eq (bool b v) (bool c w) := by
  subst hbc
  cases h.shape with
  | null | bool | num | str | arr | obj => exact rel_refl

theorem items_rel {zero : α} {dec : α → Json → Option α} (hzero : R zero zero)
    (hdec : ∀ a b v w, R a b → Reordered v w → Option.Rel R (dec a v) (dec b w)) {xs ys : List Json}
    (h : List.Forall₂ Reordered xs ys) {as bs : List α} (hab : List.Forall₂ R as bs) :
    Option.Rel (List.Forall₂ R) (items zero dec as xs) (items zero dec bs ys) := by
  induction h generalizing as bs with
  | nil =>
    cases hab with
    | nil => exact .some .nil
    | cons => exact .some .nil
  | cons hxy _ ih =>
    cases hab with
    | nil => exact rel_bind (fun _ _ hy => rel_map (fun _ _ hys => .cons hy hys) (ih .nil)) (hdec _ _ _ _ hzero hxy)
    | cons ho hos => exact rel_bind (fun _ _ hy => rel_map (fun _ _ hys => .cons hy hys) (ih hos)) (hdec _ _ _ _ ho hxy)

theorem list_rel {zero : α} {dec : α → Json → Option α} (hzero : R zero zero)
    (hdec : ∀ a b v w, R a b → Reordered v w → Option.Rel R (dec a v) (dec b w)) {as bs : List α}
    (hab : List.Forall₂ R as bs) {v w : Json} (h : Reordered v w) :
    Option.Rel (List.Forall₂ R) (list zero dec as v) (list zero dec bs w) := by
  cases h.shape with
  | null => exact .some .nil
  | arr hxs => exact items_rel hzero hdec hxs hab
  | bool | num | str | obj => exact .none

theorem pointer_rel {zero : α} {dec : α → Json → Option α} (hzero : R zero zero)
    (hdec : ∀ a b v w, R a b → Reordered v w → Option.Rel R (dec a v) (dec b w)) {x y : Option α}
    (hxy : Option.Rel R x y) {v w : Json} (h : Reordered v w) :
    Option.Rel (Option.Rel R) (pointer zero dec x v) (pointer zero dec y w) := by
  have hsome := rel_map (fun _ _ hab => Option.Rel.some hab) (hdec _ _ _ _ (rel_getD hzero hxy) h)
  cases h.shape with
  | null => exact .some .none
  | bool | num | str | arr | obj => exact hsome

section Maps

variable {dec : Json → Option α} {ms ns : List (Str × Json)} {old out : List (Str × α)}

theorem map_isSome_iff : (map dec old (.obj ms)).isSome = true ↔ ∀ m ∈ ms, (dec m.2).isSome = true := by
  induction ms generalizing old with
  | nil => simp [map]
  | cons m ms ih =>
    simp only [map] at ih
    simp only [map, List.foldlM_cons, Option.bind_eq_bind, List.forall_mem_cons]
    cases hx : dec m.2 with
    | none => simp
    | some x => simpa using ih

/-- The entries of the map that is read: those of the object, then the old ones. -/
theorem map_some (h : map dec old (.obj ms) = some out) :
    ((old.map Prod.fst).Nodup → (out.map Prod.fst).Nodup) ∧
      ∀ k, lookup k out = (lookup k ms).elim (lookup k old) dec := by
  induction ms generalizing old with
  | nil =>
    obtain rfl := Option.some.inj h
    exact ⟨id, fun _ => rfl⟩
  | cons m ms ih =>
    obtain ⟨l, v⟩ := m
    obtain ⟨acc, hacc, hrest⟩ := Option.bind_eq_some_iff.mp h
    obtain ⟨x, hx, rfl⟩ := Option.map_eq_some_iff.mp hacc
    obtain ⟨hnodup, hlookup⟩ := ih hrest
    refine ⟨fun hold => hnodup (nodup_setMember l x hold), ?_⟩
    intro k
    rw [hlookup, lookup]
    cases lookup k ms with
    | some w => rfl
    | none =>
      by_cases hl : l = k
      · subst hl
        simp [lookup_setMember_self, hx]
      · simp [lookup_setMember_of_ne fun he => hl (Eq.symm he), hl]

theorem map_obj_rel {T : Json → Json → Prop} (h : MapRel T ms ns)
    (hdec : ∀ m ∈ ms, ∀ w, T m.2 w → Option.Rel R (dec m.2) (dec w)) {as bs : List (Str × α)}
    (hab : MapRel R as bs) : Option.Rel (MapRel R) (map dec as (.obj ms)) (map dec bs (.obj ns)) := by
  have hsome : (map dec as (.obj ms)).isSome = (map dec bs (.obj ns)).isSome := by
    apply Bool.eq_iff_iff.mpr
    rw [map_isSome_iff, map_isSome_iff]
    constructor
    · intro hall n hn
      obtain ⟨x, hx, hxy⟩ := h.exists_left hn
      have hm := mem_of_lookup hx
      rw [← rel_isSome (hdec _ hm _ hxy)]
      exact hall _ hm
    · intro hall m hm
      obtain ⟨y, hy, hxy⟩ := h.exists_right hm
      rw [rel_isSome (hdec m hm y hxy)]
      exact hall _ (mem_of_lookup hy)
  cases hx : map dec as (.obj ms) with
  | none =>
    rw [hx] at hsome
    rw [Option.isNone_iff_eq_none.mp (Option.isSome_eq_false_iff.mp hsome.symm)]
    exact .none
  | some xs =>
    rw [hx] at hsome
    obtain ⟨ys, hy⟩ := Option.isSome_iff_exists.mp hsome.symm
    rw [hy]
    obtain ⟨hnodup, hlookup⟩ := map_some hx
    obtain ⟨hnodup', hlookup'⟩ := map_some hy
    refine .some ⟨hnodup hab.left, hnodup' hab.right, ?_⟩
    intro k
    rw [hlookup, hlookup']
    rcases rel_cases (h.entries k) with ⟨hm, hn⟩ | ⟨v, w, hm, hn, hvw⟩
    · rw [hm, hn]
      exact hab.entries k
    · rw [hm, hn]
      exact hdec _ (mem_of_lookup hm) w hvw

end Maps

theorem map_rel {dec : Json → Option α} (hdec : ∀ v w, Reordered v w → Option.Rel R (dec v) (dec w))
    {as bs : List (Str × α)} (hab : MapRel R as bs) {v w : Json} (h : Reordered v w) :
    Option.Rel (MapRel R) (map dec as v) (map dec bs w) := by
  cases h.shape with
  | null => exact .some .nil
  | obj hms => exact map_obj_rel hms (fun _ _ w => hdec _ w) hab
  | bool | num | str | arr => exact .none

theorem map_toAny (old ms : List (Str × Json)) :
    map toAny old (.obj ms) =
      (toAnyMembers ms).map fun ns => ns.foldl (fun acc (k, v) => setMember k v acc) old := by
  induction ms generalizing old with
  | nil => rfl
  | cons m ms ih =>
    obtain ⟨k, x⟩ := m
    simp only [map] at ih
    simp only [map, List.foldlM_cons, Option.bind_eq_bind, toAnyMembers]
    cases x.toAny with
    | none => rfl
    | some y => simp [ih, Option.map_map, Function.comp_def]

theorem toAny_obj (ms : List (Str × Json)) : toAny (.obj ms) = (map toAny [] (.obj ms)).map .obj := by
  rw [map_toAny, toAny, Option.map_map]
  rfl

mutual
theorem toAny_rel (v w : Json) (h : Reordered v w) : Option.Rel Alike v.toAny w.toAny := by
  match v with
  | .null =>
    cases h.shape
    exact .some ⟨trivial, trivial, trivial⟩
  | .bool b =>
    cases h.shape
    exact .some ⟨trivial, trivial, rfl⟩
  | .num n =>
    cases h.shape
    exact rel_map (fun _ _ he => ⟨trivial, trivial, he⟩) (rel_refl (x := n.float64))
  | .str s =>
    cases h.shape
    exact .some ⟨trivial, trivial, rfl⟩
  | .arr xs =>
    cases h.shape with
    | arr hxs => exact rel_map (fun _ _ => alike_arr) (toAnyItems_rel xs _ hxs)
  | .obj ms =>
    cases h.shape with
    | obj hms =>
      rw [toAny_obj, toAny_obj]
      exact rel_map (fun _ _ => alike_obj) (map_obj_rel hms (toAnyMembers_rel ms) .nil)
theorem toAnyItems_rel (xs ys : List Json) (h : List.Forall₂ Reordered xs ys) :
    Option.Rel (List.Forall₂ Alike) (toAnyItems xs) (toAnyItems ys) := by
  match xs with
  | [] =>
    cases h
    exact .some .nil
  | x :: xs =>
    cases h with
    | cons hxy hrest =>
      exact rel_bind (fun _ _ hy => rel_map (fun _ _ => .cons hy) (toAnyItems_rel xs _ hrest))
        (toAny_rel x _ hxy)
theorem toAnyMembers_rel (ms : List (Str × Json)) :
    ∀ m ∈ ms, ∀ w, Reordered m.2 w → Option.Rel Alike m.2.toAny w.toAny := by
  match ms with
  | [] =>
    intro m hm
    cases hm
  | (k, x) :: ms => exact List.forall_mem_cons.mpr ⟨fun w => toAny_rel x w, toAnyMembers_rel ms⟩
end

theorem anyMap_rel {as bs : List (Str × Json)} (hab : MapRel Alike as bs) {v w : Json}
    (h : Reordered v w) : Option.Rel (MapRel Alike) (anyMap as v) (anyMap bs w) :=
  map_rel toAny_rel hab h

/-- Members of different names are read independently. -/
def OrderFree (assign : α → Str → Json → Option α) : Prop :=
  ∀ a k l v w, equalFold k l = false →
    ((assign a k v).bind fun b => assign b l w) = (assign a l w).bind fun b => assign b k v

theorem not_both {k l n : Str} (h : equalFold k l = false) (hk : equalFold k n = true) :
    ¬ equalFold l n = true := by
  intro hl
  rw [equalFold, decide_eq_true_eq] at hk hl
  rw [equalFold, decide_eq_false_iff_not, hk, hl] at h
  exact h rfl

/-- Two fields that are read from their own members. -/
theorem bind_map_comm {β γ : Type} (x : Option β) (y : Option γ) (f : β → γ → α) :
    (x.bind fun b => y.map (f b)) = y.bind fun c => x.map fun b => f b c := by
  cases x <;> cases y <;> rfl

/-- A record of one field. -/
theorem orderFree_single (n : Str) (f : α → Json → Option α) :
    OrderFree fun a k v => if equalFold k n then f a v else some a := by
  intro a k l v w hkl
  dsimp only
  split_ifs with hk hl hl
  · exact absurd hl (not_both hkl hk)
  · simp
  · simp
  · rfl

/-- A field before the others: it is read independently of them, and they are of each other. -/
theorem orderFree_field {n : Str} {f : α → Json → Option α} {rest : α → Str → Json → Option α}
    (hf : ∀ a k v w, ((f a v).bind fun b => rest b k w) = (rest a k w).bind fun b => f b v)
    (hrest : OrderFree rest) :
    OrderFree fun a k v => if equalFold k n then f a v else rest a k v := by
  intro a k l v w hkl
  dsimp only
  split_ifs with hk hl hl
  · exact absurd hl (not_both hkl hk)
  · exact hf a l v w
  · exact (hf a k w v).symm
  · exact hrest a k l v w hkl

theorem exists_forall₂_mem {T : α → α → Prop} {ms ns ls : List (Str × α)} (h : MapRel T ms ns)
    (hls : ∀ m ∈ ls, m ∈ ms) :
    ∃ os, List.Forall₂ (fun m n => m.1 = n.1 ∧ T m.2 n.2) ls os ∧ ∀ o ∈ os, o ∈ ns := by
  induction ls with
  | nil => exact ⟨[], .nil, by simp⟩
  | cons m ls ih =>
    obtain ⟨hm, hrest⟩ := List.forall_mem_cons.mp hls
    obtain ⟨os, hos, hmem⟩ := ih hrest
    obtain ⟨y, hy, hxy⟩ := h.exists_right hm
    exact ⟨(m.1, y) :: os, .cons ⟨rfl, hxy⟩ hos, List.forall_mem_cons.mpr ⟨mem_of_lookup hy, hmem⟩⟩

/-- The members of the other object in the order of this one. -/
theorem exists_aligned {T : α → α → Prop} {ms ns : List (Str × α)} (h : MapRel T ms ns) :
    ∃ os, List.Forall₂ (fun m n => m.1 = n.1 ∧ T m.2 n.2) ms os ∧ os.Perm ns := by
  obtain ⟨os, hos, hmem⟩ := exists_forall₂_mem h fun _ hm => hm
  have hnames := fst_of_forall₂ hos
  have hnodup : os.Nodup := by
    apply List.Nodup.of_map Prod.fst
    rw [← hnames]
    exact h.left
  have hlen := h.fst.length_eq
  rw [hnames, List.length_map, List.length_map] at hlen
  exact ⟨os, hos, (List.subperm_of_subset hnodup hmem).perm_of_length_le (by omega)⟩

theorem foldlM_perm {assign : α → Str → Json → Option α} (hfree : OrderFree assign)
    {ms ns : List (Str × Json)} (hperm : ms.Perm ns)
    (hms : ms.Pairwise fun m n => equalFold m.1 n.1 = false) (a : α) :
    ms.foldlM (fun a m => assign a m.1 m.2) a = ns.foldlM (fun a m => assign a m.1 m.2) a := by
  have hsymm : Std.Symm fun m n : Str × Json => equalFold m.1 n.1 = false := by
    refine ⟨fun m n hmn => ?_⟩
    rw [equalFold, decide_eq_false_iff_not] at hmn ⊢
    exact fun he => hmn he.symm
  rw [List.foldlM_eq_foldl, List.foldlM_eq_foldl]
  apply hperm.foldl_eq'
  intro m hm n hn z
  cases z with
  | none => rfl
  | some b =>
    by_cases he : m = n
    · rw [he]
    · exact hfree b m.1 n.1 m.2 n.2 (hms.forall hm hn he)

theorem record_rel {assign : α → Str → Json → Option α} (hfree : OrderFree assign)
    (hassign : ∀ a b k v w, R a b → Reordered v w → Option.Rel R (assign a k v) (assign b k w))
    {a b : α} (hab : R a b) {v w : Json} (h : Reordered v w) :
    Option.Rel R (record assign a v) (record assign b w) := by
  cases h.shape with
  | null => exact .some hab
  | bool | num | str | arr => exact .none
  | @obj ms ns hms =>
    obtain ⟨os, hos, hperm⟩ := exists_aligned hms
    have haligned : Option.Rel R (record assign a (.obj ms)) (record assign b (.obj os)) := by
      clear h hms hperm
      induction hos generalizing a b with
      | nil => exact .some hab
      | @cons m o ms os hmo _ ih =>
        obtain ⟨k, x⟩ := m
        obtain ⟨l, y⟩ := o
        obtain ⟨rfl, hxy⟩ := hmo
        exact rel_bind (fun _ _ hcd => ih hcd) (hassign a b k x y hab hxy)
    have hsame : record assign b (.obj ns) = record assign b (.obj os) :=
      foldlM_perm hfree hperm.symm h.right.1 b
    rw [hsame]
    exact haligned

end Decode

end Janus
