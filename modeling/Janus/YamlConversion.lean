import Janus.OpenApi

/-!
# The conversion of YAML values

The conversion goes over every mapping in some order and keeps what it finds under the text
of its key. It loses nothing, and the order does not matter, exactly when no mapping has two
keys of one text (`lossless_iff`).
-/

namespace Janus.OpenApi

set_option autoImplicit false

mutual
/-- The value with the entries of its mappings in the order of another iteration. -/
def Yaml.Reorders : Yaml → Yaml → Prop
  | .scalar s, w => w = .scalar s
  | .seq xs, w => ∃ ys, w = .seq ys ∧ ReordersItems xs ys
  | .map es, w => ∃ fs gs, w = .map gs ∧ ReordersEntries es fs ∧ fs.Perm gs
def Yaml.ReordersItems : List Yaml → List Yaml → Prop
  | [], ys => ys = []
  | x :: xs, ys => ∃ y zs, ys = y :: zs ∧ x.Reorders y ∧ ReordersItems xs zs
def Yaml.ReordersEntries : List (YamlScalar × Yaml) → List (YamlScalar × Yaml) → Prop
  | [], fs => fs = []
  | (k, x) :: es, fs => ∃ y gs, fs = (k, y) :: gs ∧ x.Reorders y ∧ ReordersEntries es gs
end

mutual
/-- A mapping has as many members as the source, and under the text of each key the converted
value of that key. -/
def Yaml.Lossless : Yaml → JsonLike → Prop
  | .scalar s, c => c = .scalar s
  | .seq xs, c => ∃ ys, c = .seq ys ∧ LosslessItems xs ys
  | .map es, c => ∃ ms, c = .map ms ∧ (ms.map Prod.fst).Nodup ∧ ms.length = es.length ∧
      LosslessEntries es ms
def Yaml.LosslessItems : List Yaml → List JsonLike → Prop
  | [], ys => ys = []
  | x :: xs, ys => ∃ y zs, ys = y :: zs ∧ x.Lossless y ∧ LosslessItems xs zs
def Yaml.LosslessEntries : List (YamlScalar × Yaml) → List (Str × JsonLike) → Prop
  | [], _ => True
  | (k, x) :: es, ms => (∃ y, lookup k.sprint ms = some y ∧ x.Lossless y) ∧ LosslessEntries es ms
end

mutual
/-- One value, a map having no order. -/
def JsonLike.Same : JsonLike → JsonLike → Prop
  | .scalar s, c => c = .scalar s
  | .seq xs, c => ∃ ys, c = .seq ys ∧ SameItems xs ys
  | .map ms, c => ∃ ns, c = .map ns ∧ ms.length = ns.length ∧ SameMembers ms ns
def JsonLike.SameItems : List JsonLike → List JsonLike → Prop
  | [], ys => ys = []
  | x :: xs, ys => ∃ y zs, ys = y :: zs ∧ x.Same y ∧ SameItems xs zs
def JsonLike.SameMembers : List (Str × JsonLike) → List (Str × JsonLike) → Prop
  | [], _ => True
  | (k, x) :: ms, ns => (∃ y, lookup k ns = some y ∧ x.Same y) ∧ SameMembers ms ns
end

def keyTexts (es : List (YamlScalar × Yaml)) : List Str := es.map fun e => e.1.sprint

mutual
/-- No mapping has two keys of one text. -/
def Yaml.DistinctTexts : Yaml → Prop
  | .scalar _ => True
  | .seq xs => DistinctItems xs
  | .map es => (keyTexts es).Nodup ∧ DistinctEntries es
def Yaml.DistinctItems : List Yaml → Prop
  | [] => True
  | x :: xs => x.DistinctTexts ∧ DistinctItems xs
def Yaml.DistinctEntries : List (YamlScalar × Yaml) → Prop
  | [] => True
  | (_, x) :: es => x.DistinctTexts ∧ DistinctEntries es
end

open Yaml JsonLike

theorem fst_subset (es : List (YamlScalar × Yaml)) :
    ∀ m ∈ convertYAMLEntries es, m.1 ∈ keyTexts es := by
  induction es with
  | nil =>
    intro m hm
    cases hm
  | cons e es ih =>
    obtain ⟨k, x⟩ := e
    intro m hm
    rw [convertYAMLEntries] at hm
    split at hm
    · exact List.mem_cons_of_mem _ (ih m hm)
    · rcases List.mem_cons.mp hm with rfl | hm
      · exact List.mem_cons_self
      · exact List.mem_cons_of_mem _ (ih m hm)

theorem nodup_convertYAMLEntries (es : List (YamlScalar × Yaml)) :
    ((convertYAMLEntries es).map Prod.fst).Nodup := by
  induction es with
  | nil => exact List.nodup_nil
  | cons e es ih =>
    obtain ⟨k, x⟩ := e
    rw [convertYAMLEntries]
    split
    · exact ih
    · next hnone =>
      apply List.nodup_cons.mpr
      refine ⟨?_, ih⟩
      intro hmem
      obtain ⟨⟨l, y⟩, hm, rfl⟩ := List.mem_map.mp hmem
      rw [(lookup_eq_some_iff ih).mpr hm] at hnone
      exact hnone rfl

theorem length_convertYAMLEntries_le (es : List (YamlScalar × Yaml)) :
    (convertYAMLEntries es).length ≤ es.length := by
  induction es with
  | nil => exact Nat.le_refl _
  | cons e es ih =>
    obtain ⟨k, x⟩ := e
    rw [convertYAMLEntries]
    split
    · exact Nat.le_succ_of_le ih
    · exact Nat.succ_le_succ ih

/-- With distinct texts every entry has its member. -/
theorem convertYAMLEntries_eq {es : List (YamlScalar × Yaml)} (h : (keyTexts es).Nodup) :
    convertYAMLEntries es = es.map fun e => (e.1.sprint, convertYAMLValue e.2) := by
  induction es with
  | nil => rfl
  | cons e es ih =>
    obtain ⟨k, x⟩ := e
    obtain ⟨hk, hes⟩ := List.nodup_cons.mp h
    have hnone : lookup k.sprint (convertYAMLEntries es) = none := by
      apply lookup_eq_none_of_forall
      intro m hm he
      have hmem := fst_subset es m hm
      rw [he] at hmem
      exact hk hmem
    rw [convertYAMLEntries, hnone, ih hes]
    rfl

/-- Members are as many as entries only when no text occurs twice. -/
theorem nodup_of_length {es : List (YamlScalar × Yaml)}
    (h : (convertYAMLEntries es).length = es.length) : (keyTexts es).Nodup := by
  induction es with
  | nil => exact List.nodup_nil
  | cons e es ih =>
    obtain ⟨k, x⟩ := e
    have hle := length_convertYAMLEntries_le es
    rw [convertYAMLEntries] at h
    split at h
    · rw [List.length_cons] at h
      omega
    · next hnone =>
      have hlen : (convertYAMLEntries es).length = es.length := Nat.succ.inj h
      have hes := ih hlen
      apply List.nodup_cons.mpr
      refine ⟨?_, hes⟩
      intro hmem
      obtain ⟨⟨l, y⟩, hm, he⟩ := List.mem_map.mp hmem
      have hfst : ((convertYAMLEntries es).map Prod.fst).Nodup := nodup_convertYAMLEntries es
      have hin : (k.sprint, convertYAMLValue y) ∈ convertYAMLEntries es := by
        rw [convertYAMLEntries_eq hes]
        exact List.mem_map.mpr ⟨(l, y), hm, congrArg (fun t => (t, convertYAMLValue y)) he⟩
      rw [(lookup_eq_some_iff hfst).mpr hin] at hnone
      exact hnone rfl

theorem losslessEntries_iff {es : List (YamlScalar × Yaml)} {ms : List (Str × JsonLike)} :
    LosslessEntries es ms ↔ ∀ e ∈ es, ∃ y, lookup e.1.sprint ms = some y ∧ e.2.Lossless y := by
  induction es with
  | nil => simp [LosslessEntries]
  | cons e es ih =>
    obtain ⟨k, x⟩ := e
    rw [LosslessEntries, ih, List.forall_mem_cons]

theorem sameMembers_of_forall {ms ns : List (Str × JsonLike)}
    (h : ∀ m ∈ ms, ∃ y, lookup m.1 ns = some y ∧ m.2.Same y) : SameMembers ms ns := by
  induction ms with
  | nil => trivial
  | cons m ms ih =>
    obtain ⟨hm, hms⟩ := List.forall_mem_cons.mp h
    exact ⟨hm, ih hms⟩

mutual
theorem reorders_refl (v : Yaml) : v.Reorders v := by
  match v with
  | .scalar s => rfl
  | .seq xs => exact ⟨xs, rfl, reordersItems_refl xs⟩
  | .map es => exact ⟨es, es, rfl, reordersEntries_refl es, List.Perm.refl es⟩
theorem reordersItems_refl (xs : List Yaml) : ReordersItems xs xs := by
  match xs with
  | [] => rfl
  | x :: xs => exact ⟨x, xs, rfl, reorders_refl x, reordersItems_refl xs⟩
theorem reordersEntries_refl (es : List (YamlScalar × Yaml)) : ReordersEntries es es := by
  match es with
  | [] => rfl
  | (k, x) :: es => exact ⟨x, es, rfl, reorders_refl x, reordersEntries_refl es⟩
end

theorem keyTexts_reordersEntries {es fs : List (YamlScalar × Yaml)} (h : ReordersEntries es fs) :
    keyTexts fs = keyTexts es := by
  induction es generalizing fs with
  | nil =>
    cases h
    rfl
  | cons e es ih =>
    obtain ⟨y, gs, rfl, _, hgs⟩ := h
    exact congrArg (List.cons e.1.sprint) (ih hgs)

mutual
/-- The conversion loses nothing in any order, when all texts are distinct. -/
theorem lossless_of_reorders (v w : Yaml) (hd : v.DistinctTexts) (h : v.Reorders w) :
    v.Lossless (convertYAMLValue w) := by
  match v with
  | .scalar s =>
    rw [h]
    rfl
  | .seq xs =>
    obtain ⟨ys, rfl, hys⟩ := h
    exact ⟨convertYAMLItems ys, rfl, losslessItems_of_reorders xs ys hd hys⟩
  | .map es =>
    obtain ⟨fs, gs, rfl, hfs, hperm⟩ := h
    obtain ⟨hnodup, hentries⟩ := hd
    have htexts : (keyTexts gs).Perm (keyTexts es) := by
      rw [← keyTexts_reordersEntries hfs]
      exact (hperm.map fun e => e.1.sprint).symm
    have hgs : (keyTexts gs).Nodup := htexts.nodup_iff.mpr hnodup
    refine ⟨convertYAMLEntries gs, rfl, nodup_convertYAMLEntries gs, ?_, ?_⟩
    · have hlen := htexts.length_eq
      simp only [keyTexts, List.length_map] at hlen
      rw [convertYAMLEntries_eq hgs, List.length_map, hlen]
    · apply losslessEntries_iff.mpr
      intro e he
      obtain ⟨y, hy, hlossless⟩ := lossless_of_reordersEntries es fs hentries hfs e he
      refine ⟨convertYAMLValue y, ?_, hlossless⟩
      rw [lookup_eq_some_iff (nodup_convertYAMLEntries gs), convertYAMLEntries_eq hgs]
      exact List.mem_map.mpr ⟨(e.1, y), hperm.mem_iff.mp hy, rfl⟩
theorem losslessItems_of_reorders (xs ys : List Yaml) (hd : DistinctItems xs)
    (h : ReordersItems xs ys) : LosslessItems xs (convertYAMLItems ys) := by
  match xs with
  | [] =>
    cases h
    rfl
  | x :: xs =>
    obtain ⟨y, zs, rfl, hy, hzs⟩ := h
    exact ⟨_, _, rfl, lossless_of_reorders x y hd.1 hy, losslessItems_of_reorders xs zs hd.2 hzs⟩
theorem lossless_of_reordersEntries (es fs : List (YamlScalar × Yaml)) (hd : DistinctEntries es)
    (h : ReordersEntries es fs) :
    ∀ e ∈ es, ∃ y, (e.1, y) ∈ fs ∧ e.2.Lossless (convertYAMLValue y) := by
  match es with
  | [] =>
    intro e he
    cases he
  | (k, x) :: es =>
    obtain ⟨y, gs, rfl, hy, hgs⟩ := h
    intro e he
    rcases List.mem_cons.mp he with rfl | he
    · exact ⟨y, List.mem_cons_self, lossless_of_reorders x y hd.1 hy⟩
    · obtain ⟨z, hz, hlossless⟩ := lossless_of_reordersEntries es gs hd.2 hgs e he
      exact ⟨z, List.mem_cons_of_mem _ hz, hlossless⟩
end

mutual
/-- A single iteration that loses nothing tells that all texts are distinct. -/
theorem distinct_of_lossless (v : Yaml) (h : v.Lossless (convertYAMLValue v)) : v.DistinctTexts := by
  match v with
  | .scalar s => trivial
  | .seq xs =>
    obtain ⟨ys, hys, hxs⟩ := h
    cases hys
    exact distinctItems_of_lossless xs hxs
  | .map es =>
    obtain ⟨ms, hms, _, hlen, hentries⟩ := h
    cases hms
    have hnodup := nodup_of_length hlen
    refine ⟨hnodup, distinctEntries_of_lossless es ?_⟩
    intro e he
    obtain ⟨y, hy, hlossless⟩ := losslessEntries_iff.mp hentries e he
    have hmem : (e.1.sprint, convertYAMLValue e.2) ∈ convertYAMLEntries es := by
      rw [convertYAMLEntries_eq hnodup]
      exact List.mem_map.mpr ⟨e, he, rfl⟩
    rw [(lookup_eq_some_iff (nodup_convertYAMLEntries es)).mpr hmem] at hy
    exact Option.some.inj hy ▸ hlossless
theorem distinctItems_of_lossless (xs : List Yaml) (h : LosslessItems xs (convertYAMLItems xs)) :
    DistinctItems xs := by
  match xs with
  | [] => trivial
  | x :: xs =>
    obtain ⟨y, zs, hys, hx, hxs⟩ := h
    cases hys
    exact ⟨distinct_of_lossless x hx, distinctItems_of_lossless xs hxs⟩
theorem distinctEntries_of_lossless (es : List (YamlScalar × Yaml))
    (h : ∀ e ∈ es, e.2.Lossless (convertYAMLValue e.2)) : DistinctEntries es := by
  match es with
  | [] => trivial
  | (k, x) :: es =>
    obtain ⟨hx, hes⟩ := List.forall_mem_cons.mp h
    exact ⟨distinct_of_lossless x hx, distinctEntries_of_lossless es hes⟩
end

mutual
/-- What loses nothing of a value with distinct texts is determined by it. -/
theorem same_of_lossless (v : Yaml) (c c' : JsonLike) (hd : v.DistinctTexts) (h : v.Lossless c)
    (h' : v.Lossless c') : c.Same c' := by
  match v with
  | .scalar s =>
    rw [h, h']
    rfl
  | .seq xs =>
    obtain ⟨ys, rfl, hys⟩ := h
    obtain ⟨zs, rfl, hzs⟩ := h'
    exact ⟨zs, rfl, sameItems_of_lossless xs ys zs hd hys hzs⟩
  | .map es =>
    obtain ⟨ms, rfl, hms, hlen, hentries⟩ := h
    obtain ⟨ns, rfl, _, hlen', hentries'⟩ := h'
    refine ⟨ns, rfl, hlen.trans hlen'.symm, sameMembers_of_forall ?_⟩
    -- every member is under the text of some key, because there are as many of both
    have hsub : keyTexts es ⊆ ms.map Prod.fst := by
      intro t ht
      obtain ⟨e, he, rfl⟩ := List.mem_map.mp ht
      obtain ⟨y, hy, _⟩ := losslessEntries_iff.mp hentries e he
      exact List.mem_map.mpr ⟨_, mem_of_lookup hy, rfl⟩
    have hperm : (keyTexts es).Perm (ms.map Prod.fst) := by
      apply (List.subperm_of_subset hd.1 hsub).perm_of_length_le
      simp only [keyTexts, List.length_map]
      omega
    rintro ⟨k, x⟩ hm
    obtain ⟨e, he, rfl⟩ := List.mem_map.mp (hperm.mem_iff.mpr (List.mem_map_of_mem hm))
    obtain ⟨y, hy, hlossless⟩ := losslessEntries_iff.mp hentries e he
    obtain ⟨y', hy', hlossless'⟩ := losslessEntries_iff.mp hentries' e he
    obtain rfl : x = y := Option.some.inj (((lookup_eq_some_iff hms).mpr hm).symm.trans hy)
    exact ⟨y', hy', same_of_losslessEntry es hd.2 e he x y' hlossless hlossless'⟩
theorem sameItems_of_lossless (xs : List Yaml) (ys zs : List JsonLike) (hd : DistinctItems xs)
    (h : LosslessItems xs ys) (h' : LosslessItems xs zs) : SameItems ys zs := by
  match xs with
  | [] =>
    cases h
    cases h'
    rfl
  | x :: xs =>
    obtain ⟨y, ys, rfl, hy, hys⟩ := h
    obtain ⟨z, zs, rfl, hz, hzs⟩ := h'
    exact ⟨z, zs, rfl, same_of_lossless x y z hd.1 hy hz, sameItems_of_lossless xs ys zs hd.2 hys hzs⟩
theorem same_of_losslessEntry (es : List (YamlScalar × Yaml)) (hd : DistinctEntries es) :
    ∀ e ∈ es, ∀ c c', e.2.Lossless c → e.2.Lossless c' → c.Same c' := by
  match es with
  | [] =>
    intro e he
    cases he
  | (k, x) :: es =>
    exact List.forall_mem_cons.mpr
      ⟨fun c c' hc hc' => same_of_lossless x c c' hd.1 hc hc', same_of_losslessEntry es hd.2⟩
end

/-- The conversion loses nothing and does not depend on the order of any iteration exactly when
no mapping has two keys of one text. -/
theorem lossless_iff (v : Yaml) :
    ((∀ w, v.Reorders w → v.Lossless (convertYAMLValue w)) ∧
      ∀ w w', v.Reorders w → v.Reorders w' → (convertYAMLValue w).Same (convertYAMLValue w')) ↔
        v.DistinctTexts := by
  constructor
  · rintro ⟨hlossless, _⟩
    exact distinct_of_lossless v (hlossless v (reorders_refl v))
  · intro hd
    refine ⟨fun w hw => lossless_of_reorders v w hd hw, ?_⟩
    intro w w' hw hw'
    exact same_of_lossless v _ _ hd (lossless_of_reorders v w hd hw) (lossless_of_reorders v w' hd hw')

/-- The responses `200` and `"200"`. -/
def twiceKeyed : Yaml :=
  .map [(.int 200, .scalar (.str ['a'])), (.str "200".toList, .scalar (.str ['b']))]

def twiceKeyedSwapped : Yaml :=
  .map [(.str "200".toList, .scalar (.str ['b'])), (.int 200, .scalar (.str ['a']))]

/-- One of two members is lost, and the order decides which. -/
theorem twiceKeyed_lossy :
    twiceKeyed.Reorders twiceKeyedSwapped ∧
      convertYAMLValue twiceKeyed = .map [("200".toList, .scalar (.str ['b']))] ∧
      convertYAMLValue twiceKeyedSwapped = .map [("200".toList, .scalar (.str ['a']))] ∧
      ¬ twiceKeyed.Lossless (convertYAMLValue twiceKeyed) ∧
      ¬ (convertYAMLValue twiceKeyed).Same (convertYAMLValue twiceKeyedSwapped) := by
  have hb : convertYAMLValue twiceKeyed = .map [("200".toList, .scalar (.str ['b']))] := rfl
  have ha : convertYAMLValue twiceKeyedSwapped = .map [("200".toList, .scalar (.str ['a']))] := rfl
  refine ⟨⟨_, _, rfl, reordersEntries_refl _, List.Perm.swap ..⟩, hb, ha, ?_, ?_⟩
  · rw [hb]
    rintro ⟨ms, ⟨rfl⟩, _, hlen, _⟩
    exact absurd hlen (by decide)
  · rw [ha, hb]
    rintro ⟨ns, ⟨rfl⟩, _, ⟨y, hy, hsame⟩, _⟩
    cases hy
    cases hsame

end Janus.OpenApi
