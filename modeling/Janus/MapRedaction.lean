import Janus.Redaction
import Janus.Lib.JsonLeaves
import Janus.Lib.JsonSame

/-!
# Redacting a decoded map

A value is copied string by string and the counts of what was masked are added up in
one map on the way. The members of an object are visited in an arbitrary order
(`Visits`): neither the copy nor the findings depend on it.
-/

namespace Janus.Redaction

set_option autoImplicit false

def total (c : Str) (counts : List (Str × Nat)) : Nat := (lookup c counts).getD 0

/-- The count that the findings give for a class. -/
def findingCount (findings : List Finding) (c : Str) : Nat :=
  ((findings.find? fun f => f.class = c).map Finding.count).getD 0

/-- A map from classes to positive counts. -/
structure Tallied (counts : List (Str × Nat)) : Prop where
  classes : (counts.map Prod.fst).Nodup
  positive : ∀ m ∈ counts, 0 < m.2

theorem tallied_nil : Tallied [] := ⟨List.nodup_nil, by simp⟩

theorem total_addCount (c cls : Str) (n : Nat) (counts : List (Str × Nat)) :
    total c (addCount cls n counts) = total c counts + if c = cls then n else 0 := by
  unfold total addCount
  by_cases hc : c = cls
  · rw [hc, lookup_setMember_self]
    simp
  · rw [lookup_setMember_of_ne hc]
    simp [hc]

theorem Tallied.addCount {counts : List (Str × Nat)} (h : Tallied counts) (cls : Str) {n : Nat}
    (hn : 0 < n) : Tallied (addCount cls n counts) := by
  refine ⟨nodup_setMember _ _ h.classes, ?_⟩
  intro m hm
  rcases mem_of_mem_setMember hm with rfl | hold
  · exact Nat.lt_add_left _ hn
  · exact h.positive m hold

theorem Tallied.total_eq_iff {counts : List (Str × Nat)} (h : Tallied counts) {c : Str} {n : Nat} :
    (c, n) ∈ counts ↔ 0 < n ∧ total c counts = n := by
  rw [← lookup_eq_some_iff h.classes, total]
  constructor
  · intro hl
    have hpos := h.positive _ (mem_of_lookup hl)
    simp [hl, hpos]
  · rintro ⟨hn, he⟩
    cases hl : lookup c counts with
    | none => simp [hl] at he; omega
    | some k =>
      simp only [hl, Option.getD_some] at he
      rw [he]

/-- The findings are the totals that are positive, in the order of the classes. -/
theorem findingsFromCounts_eq_iff {counts counts' : List (Str × Nat)} (h : Tallied counts)
    (h' : Tallied counts') :
    findingsFromCounts counts = findingsFromCounts counts' ↔ ∀ c, total c counts = total c counts' := by
  have hinj : Function.Injective fun m : Str × Nat => (⟨m.1, m.2⟩ : Finding) := by
    rintro ⟨c, n⟩ ⟨d, k⟩ he
    cases he
    rfl
  have hfind : findingsFromCounts counts = findingsFromCounts counts' ↔
      sortMembers counts = sortMembers counts' := List.map_inj_right hinj
  rw [hfind, sortMembers_eq_iff h.classes h'.classes]
  constructor
  · intro hmem c
    unfold total
    congr 1
    ext n
    rw [lookup_eq_some_iff h.classes, lookup_eq_some_iff h'.classes]
    exact hmem (c, n)
  · rintro htot ⟨c, n⟩
    rw [h.total_eq_iff, h'.total_eq_iff, htot c]

theorem classes_findingsFromCounts (counts : List (Str × Nat)) :
    (findingsFromCounts counts).map Finding.class = (sortMembers counts).map Prod.fst := by
  simp [findingsFromCounts]

theorem nodup_findingsFromCounts {counts : List (Str × Nat)} (h : Tallied counts) :
    ((findingsFromCounts counts).map Finding.class).Nodup := by
  rw [classes_findingsFromCounts]
  exact (((perm_sortMembers counts).map Prod.fst).nodup_iff).mpr h.classes

theorem ordered_findingsFromCounts (counts : List (Str × Nat)) :
    ((findingsFromCounts counts).map Finding.class).Pairwise fun c d => Text.leStr c d = true := by
  rw [classes_findingsFromCounts]
  exact List.pairwise_map.mpr (ascending_sortMembers counts)

theorem mem_findingsFromCounts {counts : List (Str × Nat)} {f : Finding} :
    f ∈ findingsFromCounts counts ↔ (f.class, f.count) ∈ counts := by
  obtain ⟨c, n⟩ := f
  simp [findingsFromCounts, mem_sortMembers]

theorem tallied_applyRules (rules : List CompiledRule) (text : Str) :
    Tallied (applyRules rules text).2 := by
  rw [applyRules_eq_foldl]
  suffices hall : ∀ acc : Str × List (Str × Nat), Tallied acc.2 → Tallied (rules.foldl runRule acc).2
    from hall (text, []) tallied_nil
  induction rules with
  | nil => exact fun acc h => h
  | cons rule rules ih =>
    intro acc h
    apply ih
    show Tallied (if (applyRule acc.1 rule).2 > 0 then _ else _)
    split
    · rename_i hn
      exact h.addCount _ hn
    · exact h

theorem redactBytes_findings (r : Redactor) (s : Str) :
    ∃ counts, Tallied counts ∧ (r.redactBytes s).2 = findingsFromCounts counts := by
  unfold Redactor.redactBytes
  split
  · exact ⟨[], tallied_nil, rfl⟩
  · exact ⟨_, tallied_applyRules r.rules s, rfl⟩

theorem findingCount_of_not_mem {findings : List Finding} {c : Str}
    (h : c ∉ findings.map Finding.class) : findingCount findings c = 0 := by
  have hnone : findings.find? (fun f => f.class = c) = none := by
    apply List.find?_eq_none.mpr
    intro f hf he
    exact h (List.mem_map.mpr ⟨f, hf, by simpa using he⟩)
  simp [findingCount, hnone]

/-- Adding findings of distinct classes adds, for each class, its count. -/
theorem total_tally (c : Str) {findings : List Finding} (h : (findings.map Finding.class).Nodup)
    (counts : List (Str × Nat)) :
    total c (tally counts findings) = total c counts + findingCount findings c := by
  induction findings generalizing counts with
  | nil => simp [tally, findingCount]
  | cons f findings ih =>
    obtain ⟨hf, hrest⟩ := List.nodup_cons.mp h
    have hstep : tally counts (f :: findings) = tally (addCount f.class f.count counts) findings := rfl
    rw [hstep, ih hrest, total_addCount]
    by_cases hc : c = f.class
    · have hzero := findingCount_of_not_mem (hc ▸ hf)
      simp [findingCount, hc] at hzero ⊢
      omega
    · have hne : ¬ f.class = c := fun he => hc he.symm
      simp [findingCount, hc, hne]

theorem tallied_tally {findings : List Finding} (h : ∀ f ∈ findings, 0 < f.count)
    {counts : List (Str × Nat)} (hc : Tallied counts) : Tallied (tally counts findings) := by
  induction findings generalizing counts with
  | nil => exact hc
  | cons f findings ih =>
    obtain ⟨hf, hrest⟩ := List.forall_mem_cons.mp h
    exact ih hrest (hc.addCount f.class hf)

/-- What the strings of a value give for a class. -/
def leafCount (r : Redactor) (c : Str) (strings : List Str) : Nat :=
  (strings.map fun s => findingCount (r.redactBytes s).2 c).sum

theorem leafCount_append (r : Redactor) (c : Str) (ss ts : List Str) :
    leafCount r c (ss ++ ts) = leafCount r c ss + leafCount r c ts := by
  simp [leafCount]

/-- Adding the findings of one string. -/
theorem tally_redactBytes (r : Redactor) (s : Str) {counts : List (Str × Nat)}
    (h : Tallied counts) : Tallied (tally counts (r.redactBytes s).2) ∧
      ∀ c, total c (tally counts (r.redactBytes s).2) = total c counts + leafCount r c [s] := by
  obtain ⟨own, hown, hfind⟩ := redactBytes_findings r s
  have hpos : ∀ f ∈ (r.redactBytes s).2, 0 < f.count := by
    intro f hf
    rw [hfind] at hf
    exact hown.positive _ (mem_findingsFromCounts.mp hf)
  have hnodup : ((r.redactBytes s).2.map Finding.class).Nodup := by
    rw [hfind]
    exact nodup_findingsFromCounts hown
  refine ⟨tallied_tally hpos h, ?_⟩
  intro c
  rw [total_tally c hnodup]
  simp [leafCount]

mutual
/-- `redactValue` on a value with the counts before and after it. The members of an object
are visited in any order, and the copy lists them in that order. -/
inductive Visits (r : Redactor) : Json → List (Str × Nat) → Json → List (Str × Nat) → Prop where
  | str (s : Str) (counts : List (Str × Nat)) :
    Visits r (.str s) counts (.str (r.redactBytes s).1) (tally counts (r.redactBytes s).2)
  | obj {ms visited out : List (Str × Json)} {counts counts' : List (Str × Nat)}
    (order : visited.Perm ms) (h : VisitsMembers r visited counts out counts') :
    Visits r (.obj ms) counts (.obj out) counts'
  | arr {xs ys : List Json} {counts counts' : List (Str × Nat)}
    (h : VisitsItems r xs counts ys counts') : Visits r (.arr xs) counts (.arr ys) counts'
  | null (counts : List (Str × Nat)) : Visits r .null counts .null counts
  | bool (b : Bool) (counts : List (Str × Nat)) : Visits r (.bool b) counts (.bool b) counts
  | num (n : NumLit) (counts : List (Str × Nat)) : Visits r (.num n) counts (.num n) counts
inductive VisitsItems (r : Redactor) :
    List Json → List (Str × Nat) → List Json → List (Str × Nat) → Prop where
  | nil (counts : List (Str × Nat)) : VisitsItems r [] counts [] counts
  | cons {x y : Json} {xs ys : List Json} {counts mid counts' : List (Str × Nat)}
    (head : Visits r x counts y mid) (rest : VisitsItems r xs mid ys counts') :
    VisitsItems r (x :: xs) counts (y :: ys) counts'
inductive VisitsMembers (r : Redactor) :
    List (Str × Json) → List (Str × Nat) → List (Str × Json) → List (Str × Nat) → Prop where
  | nil (counts : List (Str × Nat)) : VisitsMembers r [] counts [] counts
  | cons {k : Str} {x y : Json} {ms ns : List (Str × Json)} {counts mid counts' : List (Str × Nat)}
    (head : Visits r x counts y mid) (rest : VisitsMembers r ms mid ns counts') :
    VisitsMembers r ((k, x) :: ms) counts ((k, y) :: ns) counts'
end

/-- What `RedactMap` may return. -/
def RedactsMap (r : Redactor) (m out : List (Str × Json)) (findings : List Finding) : Prop :=
  ∃ counts, Visits r (.obj m) [] (.obj out) counts ∧ findings = findingsFromCounts counts

mutual
/-- One order is that of the list of members. -/
theorem visits_redactValue (r : Redactor) (v : Json) (counts : List (Str × Nat)) :
    Visits r v counts (r.redactValue v counts).1 (r.redactValue v counts).2 := by
  match v with
  | .str s => exact .str s counts
  | .null => exact .null counts
  | .bool b => exact .bool b counts
  | .num n => exact .num n counts
  | .arr xs => exact .arr (visits_redactItems r xs counts)
  | .obj ms => exact .obj (List.Perm.refl ms) (visits_redactMembers r ms counts)
theorem visits_redactItems (r : Redactor) (xs : List Json) (counts : List (Str × Nat)) :
    VisitsItems r xs counts (r.redactItems xs counts).1 (r.redactItems xs counts).2 := by
  match xs with
  | [] => exact .nil counts
  | x :: xs => exact .cons (visits_redactValue r x counts) (visits_redactItems r xs _)
theorem visits_redactMembers (r : Redactor) (ms : List (Str × Json)) (counts : List (Str × Nat)) :
    VisitsMembers r ms counts (r.redactMembers ms counts).1 (r.redactMembers ms counts).2 := by
  match ms with
  | [] => exact .nil counts
  | (k, x) :: ms => exact .cons (visits_redactValue r x counts) (visits_redactMembers r ms _)
end

theorem redactsMap_redactMap (r : Redactor) (m : List (Str × Json)) :
    RedactsMap r m (r.redactMap m).1 (r.redactMap m).2 :=
  ⟨_, visits_redactValue r (.obj m) [], rfl⟩

/-- The counts afterwards: what was there and what the strings gave. -/
def Adds (r : Redactor) (strings : List Str) (counts counts' : List (Str × Nat)) : Prop :=
  Tallied counts → Tallied counts' ∧
    ∀ c, total c counts' = total c counts + leafCount r c strings

theorem Adds.nil (r : Redactor) (counts : List (Str × Nat)) : Adds r [] counts counts :=
  fun h => ⟨h, fun c => by simp [leafCount]⟩

theorem Adds.append {r : Redactor} {ss ts : List Str} {counts mid counts' : List (Str × Nat)}
    (h : Adds r ss counts mid) (h' : Adds r ts mid counts') : Adds r (ss ++ ts) counts counts' := by
  intro hc
  obtain ⟨hmid, htot⟩ := h hc
  obtain ⟨hend, htot'⟩ := h' hmid
  refine ⟨hend, ?_⟩
  intro c
  rw [htot' c, htot c, leafCount_append]
  omega

theorem leafCount_perm (r : Redactor) (c : Str) {ms ns : List (Str × Json)} (h : ms.Perm ns) :
    leafCount r c (Json.stringsMembers ms) = leafCount r c (Json.stringsMembers ns) := by
  rw [Json.stringsMembers_eq, Json.stringsMembers_eq]
  exact ((h.flatMap_right _).map _).sum_eq

mutual
theorem Visits.adds {r : Redactor} {v w : Json} {counts counts' : List (Str × Nat)}
    (h : Visits r v counts w counts') : Adds r v.strings counts counts' := by
  match h with
  | .str s counts => exact fun hc => tally_redactBytes r s hc
  | .null counts | .bool _ counts | .num _ counts => exact Adds.nil r counts
  | .arr h => exact h.adds
  | .obj order h =>
    intro hc
    obtain ⟨hend, htot⟩ := h.adds hc
    refine ⟨hend, ?_⟩
    intro c
    rw [htot c, leafCount_perm r c order]
    rfl
theorem VisitsItems.adds {r : Redactor} {xs ys : List Json} {counts counts' : List (Str × Nat)}
    (h : VisitsItems r xs counts ys counts') : Adds r (Json.stringsItems xs) counts counts' := by
  match h with
  | .nil counts => exact Adds.nil r counts
  | .cons head rest => exact head.adds.append rest.adds
theorem VisitsMembers.adds {r : Redactor} {ms ns : List (Str × Json)}
    {counts counts' : List (Str × Nat)} (h : VisitsMembers r ms counts ns counts') :
    Adds r (Json.stringsMembers ms) counts counts' := by
  match h with
  | .nil counts => exact Adds.nil r counts
  | .cons head rest => exact head.adds.append rest.adds
end

theorem sameMembers_iff {ms ns : List (Str × Json)} :
    Json.SameMembers ms ns ↔ ∀ m ∈ ms, ∃ y, lookup m.1 ns = some y ∧ m.2.Same y := by
  induction ms with
  | nil => simp [Json.SameMembers]
  | cons m ms ih => simp [Json.SameMembers, ih]

/-- A member and the copy of it. -/
def Copies (r : Redactor) (n m : Str × Json) : Prop :=
  n.1 = m.1 ∧ n.2.Same (m.2.mapStrings fun s => (r.redactBytes s).1)

theorem names_of_copies {r : Redactor} {visited out : List (Str × Json)}
    (h : List.Forall₂ (Copies r) out visited) : out.map Prod.fst = visited.map Prod.fst := by
  induction h with
  | nil => rfl
  | cons hc _ ih => rw [List.map_cons, List.map_cons, hc.1, ih]

/-- The copies of the members of an object, in any order, make up the copied object. -/
theorem same_of_copies {r : Redactor} {ms visited out : List (Str × Json)}
    (hkeys : (ms.map Prod.fst).Nodup) (order : visited.Perm ms)
    (h : List.Forall₂ (Copies r) out visited) :
    (Json.obj out).Same ((Json.obj ms).mapStrings fun s => (r.redactBytes s).1) := by
  have hnames := names_of_copies h
  refine ⟨sameMembers_iff.mpr ?_, ?_⟩
  · intro n hn
    obtain ⟨i, hi, rfl⟩ := List.getElem_of_mem hn
    have hi' : i < visited.length := h.length_eq ▸ hi
    obtain ⟨hname, hsame⟩ := (List.forall₂_iff_get.mp h).2 i hi hi'
    have hmem : visited.get ⟨i, hi'⟩ ∈ ms := order.mem_iff.mp (List.get_mem _ _)
    refine ⟨_, ?_, hsame⟩
    rw [Json.mapStringsMembers_eq,
      lookup_map (fun v => Json.mapStrings (fun s => (r.redactBytes s).1) v)]
    apply Option.map_eq_some_iff.mpr
    refine ⟨_, (lookup_eq_some_iff hkeys).mpr ?_, rfl⟩
    have hname' : out[i].1 = (visited.get ⟨i, hi'⟩).1 := hname
    rw [hname']
    exact hmem
  · intro n hn
    have hn' : n.1 ∈ ms.map Prod.fst := by
      rw [← Json.fst_mapStringsMembers]
      exact List.mem_map.mpr ⟨n, hn, rfl⟩
    rw [hnames]
    exact ((order.map Prod.fst).mem_iff).mpr hn'

mutual
theorem Visits.copies {r : Redactor} {v w : Json} {counts counts' : List (Str × Nat)}
    (h : Visits r v counts w counts') (hv : v.Distinct) :
    w.Same (v.mapStrings fun s => (r.redactBytes s).1) := by
  match h with
  | .str s counts => rfl
  | .null counts => trivial
  | .bool _ counts | .num _ counts => rfl
  | .arr h => exact h.copies hv
  | .obj order h =>
    have hvisited : Json.DistinctMembers _ :=
      Json.distinctMembers_iff.mpr fun m hm =>
        Json.distinctMembers_iff.mp hv.2 m (order.mem_iff.mp hm)
    exact same_of_copies hv.1 order (h.copies hvisited)
theorem VisitsItems.copies {r : Redactor} {xs ys : List Json} {counts counts' : List (Str × Nat)}
    (h : VisitsItems r xs counts ys counts') (hv : Json.DistinctItems xs) :
    Json.SameItems ys (Json.mapStringsItems (fun s => (r.redactBytes s).1) xs) := by
  match h with
  | .nil counts => trivial
  | .cons head rest => exact ⟨head.copies hv.1, rest.copies hv.2⟩
theorem VisitsMembers.copies {r : Redactor} {ms ns : List (Str × Json)}
    {counts counts' : List (Str × Nat)} (h : VisitsMembers r ms counts ns counts')
    (hv : Json.DistinctMembers ms) : List.Forall₂ (Copies r) ns ms := by
  match h with
  | .nil counts => exact .nil
  | .cons head rest => exact .cons ⟨rfl, head.copies hv.1⟩ (rest.copies hv.2)
end

section Visited

variable {r : Redactor} {m out : List (Str × Json)} {findings : List Finding}

theorem RedactsMap.copies (h : RedactsMap r m out findings) (hm : (Json.obj m).Distinct) :
    (Json.obj out).Same ((Json.obj m).mapStrings fun s => (r.redactBytes s).1) := by
  obtain ⟨_, hvisit, _⟩ := h
  exact Visits.copies hvisit hm

theorem RedactsMap.counted (h : RedactsMap r m out findings) :
    ∃ counts, Tallied counts ∧ findings = findingsFromCounts counts ∧
      ∀ c, total c counts = leafCount r c (Json.obj m).strings := by
  obtain ⟨counts, hvisit, rfl⟩ := h
  obtain ⟨htallied, htotal⟩ := hvisit.adds tallied_nil
  refine ⟨counts, htallied, rfl, fun c => ?_⟩
  rw [htotal c]
  exact Nat.zero_add _

/-- Each class is there once, in the order of the names, with the sum of its counts. -/
theorem RedactsMap.sums (h : RedactsMap r m out findings) :
    (findings.map Finding.class).Nodup ∧
      (findings.map Finding.class).Pairwise (fun c d => Text.leStr c d = true) ∧
      ∀ c n, ⟨c, n⟩ ∈ findings ↔ 0 < n ∧ leafCount r c (Json.obj m).strings = n := by
  obtain ⟨counts, htallied, rfl, hleaf⟩ := h.counted
  refine ⟨nodup_findingsFromCounts htallied, ordered_findingsFromCounts counts, fun c n => ?_⟩
  rw [mem_findingsFromCounts, htallied.total_eq_iff, hleaf c]

/-- Where the strings give the same sums the findings are the same. -/
theorem RedactsMap.findings_eq {r' : Redactor} {m' out' : List (Str × Json)} {findings' : List Finding}
    (h : RedactsMap r m out findings) (h' : RedactsMap r' m' out' findings')
    (hsums : ∀ c, leafCount r c (Json.obj m).strings = leafCount r' c (Json.obj m').strings) :
    findings = findings' := by
  obtain ⟨counts, htallied, rfl, hleaf⟩ := h.counted
  obtain ⟨counts', htallied', rfl, hleaf'⟩ := h'.counted
  refine (findingsFromCounts_eq_iff htallied htallied').mpr fun c => ?_
  rw [hleaf c, hleaf' c, hsums c]

end Visited

/-- What is returned when the members are visited in the order of the list. -/
theorem redactMap_copies (r : Redactor) (m : List (Str × Json)) (hm : (Json.obj m).Distinct) :
    (Json.obj (r.redactMap m).1).Same ((Json.obj m).mapStrings fun s => (r.redactBytes s).1) ∧
      ((r.redactMap m).2.map Finding.class).Nodup ∧
      ((r.redactMap m).2.map Finding.class).Pairwise (fun c d => Text.leStr c d = true) ∧
      ∀ c n, ⟨c, n⟩ ∈ (r.redactMap m).2 ↔ 0 < n ∧ leafCount r c (Json.obj m).strings = n :=
  ⟨(redactsMap_redactMap r m).copies hm, (redactsMap_redactMap r m).sums⟩

/-- The redacted map is the map with every string redacted, and the findings give each
class the sum of its counts over the strings, in every order of visiting. -/
theorem redactMap_structure (r : Redactor) (m out : List (Str × Json)) (findings : List Finding)
    (hm : (Json.obj m).Distinct) (h : RedactsMap r m out findings) :
    (Json.obj out).Same ((Json.obj m).mapStrings fun s => (r.redactBytes s).1) ∧
      (findings.map Finding.class).Nodup ∧
      (findings.map Finding.class).Pairwise (fun c d => Text.leStr c d = true) ∧
      (∀ c n, ⟨c, n⟩ ∈ findings ↔ 0 < n ∧ leafCount r c (Json.obj m).strings = n) ∧
      findings = (r.redactMap m).2 ∧
      (r.enabled = false → (Json.obj out).Same (.obj m) ∧ findings = []) := by
  obtain ⟨hnodup, hordered, hmem⟩ := h.sums
  refine ⟨h.copies hm, hnodup, hordered, hmem, h.findings_eq (redactsMap_redactMap r m) fun _ => rfl, ?_⟩
  intro hoff
  have hself : ∀ s, r.redactBytes s = (s, []) := by
    intro s
    simp [Redactor.redactBytes, hoff]
  refine ⟨?_, ?_⟩
  · have hcopy := h.copies hm
    rwa [Json.mapStrings_self fun s => congrArg Prod.fst (hself s)] at hcopy
  · have hnone : ∀ c, leafCount r c (Json.obj m).strings = 0 := by
      intro c
      apply List.sum_eq_zero
      intro n hn
      obtain ⟨s, _, rfl⟩ := List.mem_map.mp hn
      rw [hself s]
      rfl
    refine List.eq_nil_iff_forall_not_mem.mpr fun f hf => ?_
    obtain ⟨hpos, hcount⟩ := (hmem f.class f.count).mp hf
    rw [hnone f.class] at hcount
    omega

def twoMembers : List (Str × Json) :=
  [("to".toList, .arr [.str "bob@example.com".toList, .num ⟨"3".toList, by decide⟩]),
    ("from".toList, .obj [("email".toList, .str "al@example.com".toList)])]

/-- The second member is visited first. -/
theorem redactMap_structure_reversed :
    ⟨"email".toList, 2⟩ ∈ ((new true []).redactMap twoMembers).2 ∧
      ∃ out findings, RedactsMap (new true []) twoMembers out findings ∧
        out.map Prod.fst = ["from".toList, "to".toList] ∧
        findings = ((new true []).redactMap twoMembers).2 := by
  have hvisit : RedactsMap (new true []) twoMembers _ _ :=
    ⟨_, .obj (List.reverse_perm twoMembers) (visits_redactMembers (new true []) twoMembers.reverse []),
      rfl⟩
  have hdistinct : (Json.obj twoMembers).Distinct := by
    refine ⟨by decide, ?_⟩
    simp [twoMembers, Json.DistinctMembers, Json.Distinct, Json.DistinctItems]
  refine ⟨by decide +kernel, _, _, hvisit, by decide +kernel, ?_⟩
  exact (redactMap_structure (new true []) twoMembers _ _ hdistinct hvisit).2.2.2.2.1

end Janus.Redaction
