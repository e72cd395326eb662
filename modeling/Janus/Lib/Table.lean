import Mathlib.Data.List.Nodup
import Mathlib.Tactic.Common

/-!
# Tables with a primary key and one unique column

A table is a list of rows in which no primary key and no value of the unique
column occurs twice. `upsert` is `INSERT ... ON CONFLICT (key) DO UPDATE`: it
replaces the row of the same key in place or appends a new one, and it is refused
when another row already holds the value of the unique column.
-/

namespace Janus

set_option autoImplicit false

universe u v w

structure Table (α : Type u) {κ : Type v} {υ : Type w} (key : α → κ) (uniq : α → υ) where
  rows : List α
  key_nodup : (rows.map key).Nodup
  uniq_nodup : (rows.map uniq).Nodup

namespace Table

variable {α : Type u} {κ : Type v} {υ : Type w} {key : α → κ} {uniq : α → υ}

@[ext] theorem ext {t t' : Table α key uniq} (h : t.rows = t'.rows) : t = t' := by
  cases t; cases t'; cases h; rfl

instance [DecidableEq α] : DecidableEq (Table α key uniq) := fun t t' =>
  decidable_of_iff (t.rows = t'.rows) ⟨ext, congrArg rows⟩

instance : Membership α (Table α key uniq) := ⟨fun t r => r ∈ t.rows⟩

theorem mem_def {t : Table α key uniq} {r : α} : r ∈ t ↔ r ∈ t.rows := Iff.rfl

def empty : Table α key uniq := ⟨[], .nil, .nil⟩

theorem eq_of_key_eq {t : Table α key uniq} {r r' : α} (hr : r ∈ t) (hr' : r' ∈ t)
    (h : key r = key r') : r = r' :=
  List.inj_on_of_nodup_map t.key_nodup hr hr' h

theorem eq_of_uniq_eq {t : Table α key uniq} {r r' : α} (hr : r ∈ t) (hr' : r' ∈ t)
    (h : uniq r = uniq r') : r = r' :=
  List.inj_on_of_nodup_map t.uniq_nodup hr hr' h

section Find
variable [DecidableEq κ]

def find (t : Table α key uniq) (k : κ) : Option α := t.rows.find? fun r => key r = k

theorem find_eq_some {t : Table α key uniq} {k : κ} {r : α} :
    t.find k = some r ↔ r ∈ t ∧ key r = k := by
  constructor
  · intro h
    exact ⟨List.mem_of_find?_eq_some h, by simpa using List.find?_some h⟩
  · rintro ⟨hr, rfl⟩
    cases hf : t.find (key r) with
    | none => simpa using List.find?_eq_none.mp hf r hr
    | some r' =>
      have hr' : r' ∈ t := List.mem_of_find?_eq_some hf
      have hk : key r' = key r := by simpa using List.find?_some hf
      rw [eq_of_key_eq hr' hr hk]

theorem find_eq_none {t : Table α key uniq} {k : κ} : t.find k = none ↔ ∀ r ∈ t, key r ≠ k := by
  simp [find, List.find?_eq_none, mem_def]

/-- The row list after an insert-or-update, uniqueness not yet checked. -/
def put (key : α → κ) (row : α) : List α → List α
  | [] => [row]
  | r :: rs => if key r = key row then row :: rs else r :: put key row rs

theorem mem_of_mem_put {row r : α} {rs : List α} (h : r ∈ put key row rs) : r = row ∨ r ∈ rs := by
  induction rs with
  | nil => exact Or.inl (by simpa [put] using h)
  | cons a rs ih =>
    simp only [put] at h
    split at h
    · rcases List.mem_cons.mp h with h | h
      · exact Or.inl h
      · exact Or.inr (List.mem_cons_of_mem a h)
    · rcases List.mem_cons.mp h with rfl | h
      · exact Or.inr List.mem_cons_self
      · exact (ih h).imp_right (List.mem_cons_of_mem a)

theorem mem_put {row r : α} {rs : List α} (hn : (rs.map key).Nodup) :
    r ∈ put key row rs ↔ r = row ∨ (r ∈ rs ∧ key r ≠ key row) := by
  induction rs with
  | nil => simp [put]
  | cons a rs ih =>
    obtain ⟨ha, hn⟩ := List.nodup_cons.mp hn
    by_cases hk : key a = key row
    · have hother : r ∈ rs → key r ≠ key row := fun hr he =>
        ha (List.mem_map.mpr ⟨r, hr, he.trans hk.symm⟩)
      simp only [put, if_pos hk, List.mem_cons]
      constructor
      · rintro (h | h)
        · exact Or.inl h
        · exact Or.inr ⟨Or.inr h, hother h⟩
      · rintro (h | ⟨rfl | h, hne⟩)
        · exact Or.inl h
        · exact absurd hk hne
        · exact Or.inr h
    · simp only [put, if_neg hk, List.mem_cons, ih hn]
      constructor
      · rintro (rfl | h | ⟨h, hne⟩)
        · exact Or.inr ⟨Or.inl rfl, hk⟩
        · exact Or.inl h
        · exact Or.inr ⟨Or.inr h, hne⟩
      · rintro (h | ⟨rfl | h, hne⟩)
        · exact Or.inr (Or.inl h)
        · exact Or.inl rfl
        · exact Or.inr (Or.inr ⟨h, hne⟩)

theorem put_of_fresh {row : α} {rs : List α} (h : ∀ r ∈ rs, key r ≠ key row) :
    put key row rs = rs ++ [row] := by
  induction rs with
  | nil => rfl
  | cons a rs ih =>
    have ht := ih fun r hr => h r (List.mem_cons_of_mem a hr)
    simp [put, h a List.mem_cons_self, ht]

/-- A column stays without duplicates when no row of another key holds the new value. -/
theorem nodup_map_put {ι : Type w} (f : α → ι) {row : α} {rs : List α}
    (hkey : (rs.map key).Nodup) (hn : (rs.map f).Nodup)
    (hf : ∀ r ∈ rs, key r ≠ key row → f r ≠ f row) : ((put key row rs).map f).Nodup := by
  induction rs with
  | nil => simp [put]
  | cons a rs ih =>
    obtain ⟨hka, hkey⟩ := List.nodup_cons.mp hkey
    obtain ⟨ha, hn⟩ := List.nodup_cons.mp hn
    have ht := ih hkey hn fun r hr => hf r (List.mem_cons_of_mem a hr)
    simp only [put]
    split
    · rename_i hk
      refine List.nodup_cons.mpr ⟨?_, hn⟩
      intro hm
      obtain ⟨r, hr, hfr⟩ := List.mem_map.mp hm
      have hne : key r ≠ key row := fun he => hka (List.mem_map.mpr ⟨r, hr, he.trans hk.symm⟩)
      exact hf r (List.mem_cons_of_mem a hr) hne hfr
    · rename_i hk
      refine List.nodup_cons.mpr ⟨?_, ht⟩
      intro hm
      obtain ⟨r, hr, hfr⟩ := List.mem_map.mp hm
      rcases mem_of_mem_put hr with rfl | hr
      · exact hf a List.mem_cons_self hk hfr.symm
      · exact ha (List.mem_map.mpr ⟨r, hr, hfr⟩)

/-- The rows of the given key removed. -/
def delete (t : Table α key uniq) (k : κ) : Table α key uniq where
  rows := t.rows.filter fun r => key r ≠ k
  key_nodup := (List.filter_sublist.map key).nodup t.key_nodup
  uniq_nodup := (List.filter_sublist.map uniq).nodup t.uniq_nodup

/-- The rows kept by a test. -/
def keep (t : Table α key uniq) (p : α → Bool) : Table α key uniq where
  rows := t.rows.filter p
  key_nodup := (List.filter_sublist.map key).nodup t.key_nodup
  uniq_nodup := (List.filter_sublist.map uniq).nodup t.uniq_nodup

theorem mem_delete {t : Table α key uniq} {k : κ} {r : α} :
    r ∈ t.delete k ↔ r ∈ t ∧ key r ≠ k := by
  simp [delete, mem_def]

theorem find_delete_of_ne {t : Table α key uniq} {k k' : κ} (h : k ≠ k') :
    (t.delete k).find k' = t.find k' := by
  ext r
  rw [find_eq_some, find_eq_some, mem_delete]
  constructor
  · rintro ⟨⟨hmem, _⟩, hr⟩
    exact ⟨hmem, hr⟩
  · rintro ⟨hmem, hr⟩
    exact ⟨⟨hmem, fun he => h (he.symm.trans hr)⟩, hr⟩

omit [DecidableEq κ] in
theorem mem_keep {t : Table α key uniq} {p : α → Bool} {r : α} :
    r ∈ t.keep p ↔ r ∈ t ∧ p r = true := by
  simp [keep, mem_def]

theorem find_keep (t : Table α key uniq) (p : α → Bool) (k : κ) :
    (t.keep p).find k = (t.find k).filter p := by
  ext r
  rw [find_eq_some, mem_keep, Option.filter_eq_some_iff, find_eq_some, and_right_comm]

theorem find_delete_self (t : Table α key uniq) (k : κ) : (t.delete k).find k = none :=
  find_eq_none.mpr fun _ hr => (mem_delete.mp hr).2

end Find

section Upsert
variable [DecidableEq κ] [DecidableEq υ]

/-- Another row already holds the value of the unique column. -/
def Clash (t : Table α key uniq) (row : α) : Prop :=
  ∃ r ∈ t.rows, key r ≠ key row ∧ uniq r = uniq row

instance (t : Table α key uniq) (row : α) : Decidable (t.Clash row) :=
  inferInstanceAs (Decidable (∃ r ∈ t.rows, _))

def upsert (t : Table α key uniq) (row : α) : Option (Table α key uniq) :=
  if h : t.Clash row then none
  else some {
    rows := put key row t.rows
    key_nodup := nodup_map_put key t.key_nodup t.key_nodup fun _ _ hne => hne
    uniq_nodup := nodup_map_put uniq t.key_nodup t.uniq_nodup
      fun r hr hne he => h ⟨r, hr, hne, he⟩ }

theorem upsert_eq_none {t : Table α key uniq} {row : α} : t.upsert row = none ↔ t.Clash row := by
  unfold upsert
  split <;> simp [*]

theorem upsert_eq_some {t t' : Table α key uniq} {row : α} :
    t.upsert row = some t' ↔ ¬ t.Clash row ∧ t'.rows = put key row t.rows := by
  unfold upsert
  split
  · simp [*]
  · rename_i h
    simp only [Option.some.injEq, h, not_false_eq_true, true_and]
    exact ⟨fun he => he ▸ rfl, fun he => ext he.symm⟩

theorem mem_upsert {t t' : Table α key uniq} {row r : α} (h : t.upsert row = some t') :
    r ∈ t' ↔ r = row ∨ (r ∈ t ∧ key r ≠ key row) := by
  obtain ⟨_, hrows⟩ := upsert_eq_some.mp h
  rw [mem_def, hrows, mem_put t.key_nodup]
  rfl

theorem find_upsert {t t' : Table α key uniq} {row : α} (h : t.upsert row = some t') (k : κ) :
    t'.find k = if key row = k then some row else t.find k := by
  ext r
  rw [find_eq_some, mem_upsert h]
  by_cases hk : key row = k
  · rw [if_pos hk, Option.some.injEq]
    constructor
    · rintro ⟨rfl | ⟨_, hne⟩, hr⟩
      · rfl
      · exact absurd (hr.trans hk.symm) hne
    · rintro rfl
      exact ⟨Or.inl rfl, hk⟩
  · rw [if_neg hk, find_eq_some]
    constructor
    · rintro ⟨rfl | ⟨hmem, _⟩, hr⟩
      · exact absurd hr hk
      · exact ⟨hmem, hr⟩
    · rintro ⟨hmem, hr⟩
      exact ⟨Or.inr ⟨hmem, fun he => hk (he.symm.trans hr)⟩, hr⟩

end Upsert
end Table
end Janus
