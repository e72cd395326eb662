import Mathlib.Data.List.Basic
import Mathlib.Tactic.Common

/-!
# Records with named fields

A record is read and written field by field, and an edit writes some of its fields from
texts. An edit is seen in the fields that it names and in no others (`get_edit`).
-/

namespace Janus

set_option autoImplicit false

universe u v w t

structure Fields (R : Type u) (F : Type v) (T : Type t) where
  Value : F → Type w
  get : (k : F) → R → Value k
  set : (k : F) → Value k → R → R
  read : (k : F) → T → Value k
  visited : List F
  get_set : ∀ k v r, get k (set k v r) = v
  get_set_of_ne : ∀ {j k}, j ≠ k → ∀ v r, get j (set k v r) = get j r
  visited_nodup : visited.Nodup
  mem_visited : ∀ k, k ∈ visited

namespace Fields

variable {R : Type u} {F : Type v} {T : Type t} (fs : Fields.{u, v, w, t} R F T)

/-- One field of an edit. -/
def put (texts : F → Option T) (r : R) (k : F) : R :=
  match texts k with
  | none => r
  | some s => fs.set k (fs.read k s) r

/-- Writes the fields that have a text, in the order in which they are visited. -/
def edit (texts : F → Option T) (r : R) : R := fs.visited.foldl (fs.put texts) r

theorem get_put_of_ne (texts : F → Option T) (r : R) {j k : F} (h : j ≠ k) :
    fs.get j (fs.put texts r k) = fs.get j r := by
  unfold put
  cases texts k with
  | none => rfl
  | some s => exact fs.get_set_of_ne h _ r

theorem get_foldl_of_notMem (texts : F → Option T) {ks : List F} {j : F} (h : j ∉ ks) (r : R) :
    fs.get j (ks.foldl (fs.put texts) r) = fs.get j r := by
  induction ks generalizing r with
  | nil => rfl
  | cons k ks ih =>
    rw [List.mem_cons, not_or] at h
    rw [List.foldl_cons, ih h.2, fs.get_put_of_ne texts r h.1]

/-- A field with a text is written once, and nothing else touches it. -/
theorem get_edit (texts : F → Option T) (r : R) (k : F) :
    fs.get k (fs.edit texts r) = ((texts k).map (fs.read k)).getD (fs.get k r) := by
  obtain ⟨before, after, hks⟩ := List.append_of_mem (fs.mem_visited k)
  have hnodup := fs.visited_nodup
  rw [hks, List.nodup_append, List.nodup_cons] at hnodup
  obtain ⟨_, ⟨hafter, _⟩, hbefore⟩ := hnodup
  have hk : k ∉ before := fun hmem => hbefore k hmem k List.mem_cons_self rfl
  rw [edit, hks, List.foldl_append, List.foldl_cons, fs.get_foldl_of_notMem texts hafter]
  unfold put
  cases texts k with
  | none => exact fs.get_foldl_of_notMem texts hk r
  | some s => exact fs.get_set k _ _

theorem get_edit_of_none {texts : F → Option T} {k : F} (h : texts k = none) (r : R) :
    fs.get k (fs.edit texts r) = fs.get k r := by
  rw [fs.get_edit, h]
  rfl

theorem get_edit_of_some {texts : F → Option T} {k : F} {s : T} (h : texts k = some s) (r : R) :
    fs.get k (fs.edit texts r) = fs.read k s := by
  rw [fs.get_edit, h]
  rfl

end Fields
end Janus
