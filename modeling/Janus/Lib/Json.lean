import Janus.Lib.Number
import Janus.Lib.Text

/-!
# JSON values

Objects keep their members as a list, in the order of the text or of one
iteration over a map. Strings are escaped as the HTML-safe encoder does, and
object members are written in the order of their names.
-/

namespace Janus

set_option autoImplicit false

inductive Json where
  | null
  | bool (b : Bool)
  | num (n : NumLit)
  | str (s : Str)
  | arr (items : List Json)
  | obj (members : List (Str × Json))
  deriving Repr

namespace Json

mutual
def decEq : (a b : Json) → Decidable (a = b)
  | .null, .null => .isTrue rfl
  | .bool a, .bool b => decidable_of_iff (a = b) (by simp)
  | .num a, .num b => decidable_of_iff (a = b) (by simp)
  | .str a, .str b => decidable_of_iff (a = b) (by simp)
  | .arr a, .arr b =>
    have := decEqItems a b
    decidable_of_iff (a = b) (by simp)
  | .obj a, .obj b =>
    have := decEqMembers a b
    decidable_of_iff (a = b) (by simp)
  | .null, .bool _ | .null, .num _ | .null, .str _ | .null, .arr _ | .null, .obj _
  | .bool _, .null | .bool _, .num _ | .bool _, .str _ | .bool _, .arr _ | .bool _, .obj _
  | .num _, .null | .num _, .bool _ | .num _, .str _ | .num _, .arr _ | .num _, .obj _
  | .str _, .null | .str _, .bool _ | .str _, .num _ | .str _, .arr _ | .str _, .obj _
  | .arr _, .null | .arr _, .bool _ | .arr _, .num _ | .arr _, .str _ | .arr _, .obj _
  | .obj _, .null | .obj _, .bool _ | .obj _, .num _ | .obj _, .str _ | .obj _, .arr _ =>
    .isFalse (by simp)
def decEqItems : (a b : List Json) → Decidable (a = b)
  | [], [] => .isTrue rfl
  | [], _ :: _ | _ :: _, [] => .isFalse (by simp)
  | a :: as, b :: bs =>
    have := decEq a b
    have := decEqItems as bs
    decidable_of_iff (a = b ∧ as = bs) (by simp)
def decEqMembers : (a b : List (Str × Json)) → Decidable (a = b)
  | [], [] => .isTrue rfl
  | [], _ :: _ | _ :: _, [] => .isFalse (by simp)
  | (k, a) :: as, (l, b) :: bs =>
    have := decEq a b
    have := decEqMembers as bs
    decidable_of_iff (k = l ∧ a = b ∧ as = bs) (by simp [and_assoc])
end

instance : DecidableEq Json := decEq

end Json

/-- The entry of a map kept as a list of entries: the last one of the name. -/
def lookup {α : Type} (k : Str) : List (Str × α) → Option α
  | [] => none
  | (k', v) :: ms => (lookup k ms).or (if k' = k then some v else none)

/-- A map entry added or replaced. -/
def setMember {α : Type} (k : Str) (v : α) : List (Str × α) → List (Str × α)
  | [] => [(k, v)]
  | (k', v') :: ms =>
    if k' = k then (k, v) :: ms.filter (fun m => m.1 ≠ k) else (k', v') :: setMember k v ms

theorem lookup_eq_none_of_forall {α : Type} {k : Str} {ms : List (Str × α)}
    (h : ∀ m ∈ ms, m.1 ≠ k) : lookup k ms = none := by
  induction ms with
  | nil => rfl
  | cons m ms ih =>
    have hm := h m List.mem_cons_self
    simp [lookup, ih fun x hx => h x (List.mem_cons_of_mem m hx), hm]

theorem mem_of_lookup {α : Type} {k : Str} {v : α} {ms : List (Str × α)}
    (h : lookup k ms = some v) : (k, v) ∈ ms := by
  induction ms with
  | nil => cases h
  | cons m ms ih =>
    rcases Option.or_eq_some_iff.mp h with hrest | ⟨_, hm⟩
    · exact List.mem_cons_of_mem m (ih hrest)
    · split at hm
      · rename_i hk
        cases hm
        exact hk ▸ List.mem_cons_self
      · cases hm

/-- With one entry for each name, an entry is the one that is looked up. -/
theorem lookup_eq_some_iff {α : Type} {k : Str} {v : α} {ms : List (Str × α)}
    (h : (ms.map Prod.fst).Nodup) : lookup k ms = some v ↔ (k, v) ∈ ms := by
  refine ⟨mem_of_lookup, ?_⟩
  intro hmem
  induction ms with
  | nil => cases hmem
  | cons m ms ih =>
    obtain ⟨hm, hms⟩ := List.nodup_cons.mp h
    rcases List.mem_cons.mp hmem with rfl | hmem
    · have hnone : lookup k ms = none := by
        refine lookup_eq_none_of_forall ?_
        intro x hx he
        exact hm (List.mem_map.mpr ⟨x, hx, he⟩)
      simp [lookup, hnone]
    · simp [lookup, ih hms hmem]

/-- With one entry for each name the order of the entries does not matter. -/
theorem lookup_perm {α : Type} (k : Str) {ms ns : List (Str × α)} (h : (ms.map Prod.fst).Nodup)
    (hp : ms.Perm ns) : lookup k ns = lookup k ms := by
  ext v
  rw [lookup_eq_some_iff h, lookup_eq_some_iff ((hp.map Prod.fst).nodup_iff.mp h)]
  exact hp.mem_iff.symm

theorem mem_of_mem_setMember {α : Type} {k : Str} {v : α} {m : Str × α} {ms : List (Str × α)}
    (h : m ∈ setMember k v ms) : m = (k, v) ∨ m ∈ ms := by
  induction ms with
  | nil => exact Or.inl (List.mem_singleton.mp h)
  | cons m' ms ih =>
    simp only [setMember] at h
    split at h
    · rcases List.mem_cons.mp h with rfl | hf
      · exact Or.inl rfl
      · exact Or.inr (List.mem_cons_of_mem m' (List.mem_filter.mp hf).1)
    · rcases List.mem_cons.mp h with rfl | hrest
      · exact Or.inr List.mem_cons_self
      · exact (ih hrest).imp_right (List.mem_cons_of_mem m')

theorem nodup_setMember {α : Type} (k : Str) (v : α) {ms : List (Str × α)}
    (h : (ms.map Prod.fst).Nodup) : ((setMember k v ms).map Prod.fst).Nodup := by
  induction ms with
  | nil => simp [setMember]
  | cons m ms ih =>
    obtain ⟨hm, hms⟩ := List.nodup_cons.mp h
    simp only [setMember]
    split
    · apply List.nodup_cons.mpr
      refine ⟨?_, (List.filter_sublist.map Prod.fst).nodup hms⟩
      intro hk
      obtain ⟨x, hx, he⟩ := List.mem_map.mp hk
      exact absurd he (by simpa using (List.mem_filter.mp hx).2)
    · rename_i hne
      apply List.nodup_cons.mpr
      refine ⟨?_, ih hms⟩
      intro hk
      obtain ⟨x, hx, he⟩ := List.mem_map.mp hk
      rcases mem_of_mem_setMember hx with rfl | hx
      · exact hne he.symm
      · exact hm (List.mem_map.mpr ⟨x, hx, he⟩)

theorem length_setMember_le {α : Type} (k : Str) (v : α) (ms : List (Str × α)) :
    (setMember k v ms).length ≤ ms.length + 1 := by
  induction ms with
  | nil => simp [setMember]
  | cons m ms ih =>
    simp only [setMember]
    split
    · have hfilter := List.length_filter_le (fun m : Str × α => m.1 ≠ k) ms
      simp only [List.length_cons]
      omega
    · simp only [List.length_cons]
      omega

theorem lookup_map {α β : Type} (f : α → β) (k : Str) (ms : List (Str × α)) :
    lookup k (ms.map fun m => (m.1, f m.2)) = (lookup k ms).map f := by
  induction ms with
  | nil => rfl
  | cons m ms ih =>
    simp only [List.map_cons, lookup, ih]
    cases lookup k ms with
    | some v => rfl
    | none => by_cases hk : m.1 = k <;> simp [hk]

theorem setMember_map {α β : Type} (f : α → β) (k : Str) (v : α) (ms : List (Str × α)) :
    (setMember k v ms).map (fun m => (m.1, f m.2)) =
      setMember k (f v) (ms.map fun m => (m.1, f m.2)) := by
  induction ms with
  | nil => rfl
  | cons m ms ih =>
    simp only [setMember, List.map_cons]
    split
    · simp [List.filter_map, Function.comp_def]
    · rw [List.map_cons, ih]

theorem lookup_setMember_self {α : Type} (k : Str) (v : α) (ms : List (Str × α)) :
    lookup k (setMember k v ms) = some v := by
  induction ms with
  | nil => simp [setMember, lookup]
  | cons m ms ih =>
    by_cases hk : m.1 = k
    · have hnone : lookup k (ms.filter fun m => !decide (m.1 = k)) = none :=
        lookup_eq_none_of_forall fun x hx => by simpa using (List.mem_filter.mp hx).2
      simp [setMember, hk, lookup, hnone]
    · simp [setMember, hk, lookup, ih]

theorem lookup_filter_of_ne {α : Type} {k k' : Str} (h : k' ≠ k) (ms : List (Str × α)) :
    lookup k' (ms.filter fun m => !decide (m.1 = k)) = lookup k' ms := by
  induction ms with
  | nil => rfl
  | cons m ms ih =>
    by_cases hk : m.1 = k
    · have hm : ¬ k = k' := fun he => h he.symm
      simp [hk, lookup, ← ih, hm]
    · simp [hk, lookup, ← ih]

/-- With one entry for each name, an entry stays in a filtered map if it passes the test. -/
theorem lookup_filter {α : Type} {ms : List (Str × α)} (h : (ms.map Prod.fst).Nodup) (k : Str)
    (p : Str × α → Bool) : lookup k (ms.filter p) = (lookup k ms).filter fun v => p (k, v) := by
  have hf : ((ms.filter p).map Prod.fst).Nodup := (List.filter_sublist.map Prod.fst).nodup h
  ext v
  rw [lookup_eq_some_iff hf, List.mem_filter, Option.filter_eq_some_iff, lookup_eq_some_iff h]

theorem lookup_setMember_of_ne {α : Type} {k k' : Str} (h : k' ≠ k) (v : α)
    (ms : List (Str × α)) : lookup k' (setMember k v ms) = lookup k' ms := by
  have hne : ¬ k = k' := fun he => h he.symm
  induction ms with
  | nil => simp [setMember, lookup, hne]
  | cons m ms ih =>
    by_cases hk : m.1 = k
    · have hf := lookup_filter_of_ne h ms
      simp [setMember, hk, lookup, hf, hne]
    · simp [setMember, hk, lookup, ih]

def hexDigit (n : Nat) : Char := "0123456789abcdef".toList.getD n '0'

def hex4 (n : Nat) : List Char :=
  [hexDigit (n / 4096 % 16), hexDigit (n / 256 % 16), hexDigit (n / 16 % 16), hexDigit (n % 16)]

/-- One character of an encoded string. -/
def escapeChar (c : Char) : Str :=
  if c = '"' then ['\\', '"']
  else if c = '\\' then ['\\', '\\']
  else if c = '\n' then ['\\', 'n']
  else if c = '\r' then ['\\', 'r']
  else if c = '\t' then ['\\', 't']
  else if c.toNat = 8 then ['\\', 'b']
  else if c.toNat = 12 then ['\\', 'f']
  else if c.toNat < 32 || c = '<' || c = '>' || c = '&' || c.toNat = 0x2028 || c.toNat = 0x2029 then
    '\\' :: 'u' :: hex4 c.toNat
  else [c]

def escapeChars (cs : Str) : Str := cs.flatMap escapeChar

theorem hexDigit_ne_quote (n : Nat) : hexDigit (n % 16) ≠ '"' := by
  have h : ∀ k < 16, hexDigit k ≠ '"' := by decide
  exact h _ (Nat.mod_lt n (by decide))

theorem head_escapeChar (c : Char) : (escapeChar c).head? ≠ some '"' := by
  unfold escapeChar
  split_ifs <;> simp_all

theorem getLast_escapeChar {c : Char} (h : (escapeChar c).getLast? = some '"') : c = '"' := by
  unfold escapeChar at h
  split_ifs at h with h1 h2 h3 h4 h5 h6 h7 h8
  · exact h1
  · simp at h
  · simp at h
  · simp at h
  · simp at h
  · simp at h
  · simp at h
  · exact absurd (by simpa [hex4] using h) (hexDigit_ne_quote _)
  · simpa using h

theorem escapeChar_ne_nil (c : Char) : escapeChar c ≠ [] := by
  unfold escapeChar
  split_ifs <;> simp

theorem head_escapeChars (s : Str) : (escapeChars s).head? ≠ some '"' := by
  cases s with
  | nil => simp [escapeChars]
  | cons c cs =>
    obtain ⟨d, ds, hd⟩ := List.exists_cons_of_ne_nil (escapeChar_ne_nil c)
    have hc := head_escapeChar c
    rw [hd] at hc
    simpa [escapeChars, hd] using hc

theorem getLast_escapeChars {s : Str} (h : s.getLast? ≠ some '"') :
    (escapeChars s).getLast? ≠ some '"' := by
  intro hl
  rcases List.eq_nil_or_concat s with rfl | ⟨cs, c, rfl⟩
  · simp [escapeChars] at hl
  · have hc : (escapeChar c).getLast? = some '"' := by
      have he : escapeChars (cs ++ [c]) = escapeChars cs ++ escapeChar c := by simp [escapeChars]
      rw [List.concat_eq_append, he, List.getLast?_append_of_ne_nil _ (escapeChar_ne_nil c)] at hl
      exact hl
    apply h
    simp [getLast_escapeChar hc]

def quoteChars (cs : Str) : Str := '"' :: (escapeChars cs ++ ['"'])

/-- Insertion by member name; equal names keep their order. -/
def insertMember {α : Type} (m : Str × α) : List (Str × α) → List (Str × α)
  | [] => [m]
  | n :: ns => if Text.leStr m.1 n.1 then m :: n :: ns else n :: insertMember m ns

def sortMembers {α : Type} (ms : List (Str × α)) : List (Str × α) :=
  ms.foldr insertMember []

theorem perm_insertMember {α : Type} (m : Str × α) (ms : List (Str × α)) :
    (insertMember m ms).Perm (m :: ms) := by
  induction ms with
  | nil => exact List.Perm.refl _
  | cons n ms ih =>
    simp only [insertMember]
    split
    · exact List.Perm.refl _
    · exact (ih.cons n).trans (List.Perm.swap m n ms)

theorem perm_sortMembers {α : Type} (ms : List (Str × α)) : (sortMembers ms).Perm ms := by
  induction ms with
  | nil => exact List.Perm.refl _
  | cons m ms ih => exact (perm_insertMember m _).trans (ih.cons m)

theorem mem_insertMember {α : Type} {m x : Str × α} {ms : List (Str × α)} :
    x ∈ insertMember m ms ↔ x = m ∨ x ∈ ms := by
  rw [(perm_insertMember m ms).mem_iff, List.mem_cons]

theorem mem_sortMembers {α : Type} {x : Str × α} {ms : List (Str × α)} :
    x ∈ sortMembers ms ↔ x ∈ ms :=
  (perm_sortMembers ms).mem_iff

namespace Json

mutual
/-- The members of every object in the order of their names. -/
def sorted : Json → Json
  | .arr xs => .arr (sortedItems xs)
  | .obj ms => .obj (sortMembers (sortedMembers ms))
  | .null => .null
  | .bool b => .bool b
  | .num n => .num n
  | .str s => .str s
def sortedItems : List Json → List Json
  | [] => []
  | x :: xs => x.sorted :: sortedItems xs
def sortedMembers : List (Str × Json) → List (Str × Json)
  | [] => []
  | (k, x) :: ms => (k, x.sorted) :: sortedMembers ms
end

mutual
/-- The compact text of a value, members in the order given. -/
def compact : Json → Str
  | .null => "null".toList
  | .bool true => "true".toList
  | .bool false => "false".toList
  | .num n => n.text
  | .str s => quoteChars s
  | .arr xs => '[' :: (compactItems xs ++ [']'])
  | .obj ms => '{' :: (compactMembers ms ++ ['}'])
def compactItems : List Json → Str
  | [] => []
  | [x] => x.compact
  | x :: y :: xs => x.compact ++ ',' :: compactItems (y :: xs)
def compactMembers : List (Str × Json) → Str
  | [] => []
  | [(k, x)] => quoteChars k ++ ':' :: x.compact
  | (k, x) :: m :: ms => quoteChars k ++ ':' :: (x.compact ++ ',' :: compactMembers (m :: ms))
end

/-- The encoder's text of a decoded value. -/
def marshal (v : Json) : Str := v.sorted.compact

def isStr : Json → Bool
  | .str _ => true
  | _ => false

theorem isStr_sorted (v : Json) : v.sorted.isStr = v.isStr := by
  cases v <;> rfl

mutual
/-- The `%v` text of a decoded value. -/
def formatV : Json → Str
  | .null => "<nil>".toList
  | .bool true => "true".toList
  | .bool false => "false".toList
  | .num n => n.formatG
  | .str s => s
  | .arr xs => '[' :: (formatItems xs ++ [']'])
  | .obj ms => "map[".toList ++ formatMembers (sortMembers (formatPairs ms)) ++ [']']
def formatItems : List Json → Str
  | [] => []
  | [x] => x.formatV
  | x :: y :: xs => x.formatV ++ ' ' :: formatItems (y :: xs)
def formatPairs : List (Str × Json) → List (Str × Str)
  | [] => []
  | (k, x) :: ms => (k, x.formatV) :: formatPairs ms
def formatMembers : List (Str × Str) → Str
  | [] => []
  | [(k, t)] => k ++ ':' :: t
  | (k, t) :: m :: ms => k ++ ':' :: (t ++ ' ' :: formatMembers (m :: ms))
end

mutual
/-- Decoding into an untyped value: numbers become doubles, and of the members
of one name the last is kept. Nothing when a number is out of range. -/
def toAny : Json → Option Json
  | .num n => n.float64.map .num
  | .arr xs => (toAnyItems xs).map .arr
  | .obj ms => (toAnyMembers ms).map fun ms => .obj (ms.foldl (fun acc (k, v) => setMember k v acc) [])
  | .null => some .null
  | .bool b => some (.bool b)
  | .str s => some (.str s)
def toAnyItems : List Json → Option (List Json)
  | [] => some []
  | x :: xs => x.toAny.bind fun y => (toAnyItems xs).map fun ys => y :: ys
def toAnyMembers : List (Str × Json) → Option (List (Str × Json))
  | [] => some []
  | (k, x) :: ms => x.toAny.bind fun y => (toAnyMembers ms).map fun ys => (k, y) :: ys
end

end Json
end Janus
