import Janus.Lib.GoString

/-!
# Base64

The standard encoding with padding. The decoder skips line breaks, takes padding only at
the end and ignores the bits that a padded group leaves over; it inverts the encoder. Of the
URL encoding without padding there is the decoder only.
-/

namespace Janus.Base64

set_option autoImplicit false

def alphabet : Str := "ABCDEFGHIJKLMNOPQRSTUVWXYZabcdefghijklmnopqrstuvwxyz0123456789+/".toList

def digit (n : Nat) : Char := alphabet.getD n 'A'

def value (c : Char) : Option Nat := alphabet.idxOf? c

/-- `base64.StdEncoding.EncodeToString`. -/
def encode : List Byte → Str
  | [] => []
  | [a] => [digit (a.val / 4), digit (a.val % 4 * 16), '=', '=']
  | [a, b] => [digit (a.val / 4), digit (a.val % 4 * 16 + b.val / 16), digit (b.val % 16 * 4), '=']
  | a :: b :: c :: rest =>
    digit (a.val / 4) :: digit (a.val % 4 * 16 + b.val / 16) :: digit (b.val % 16 * 4 + c.val / 64) ::
      digit (c.val % 64) :: encode rest

def decodeGroups : Str → Option (List Byte)
  | [] => some []
  | [x, y, '=', '='] => do
    let x ← value x
    let y ← value y
    some [Fin.ofNat 256 (x * 4 + y / 16)]
  | [x, y, z, '='] => do
    let x ← value x
    let y ← value y
    let z ← value z
    some [Fin.ofNat 256 (x * 4 + y / 16), Fin.ofNat 256 (y % 16 * 16 + z / 4)]
  | x :: y :: z :: w :: rest => do
    let x ← value x
    let y ← value y
    let z ← value z
    let w ← value w
    let bytes ← decodeGroups rest
    some (Fin.ofNat 256 (x * 4 + y / 16) :: Fin.ofNat 256 (y % 16 * 16 + z / 4) ::
      Fin.ofNat 256 (z % 4 * 64 + w) :: bytes)
  | _ => none

/-- `base64.StdEncoding.DecodeString`. -/
def decode (s : Str) : Option (List Byte) := decodeGroups (s.filter fun c => c ≠ '\r' && c ≠ '\n')

def urlValue (c : Char) : Option Nat :=
  if 'A' ≤ c && c ≤ 'Z' then some (c.toNat - 65)
  else if 'a' ≤ c && c ≤ 'z' then some (c.toNat - 71)
  else if '0' ≤ c && c ≤ '9' then some (c.toNat + 4)
  else if c = '-' then some 62
  else if c = '_' then some 63
  else none

def decodeURLGroups : Str → Option (List Byte)
  | [] => some []
  | [x, y] => do
    let x ← urlValue x
    let y ← urlValue y
    some [Fin.ofNat 256 (x * 4 + y / 16)]
  | [x, y, z] => do
    let x ← urlValue x
    let y ← urlValue y
    let z ← urlValue z
    some [Fin.ofNat 256 (x * 4 + y / 16), Fin.ofNat 256 (y % 16 * 16 + z / 4)]
  | x :: y :: z :: w :: rest => do
    let x ← urlValue x
    let y ← urlValue y
    let z ← urlValue z
    let w ← urlValue w
    let bytes ← decodeURLGroups rest
    some (Fin.ofNat 256 (x * 4 + y / 16) :: Fin.ofNat 256 (y % 16 * 16 + z / 4) ::
      Fin.ofNat 256 (z % 4 * 64 + w) :: bytes)
  | [_] => none

/-- `base64.RawURLEncoding.DecodeString`. -/
def decodeRawURL (s : Str) : Option (List Byte) :=
  decodeURLGroups (s.filter fun c => c ≠ '\r' && c ≠ '\n')

example : decodeRawURL "Zm9vYg".toList = some [102, 111, 111, 98] := by decide +kernel

theorem value_digit : ∀ n < 64, value (digit n) = some n := by decide +kernel

theorem digit_ne : ∀ n < 64, digit n ≠ '=' ∧ digit n ≠ '\r' ∧ digit n ≠ '\n' := by decide +kernel

theorem ofNat_eq {a : Byte} {n : Nat} (h : n = a.val) : Fin.ofNat 256 n = a := by
  rw [h, Fin.ofNat_val_eq_self]

theorem decodeGroups_four {x y z w : Char} (hw : w ≠ '=') (rest : Str) :
    decodeGroups (x :: y :: z :: w :: rest) =
      (value x).bind fun x => (value y).bind fun y => (value z).bind fun z => (value w).bind fun w =>
        (decodeGroups rest).bind fun bytes =>
          some (Fin.ofNat 256 (x * 4 + y / 16) :: Fin.ofNat 256 (y % 16 * 16 + z / 4) ::
            Fin.ofNat 256 (z % 4 * 64 + w) :: bytes) := by
  rw [decodeGroups]
  · rfl
  · exact fun _ h _ => hw h
  · exact fun h _ => hw h

theorem decodeGroups_three {x y z : Char} (hz : z ≠ '=') :
    decodeGroups [x, y, z, '='] =
      (value x).bind fun x => (value y).bind fun y => (value z).bind fun z =>
        some [Fin.ofNat 256 (x * 4 + y / 16), Fin.ofNat 256 (y % 16 * 16 + z / 4)] := by
  simp only [decodeGroups]
  rfl

theorem decodeGroups_encode (bytes : List Byte) : decodeGroups (encode bytes) = some bytes := by
  induction bytes using encode.induct with
  | case1 => rfl
  | case2 a =>
    have hx := value_digit (a.val / 4) (by omega)
    have hy := value_digit (a.val % 4 * 16) (by omega)
    have ha : Fin.ofNat 256 (a.val / 4 * 4 + a.val % 4 * 16 / 16) = a := ofNat_eq (by omega)
    simp only [encode, decodeGroups, hx, hy, ha, Option.bind_eq_bind, Option.bind_some]
  | case3 a b =>
    have hx := value_digit (a.val / 4) (by omega)
    have hy := value_digit (a.val % 4 * 16 + b.val / 16) (by omega)
    have hz := value_digit (b.val % 16 * 4) (by omega)
    have hpad := (digit_ne (b.val % 16 * 4) (by omega)).1
    have ha : Fin.ofNat 256 (a.val / 4 * 4 + (a.val % 4 * 16 + b.val / 16) / 16) = a :=
      ofNat_eq (by omega)
    have hb : Fin.ofNat 256 ((a.val % 4 * 16 + b.val / 16) % 16 * 16 + b.val % 16 * 4 / 4) = b :=
      ofNat_eq (by omega)
    rw [encode, decodeGroups_three hpad]
    simp only [hx, hy, hz, Option.bind_some, ha, hb]
  | case4 a b c rest ih =>
    have hx := value_digit (a.val / 4) (by omega)
    have hy := value_digit (a.val % 4 * 16 + b.val / 16) (by omega)
    have hz := value_digit (b.val % 16 * 4 + c.val / 64) (by omega)
    have hw := value_digit (c.val % 64) (by omega)
    have hpad := (digit_ne (c.val % 64) (by omega)).1
    have ha : Fin.ofNat 256 (a.val / 4 * 4 + (a.val % 4 * 16 + b.val / 16) / 16) = a :=
      ofNat_eq (by omega)
    have hb : Fin.ofNat 256 ((a.val % 4 * 16 + b.val / 16) % 16 * 16 +
        (b.val % 16 * 4 + c.val / 64) / 4) = b := ofNat_eq (by omega)
    have hc : Fin.ofNat 256 ((b.val % 16 * 4 + c.val / 64) % 4 * 64 + c.val % 64) = c :=
      ofNat_eq (by omega)
    rw [encode, decodeGroups_four hpad]
    simp only [hx, hy, hz, hw, ih, Option.bind_some, ha, hb, hc]

theorem mem_encode {bytes : List Byte} {c : Char} (h : c ∈ encode bytes) : c ≠ '\r' ∧ c ≠ '\n' := by
  have hdigit {n : Nat} (hn : n < 64) (hc : c = digit n) : c ≠ '\r' ∧ c ≠ '\n' :=
    hc ▸ (digit_ne n hn).2
  have hpad (hc : c = '=') : c ≠ '\r' ∧ c ≠ '\n' := by
    rw [hc]
    decide
  induction bytes using encode.induct with
  | case1 => cases h
  | case2 a =>
    simp only [encode, List.mem_cons, List.not_mem_nil, or_false] at h
    rcases h with h | h | h | h
    · exact hdigit (by omega) h
    · exact hdigit (by omega) h
    · exact hpad h
    · exact hpad h
  | case3 a b =>
    simp only [encode, List.mem_cons, List.not_mem_nil, or_false] at h
    rcases h with h | h | h | h
    · exact hdigit (by omega) h
    · exact hdigit (by omega) h
    · exact hdigit (by omega) h
    · exact hpad h
  | case4 a b c' rest ih =>
    simp only [encode, List.mem_cons] at h
    rcases h with h | h | h | h | h
    · exact hdigit (by omega) h
    · exact hdigit (by omega) h
    · exact hdigit (by omega) h
    · exact hdigit (by omega) h
    · exact ih h

/-- Decoding inverts encoding. -/
theorem decode_encode (bytes : List Byte) : decode (encode bytes) = some bytes := by
  have hself : (encode bytes).filter (fun c => c ≠ '\r' && c ≠ '\n') = encode bytes := by
    refine List.filter_eq_self.mpr fun c hc => ?_
    obtain ⟨hr, hn⟩ := mem_encode hc
    simp [hr, hn]
  rw [decode, hself, decodeGroups_encode]

example : encode [102, 111, 111, 98] = "Zm9vYg==".toList := by decide +kernel

end Janus.Base64
