import Janus.Lib.Text

/-!
# SHA-256

The digest of the encoded text as sixty-four hexadecimal digits. Words are natural
numbers below `2^32`; `forced` makes the evaluation of a word happen before it is
used, so that closed digests evaluate. Over it HMAC, on lists of bytes.
-/

namespace Janus.Sha256

set_option autoImplicit false

def forced {α : Sort _} (n : Nat) (k : Nat → α) : α :=
  match n with
  | 0 => k 0
  | n + 1 => k (n + 1)

def add (a b : Nat) : Nat := (a + b) % 4294967296

def rotr (x n : Nat) : Nat := (x >>> n) ||| ((x <<< (32 - n)) % 4294967296)

def bigSigma0 (x : Nat) : Nat := (rotr x 2).xor ((rotr x 13).xor (rotr x 22))

def bigSigma1 (x : Nat) : Nat := (rotr x 6).xor ((rotr x 11).xor (rotr x 25))

def smallSigma0 (x : Nat) : Nat := (rotr x 7).xor ((rotr x 18).xor (x >>> 3))

def smallSigma1 (x : Nat) : Nat := (rotr x 17).xor ((rotr x 19).xor (x >>> 10))

def ch (x y z : Nat) : Nat := (x &&& y).xor ((x.xor 4294967295) &&& z)

def maj (x y z : Nat) : Nat := (x &&& y).xor ((x &&& z).xor (y &&& z))

def roundConstants : List Nat :=
  [0x428a2f98, 0x71374491, 0xb5c0fbcf, 0xe9b5dba5, 0x3956c25b, 0x59f111f1, 0x923f82a4,
    0xab1c5ed5, 0xd807aa98, 0x12835b01, 0x243185be, 0x550c7dc3, 0x72be5d74, 0x80deb1fe,
    0x9bdc06a7, 0xc19bf174, 0xe49b69c1, 0xefbe4786, 0x0fc19dc6, 0x240ca1cc, 0x2de92c6f,
    0x4a7484aa, 0x5cb0a9dc, 0x76f988da, 0x983e5152, 0xa831c66d, 0xb00327c8, 0xbf597fc7,
    0xc6e00bf3, 0xd5a79147, 0x06ca6351, 0x14292967, 0x27b70a85, 0x2e1b2138, 0x4d2c6dfc,
    0x53380d13, 0x650a7354, 0x766a0abb, 0x81c2c92e, 0x92722c85, 0xa2bfe8a1, 0xa81a664b,
    0xc24b8b70, 0xc76c51a3, 0xd192e819, 0xd6990624, 0xf40e3585, 0x106aa070, 0x19a4c116,
    0x1e376c08, 0x2748774c, 0x34b0bcb5, 0x391c0cb3, 0x4ed8aa4a, 0x5b9cca4f, 0x682e6ff3,
    0x748f82ee, 0x78a5636f, 0x84c87814, 0x8cc70208, 0x90befffa, 0xa4506ceb, 0xbef9a3f7,
    0xc67178f2]

structure State where
  a : Nat
  b : Nat
  c : Nat
  d : Nat
  e : Nat
  f : Nat
  g : Nat
  h : Nat

def initial : State :=
  ⟨0x6a09e667, 0xbb67ae85, 0x3c6ef372, 0xa54ff53a, 0x510e527f, 0x9b05688c, 0x1f83d9ab,
    0x5be0cd19⟩

/-- The message schedule, newest word first, extended by `n` words. -/
def schedule : Nat → List Nat → List Nat
  | 0, ws => ws
  | n + 1, ws =>
    forced (add (add (smallSigma1 (ws.getD 1 0)) (ws.getD 6 0))
      (add (smallSigma0 (ws.getD 14 0)) (ws.getD 15 0))) fun w => schedule n (w :: ws)

def rounds : List Nat → List Nat → State → State
  | k :: ks, w :: ws, s =>
    forced (add (add (add s.h (bigSigma1 s.e)) (add (ch s.e s.f s.g) k)) w) fun t =>
    forced (add t (add (bigSigma0 s.a) (maj s.a s.b s.c))) fun a =>
    forced (add s.d t) fun e => rounds ks ws ⟨a, s.a, s.b, s.c, e, s.e, s.f, s.g⟩
  | _, _, s => s

def compress (s : State) (block : List Nat) : State :=
  let t := rounds roundConstants (schedule 48 block.reverse).reverse s
  ⟨add s.a t.a, add s.b t.b, add s.c t.c, add s.d t.d, add s.e t.e, add s.f t.f, add s.g t.g,
    add s.h t.h⟩

def words : List Nat → List Nat
  | a :: b :: c :: d :: bs => (((a * 256 + b) * 256 + c) * 256 + d) :: words bs
  | _ => []

def wordBytes (n : Nat) : List Nat := [n / 16777216 % 256, n / 65536 % 256, n / 256 % 256, n % 256]

def padded (bytes : List Nat) : List Nat :=
  let n := bytes.length
  bytes ++ 0x80 :: List.replicate ((119 - n % 64) % 64) 0 ++
    wordBytes (8 * n / 4294967296) ++ wordBytes (8 * n % 4294967296)

def compressAll : List Nat → State → State
  | w0 :: w1 :: w2 :: w3 :: w4 :: w5 :: w6 :: w7 :: w8 :: w9 :: w10 :: w11 :: w12 :: w13 :: w14 :: w15 :: ws, s =>
    compressAll ws
      (compress s [w0, w1, w2, w3, w4, w5, w6, w7, w8, w9, w10, w11, w12, w13, w14, w15])
  | _, s => s

def hexChar (n : Nat) : Char := "0123456789abcdef".toList.getD n '0'

def hexWord (n : Nat) : Str :=
  (wordBytes n).flatMap fun b => [hexChar (b / 16), hexChar (b % 16)]

def digest (s : State) : Str := [s.a, s.b, s.c, s.d, s.e, s.f, s.g, s.h].flatMap hexWord

def sha256 (text : Str) : Str := digest (compressAll (words (padded (Text.bytes text))) initial)

theorem length_sha256 (text : Str) : (sha256 text).length = 64 := by
  simp [sha256, digest, hexWord, wordBytes]

end Janus.Sha256

namespace Janus.Hmac

set_option autoImplicit false

/-- The bytes of the digest. -/
def sum256 (bytes : List Nat) : List Nat :=
  let s := Sha256.compressAll (Sha256.words (Sha256.padded bytes)) Sha256.initial
  [s.a, s.b, s.c, s.d, s.e, s.f, s.g, s.h].flatMap Sha256.wordBytes

/-- A key that fills one block. -/
def blockKey (key : List Nat) : List Nat :=
  let short := if 64 < key.length then sum256 key else key
  short ++ List.replicate (64 - short.length) 0

def hmac256 (key message : List Nat) : List Nat :=
  sum256 ((blockKey key).map (Nat.xor 0x5c) ++ sum256 ((blockKey key).map (Nat.xor 0x36) ++ message))

example : (hmac256 (Text.bytes "Jefe".toList) (Text.bytes "what do ya want for nothing?".toList)).take 4 =
    [0x5b, 0xdc, 0xc1, 0x46] := by decide +kernel

end Janus.Hmac
