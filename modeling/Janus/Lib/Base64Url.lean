import Janus.Lib.Base64

/-!
# The URL encoding of Base64 without padding

The encoder, its alphabet, and that decoding inverts it.
-/

namespace Janus.Base64

set_option autoImplicit false

def urlAlphabet : Str := "ABCDEFGHIJKLMNOPQRSTUVWXYZabcdefghijklmnopqrstuvwxyz0123456789-_".toList

def urlDigit (n : Nat) : Char := urlAlphabet.getD n 'A'

/-- `base64.RawURLEncoding.EncodeToString`. -/
def encodeRawURL : List Byte → Str
  | [] => []
  | [a] => [urlDigit (a.val / 4), urlDigit (a.val % 4 * 16)]
  | [a, b] => [urlDigit (a.val / 4), urlDigit (a.val % 4 * 16 + b.val / 16), urlDigit (b.val % 16 * 4)]
  | a :: b :: c :: rest =>
    urlDigit (a.val / 4) :: urlDigit (a.val % 4 * 16 + b.val / 16) ::
      urlDigit (b.val % 16 * 4 + c.val / 64) :: urlDigit (c.val % 64) :: encodeRawURL rest

theorem urlValue_urlDigit : ∀ n < 64, urlValue (urlDigit n) = some n := by decide +kernel

theorem urlDigit_mem : ∀ n < 64, urlDigit n ∈ urlAlphabet := by decide +kernel

theorem mem_encodeRawURL {bytes : List Byte} {c : Char} (h : c ∈ encodeRawURL bytes) : c ∈ urlAlphabet := by
  have hdigit {n : Nat} (hn : n < 64) (hc : c = urlDigit n) : c ∈ urlAlphabet := hc ▸ urlDigit_mem n hn
  induction bytes using encodeRawURL.induct with
  | case1 => cases h
  | case2 a =>
    simp only [encodeRawURL, List.mem_cons, List.not_mem_nil, or_false] at h
    rcases h with h | h
    · exact hdigit (by omega) h
    · exact hdigit (by omega) h
  | case3 a b =>
    simp only [encodeRawURL, List.mem_cons, List.not_mem_nil, or_false] at h
    rcases h with h | h | h
    · exact hdigit (by omega) h
    · exact hdigit (by omega) h
    · exact hdigit (by omega) h
  | case4 a b c' rest ih =>
    simp only [encodeRawURL, List.mem_cons] at h
    rcases h with h | h | h | h | h
    · exact hdigit (by omega) h
    · exact hdigit (by omega) h
    · exact hdigit (by omega) h
    · exact hdigit (by omega) h
    · exact ih h

theorem decodeURLGroups_encode (bytes : List Byte) : decodeURLGroups (encodeRawURL bytes) = some bytes := by
  induction bytes using encodeRawURL.induct with
  | case1 => rfl
  | case2 a =>
    have hx := urlValue_urlDigit (a.val / 4) (by omega)
    have hy := urlValue_urlDigit (a.val % 4 * 16) (by omega)
    have ha : Fin.ofNat 256 (a.val / 4 * 4 + a.val % 4 * 16 / 16) = a := ofNat_eq (by omega)
    simp only [encodeRawURL, decodeURLGroups, hx, hy, ha, Option.bind_eq_bind, Option.bind_some]
  | case3 a b =>
    have hx := urlValue_urlDigit (a.val / 4) (by omega)
    have hy := urlValue_urlDigit (a.val % 4 * 16 + b.val / 16) (by omega)
    have hz := urlValue_urlDigit (b.val % 16 * 4) (by omega)
    have ha : Fin.ofNat 256 (a.val / 4 * 4 + (a.val % 4 * 16 + b.val / 16) / 16) = a :=
      ofNat_eq (by omega)
    have hb : Fin.ofNat 256 ((a.val % 4 * 16 + b.val / 16) % 16 * 16 + b.val % 16 * 4 / 4) = b :=
      ofNat_eq (by omega)
    simp only [encodeRawURL, decodeURLGroups, hx, hy, hz, ha, hb, Option.bind_eq_bind, Option.bind_some]
  | case4 a b c rest ih =>
    have hx := urlValue_urlDigit (a.val / 4) (by omega)
    have hy := urlValue_urlDigit (a.val % 4 * 16 + b.val / 16) (by omega)
    have hz := urlValue_urlDigit (b.val % 16 * 4 + c.val / 64) (by omega)
    have hw := urlValue_urlDigit (c.val % 64) (by omega)
    have ha : Fin.ofNat 256 (a.val / 4 * 4 + (a.val % 4 * 16 + b.val / 16) / 16) = a :=
      ofNat_eq (by omega)
    have hb : Fin.ofNat 256 ((a.val % 4 * 16 + b.val / 16) % 16 * 16 +
        (b.val % 16 * 4 + c.val / 64) / 4) = b := ofNat_eq (by omega)
    have hc : Fin.ofNat 256 ((b.val % 16 * 4 + c.val / 64) % 4 * 64 + c.val % 64) = c :=
      ofNat_eq (by omega)
    simp only [encodeRawURL, decodeURLGroups, hx, hy, hz, hw, ih, ha, hb, hc, Option.bind_eq_bind,
      Option.bind_some]

/-- Decoding inverts encoding. -/
theorem decodeRawURL_encodeRawURL (bytes : List Byte) : decodeRawURL (encodeRawURL bytes) = some bytes := by
  have hself : (encodeRawURL bytes).filter (fun c => c ≠ '\r' && c ≠ '\n') = encodeRawURL bytes := by
    refine List.filter_eq_self.mpr fun c hc => ?_
    have hmem := mem_encodeRawURL hc
    have hr : c ≠ '\r' := by
      rintro rfl
      revert hmem
      decide
    have hn : c ≠ '\n' := by
      rintro rfl
      revert hmem
      decide
    simp [hr, hn]
  rw [decodeRawURL, hself, decodeURLGroups_encode]

end Janus.Base64
