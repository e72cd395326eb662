import Janus.Auth
import Janus.Lib.Base64Url
import Janus.Lib.Sha256
import Janus.Lib.JsonCompact
import Janus.Lib.NumberIntegers

/-!
# Tokens under HS256

Enough of the JWT package for the sessions of the portal: the compact form of three parts,
the signature under HMAC and the checks that the options ask for. It is lawful.
-/

namespace Janus.Auth

set_option autoImplicit false

def encodePart (v : Json) : Str := Base64.encodeRawURL (GoString.ofText v.compact)

def readPart (part : Str) : Option Json :=
  (Base64.decodeRawURL part).bind fun bytes => JsonText.parse (GoString.text bytes)

theorem readPart_encodePart (v : Json) : readPart (encodePart v) = some v := by
  unfold readPart encodePart
  rw [Base64.decodeRawURL_encodeRawURL, Option.bind_some, GoString.text_ofText]
  exact JsonText.parse_compact v

theorem dot_notMem_encodeRawURL (bytes : List Byte) : '.' ∉ Base64.encodeRawURL bytes := by
  intro h
  exact absurd (Base64.mem_encodeRawURL h) (by decide)

/-- A date that is not set is left out. -/
def dateMember (name : String) : Option Nat → List (Str × Json)
  | none => []
  | some d => [(name.toList, .num (intLit d))]

/-- Claims as they are written into a token. -/
def Claims.json (c : Claims) : Json := .obj
  ([("username".toList, .str c.username), ("role".toList, .str c.role), ("iss".toList, .str c.issuer),
    ("aud".toList, .arr (c.audience.map .str))] ++ dateMember "exp" c.expiresAt ++
    dateMember "nbf" c.notBefore ++ dateMember "iat" c.issuedAt)

/-- A date in whole seconds. -/
def readDate : Json → Option (Option Nat)
  | .num n => if n.text.all Char.isDigit then some (some (digitsVal n.text)) else none
  | _ => none

def readAudience : Json → Option (List Str)
  | .arr vs => vs.mapM (Decode.str [])
  | .str s => some [s]
  | _ => none

def assignClaim (c : Claims) (k : Str) (v : Json) : Option Claims :=
  if k = "username".toList then (Decode.str c.username v).map fun x => { c with username := x }
  else if k = "role".toList then (Decode.str c.role v).map fun x => { c with role := x }
  else if k = "iss".toList then (Decode.str c.issuer v).map fun x => { c with issuer := x }
  else if k = "aud".toList then (readAudience v).map fun x => { c with audience := x }
  else if k = "exp".toList then (readDate v).map fun x => { c with expiresAt := x }
  else if k = "nbf".toList then (readDate v).map fun x => { c with notBefore := x }
  else if k = "iat".toList then (readDate v).map fun x => { c with issuedAt := x }
  else some c

def readClaims : Json → Option Claims := Decode.record assignClaim ⟨[], [], [], [], none, none, none⟩

theorem readDate_intLit (d : Nat) : readDate (.num (intLit d)) = some (some d) := by
  have hneg : ¬ (d : Int) < 0 := Int.not_lt.mpr (Int.natCast_nonneg d)
  have htext : (intLit (d : Int)).text = natDigits d := by
    simp [intLit, intText, sign, hneg]
  have hall : (natDigits d).all Char.isDigit = true := List.all_eq_true.mpr (allDigits_natDigits d)
  rw [readDate, htext, if_pos hall, digitsVal_natDigits]

theorem readAudience_strings (xs : List Str) : readAudience (.arr (xs.map .str)) = some xs := by
  rw [readAudience]
  induction xs with
  | nil => rfl
  | cons x xs ih =>
    rw [List.map_cons, List.mapM_cons, ih]
    rfl

theorem assign_aud (c : Claims) (xs : List Str) :
    assignClaim c "aud".toList (.arr (xs.map .str)) = some { c with audience := xs } := by
  have h : assignClaim c "aud".toList (.arr (xs.map .str)) =
      (readAudience (.arr (xs.map .str))).map fun x => { c with audience := x } := rfl
  rw [h, readAudience_strings]
  rfl

/-- A date that is there is read into the field that its name stands for. -/
theorem foldlM_dateMember (name : String) (set : Option Nat → Claims → Claims)
    (hset : ∀ c v, assignClaim c name.toList v = (readDate v).map fun x => set x c) (c : Claims)
    (hnone : set none c = c) (d : Option Nat) :
    (dateMember name d).foldlM (fun c m => assignClaim c m.1 m.2) c = some (set d c) := by
  cases d with
  | none =>
    rw [hnone]
    rfl
  | some d =>
    have hone := hset c (.num (intLit d))
    rw [readDate_intLit] at hone
    rw [dateMember, List.foldlM_cons, hone]
    rfl

theorem readClaims_json (c : Claims) : readClaims c.json = some c := by
  obtain ⟨username, role, issuer, audience, expiresAt, notBefore, issuedAt⟩ := c
  let named : Claims := ⟨username, role, issuer, audience, none, none, none⟩
  have hnamed : [("username".toList, .str username), ("role".toList, .str role),
      ("iss".toList, .str issuer), ("aud".toList, .arr (audience.map .str))].foldlM
        (fun c m => assignClaim c m.1 m.2) ⟨[], [], [], [], none, none, none⟩ = some named := by
    have haud := assign_aud ⟨username, role, issuer, [], none, none, none⟩ audience
    have hfold : [("username".toList, .str username), ("role".toList, .str role),
        ("iss".toList, .str issuer), ("aud".toList, .arr (audience.map .str))].foldlM
          (fun c m => assignClaim c m.1 m.2) ⟨[], [], [], [], none, none, none⟩ =
        (assignClaim ⟨username, role, issuer, [], none, none, none⟩ "aud".toList
          (.arr (audience.map .str))).bind some := rfl
    rw [hfold, haud]
    rfl
  have hexp := foldlM_dateMember "exp" (fun d c => { c with expiresAt := d })
    (fun _ _ => rfl) named rfl expiresAt
  have hnbf := foldlM_dateMember "nbf" (fun d c => { c with notBefore := d })
    (fun _ _ => rfl) { named with expiresAt := expiresAt } rfl notBefore
  have hiat := foldlM_dateMember "iat" (fun d c => { c with issuedAt := d })
    (fun _ _ => rfl) { named with expiresAt := expiresAt, notBefore := notBefore } rfl issuedAt
  have hbind {α : Type} (x : α) (f : α → Option Claims) : (some x >>= f) = f x := rfl
  unfold readClaims Claims.json Decode.record
  dsimp only
  rw [List.foldlM_append, List.foldlM_append, List.foldlM_append, hnamed, hbind, hexp, hbind, hnbf,
    hbind]
  exact hiat

def tokenHeader : Json := .obj [("alg".toList, .str "HS256".toList), ("typ".toList, .str "JWT".toList)]

def hs256Signature (key signed : Str) : List Byte :=
  (Hmac.hmac256 (Text.bytes key) (Text.bytes signed)).map (Fin.ofNat 256)

def signedPart (c : Claims) : Str := encodePart tokenHeader ++ '.' :: encodePart c.json

def signHS256 (c : Claims) (key : Str) : Str :=
  signedPart c ++ '.' :: Base64.encodeRawURL (hs256Signature key (signedPart c))

def parseHS256 (text : Str) : Except Str Token :=
  match Text.splitOn '.' text with
  | [header, payload, _] =>
    if readPart header = some tokenHeader then
      match (readPart payload).bind readClaims with
      | some claims => .ok ⟨hs256, claims⟩
      | none => .error "token is malformed".toList
    else .error "signing method is unavailable".toList
  | _ => .error "token contains an invalid number of segments".toList

def verifiesHS256 (text key : Str) : Bool :=
  match Text.splitOn '.' text with
  | [header, payload, signature] =>
    Base64.decodeRawURL signature = some (hs256Signature key (header ++ '.' :: payload))
  | _ => false

def isLive (now : Nat) (c : Claims) : Bool :=
  (c.expiresAt.all fun d => now < d * second) && c.notBefore.all fun d => d * second ≤ now

theorem isLive_iff {now : Nat} {c : Claims} : isLive now c = true ↔ Live now c := by
  unfold isLive
  rw [Bool.and_eq_true, Option.all_eq_true, Option.all_eq_true]
  constructor
  · rintro ⟨he, hn⟩
    exact ⟨fun d hd => of_decide_eq_true (he d hd), fun d hd => of_decide_eq_true (hn d hd)⟩
  · intro h
    exact ⟨fun d hd => decide_eq_true (h.before d hd), fun d hd => decide_eq_true (h.after d hd)⟩

def hs256Package : JWT where
  parseUnverified := parseHS256
  verifies text alg key := alg = hs256.alg && verifiesHS256 text key
  signedString c key := .ok (signHS256 c key)
  parseWithClaims text keyfunc opts now :=
    match parseHS256 text with
    | .error e => .error e
    | .ok token =>
      if token.method.alg ∉ opts.validMethods then .error "token signature is invalid".toList
      else
        match keyfunc token.method with
        | .error e => .error e
        | .ok key =>
          if !(token.method.alg = hs256.alg && verifiesHS256 text key) then
            .error "token signature is invalid".toList
          else if !isLive now token.claims then .error "token is expired".toList
          else if opts.audience ∉ token.claims.audience then .error "token has invalid audience".toList
          else if token.claims.issuer ≠ opts.issuer then .error "token has invalid issuer".toList
          else .ok token.claims

theorem splitOn_three {a b c : Str} (ha : '.' ∉ a) (hb : '.' ∉ b) (hc : '.' ∉ c) :
    Text.splitOn '.' (a ++ '.' :: (b ++ '.' :: c)) = [a, b, c] := by
  rw [Text.splitOn_append_sep ha, Text.splitOn_append_sep hb, Text.splitOn_of_notMem hc]

theorem splitOn_signHS256 (c : Claims) (key : Str) : Text.splitOn '.' (signHS256 c key) =
    [encodePart tokenHeader, encodePart c.json,
      Base64.encodeRawURL (hs256Signature key (signedPart c))] := by
  have happ : signHS256 c key = encodePart tokenHeader ++ '.' :: (encodePart c.json ++ '.' ::
      Base64.encodeRawURL (hs256Signature key (signedPart c))) :=
    List.append_assoc ..
  rw [happ]
  exact splitOn_three (dot_notMem_encodeRawURL _) (dot_notMem_encodeRawURL _) (dot_notMem_encodeRawURL _)

theorem carries_signHS256 (c : Claims) (key : Str) : hs256Package.Carries (signHS256 c key) key c := by
  have hsplit := splitOn_signHS256 c key
  constructor
  · simp only [hs256Package, parseHS256, hsplit, readPart_encodePart, if_true, Option.bind_some,
      readClaims_json]
  · have hdecode := Base64.decodeRawURL_encodeRawURL (hs256Signature key (signedPart c))
    simp only [hs256Package, verifiesHS256, hsplit, hdecode]
    simp [signedPart]

section Accepting

variable {text : Str} {keyfunc : OAuth.SigningMethod → Except Str Str} {opts : ParserOptions} {now : Nat}
  {claims : Claims}

/-- What the package accepts has passed all its checks. -/
theorem accepts_of_parse (h : hs256Package.parseWithClaims text keyfunc opts now = .ok claims) :
    ∃ token key, hs256Package.Accepts text keyfunc opts now claims token key := by
  simp only [hs256Package] at h
  cases hp : parseHS256 text with
  | error e =>
    rw [hp] at h
    cases h
  | ok token =>
    rw [hp] at h
    dsimp only at h
    split at h
    · cases h
    · rename_i hmethod
      cases hk : keyfunc token.method with
      | error e =>
        rw [hk] at h
        cases h
      | ok key =>
        rw [hk] at h
        simp only [Bool.not_eq_true', ← Bool.not_eq_true, ite_not] at h
        split at h
        · rename_i hsigned
          split at h
          · rename_i hlive
            split at h
            · rename_i haud
              split at h
              · rename_i hiss
                cases h
                exact ⟨token, key, hp, rfl, not_not.mp hmethod, hk, hsigned, isLive_iff.mp hlive,
                  haud, hiss⟩
              · cases h
            · cases h
          · cases h
        · cases h

theorem parse_of_accepts {token : Token} {key : Str}
    (h : hs256Package.Accepts text keyfunc opts now claims token key) :
    hs256Package.parseWithClaims text keyfunc opts now = .ok claims := by
  have hparsed : parseHS256 text = .ok token := h.parsed
  have hsigned : (token.method.alg = hs256.alg && verifiesHS256 text key) = true := h.signed
  have hlive : isLive now token.claims = true := isLive_iff.mpr (h.same ▸ h.live)
  have haud : opts.audience ∈ token.claims.audience := h.same ▸ h.audience
  have hiss : token.claims.issuer = opts.issuer := h.same ▸ h.issuer
  simp only [hs256Package, hparsed, h.keyed]
  rw [if_neg (not_not.mpr h.method), hsigned, hlive, if_neg (by decide), if_neg (by decide),
    if_neg (not_not.mpr haud), if_neg (not_not.mpr hiss), h.same]

end Accepting

theorem hs256Package_lawful : hs256Package.Lawful where
  accepts _ _ _ _ _ := ⟨accepts_of_parse, fun ⟨_, _, h⟩ => parse_of_accepts h⟩
  signs c key _ := ⟨signHS256 c key, rfl,
    List.append_ne_nil_of_right_ne_nil _ (List.cons_ne_nil _ _), carries_signHS256 c key⟩

theorem isSpace_signHS256 (c : Claims) (key : Str) :
    ∀ x ∈ signHS256 c key, Text.isSpace x = false := by
  have hall : ∀ x ∈ '.' :: Base64.urlAlphabet, Text.isSpace x = false := by decide
  have hpart (bytes : List Byte) : ∀ x ∈ Base64.encodeRawURL bytes, Text.isSpace x = false :=
    fun x hx => hall x (List.mem_cons_of_mem _ (Base64.mem_encodeRawURL hx))
  have hdot : Text.isSpace '.' = false := hall _ List.mem_cons_self
  intro x hx
  unfold signHS256 signedPart at hx
  simp only [List.mem_append, List.mem_cons] at hx
  rcases hx with (hx | rfl | hx) | rfl | hx
  · exact hpart _ x hx
  · exact hdot
  · exact hpart _ x hx
  · exact hdot
  · exact hpart _ x hx

end Janus.Auth
