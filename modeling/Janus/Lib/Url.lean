import Janus.Lib.Json

/-!
# URLs

Parsing, percent-encoding and printing of URLs and query strings as a general-purpose
URL library does them. A decoded path is a byte sequence, since a percent-encoded
path need not be valid text; the host is text.
-/

namespace Janus.Url

set_option autoImplicit false

inductive Mode where
  | path
  | pathSegment
  | host
  | zone
  | userPassword
  | queryComponent
  | fragment
  deriving Repr, DecidableEq

def isAlnum (b : Nat) : Bool :=
  (0x30 ≤ b && b ≤ 0x39) || (0x41 ≤ b && b ≤ 0x5A) || (0x61 ≤ b && b ≤ 0x7A)

def isOneOf (b : Nat) (s : String) : Bool := s.toList.any fun c => c.toNat = b

/-- Whether a byte is percent-encoded in a component. -/
def shouldEscape (b : Nat) (mode : Mode) : Bool :=
  if isAlnum b then false
  else if (mode = .host || mode = .zone) && isOneOf b "!$&'()*+,;=:[]<>\"" then false
  else if isOneOf b "-_.~" then false
  else if isOneOf b "$&+,/:;=?@" then
    match mode with
    | .path => isOneOf b "?"
    | .pathSegment => isOneOf b "/;,?"
    | .userPassword => isOneOf b "@/?:"
    | .queryComponent => true
    | .fragment => false
    | .host | .zone => true
  else if mode = .fragment && isOneOf b "!()*" then false
  else true

def upperHex (n : Nat) : Char := "0123456789ABCDEF".toList.getD n '0'

def escapeByte (mode : Mode) (b : Nat) : Str :=
  if mode = .queryComponent && b = 0x20 then ['+']
  else if shouldEscape b mode then ['%', upperHex (b / 16), upperHex (b % 16)]
  else [Char.ofNat b]

def escape (mode : Mode) (bs : List Nat) : Str := bs.flatMap (escapeByte mode)

def pathEscape (s : Str) : Str := escape .pathSegment (Text.bytes s)

def queryEscape (s : Str) : Str := escape .queryComponent (Text.bytes s)

def unhex (c : Char) : Option Nat :=
  if '0' ≤ c && c ≤ '9' then some (c.toNat - '0'.toNat)
  else if 'a' ≤ c && c ≤ 'f' then some (c.toNat - 'a'.toNat + 10)
  else if 'A' ≤ c && c ≤ 'F' then some (c.toNat - 'A'.toNat + 10)
  else none

/-- The bytes that may not be encoded: in a host those of ASCII, the percent sign apart, and
in a zone those that have to be encoded elsewhere in a host, the space apart. -/
def badEscape (mode : Mode) (b : Nat) : Bool :=
  (mode = .host && b < 0x80 && b ≠ 0x25) ||
    (mode = .zone && b ≠ 0x25 && b ≠ 0x20 && shouldEscape b .host)

/-- Percent-decoding. No byte of a host that has to be encoded may stand bare. -/
def unescape (mode : Mode) : Str → Option (List Nat)
  | [] => some []
  | '%' :: a :: b :: s =>
    match unhex a, unhex b with
    | some x, some y =>
      if badEscape mode (16 * x + y) then none
      else (unescape mode s).map fun bs => (16 * x + y) :: bs
    | _, _ => none
  | '%' :: _ => none
  | c :: s =>
    if mode = .queryComponent && c = '+' then (unescape mode s).map fun bs => 0x20 :: bs
    else if (mode = .host || mode = .zone) && c.toNat < 0x80 && shouldEscape c.toNat mode then none
    else (unescape mode s).map fun bs => Text.utf8 c ++ bs

structure URL where
  scheme : Str
  opaqueRest : Str
  user : Option Str
  host : Str
  path : List Nat
  rawPath : Str
  omitHost : Bool
  forceQuery : Bool
  rawQuery : Str
  fragment : List Nat
  rawFragment : Str
  deriving Repr, DecidableEq

inductive SchemeScan where
  | none
  | bad
  | found (scheme rest : Str)
  deriving Repr, DecidableEq

def isLetter (c : Char) : Bool := ('a' ≤ c && c ≤ 'z') || ('A' ≤ c && c ≤ 'Z')

def isSchemeChar (c : Char) : Bool :=
  ('0' ≤ c && c ≤ '9') || c = '+' || c = '-' || c = '.'

def getSchemeFrom : Str → Str → SchemeScan
  | _, [] => .none
  | done, c :: cs =>
    if isLetter c then getSchemeFrom (done ++ [c]) cs
    else if isSchemeChar c then if done = [] then .none else getSchemeFrom (done ++ [c]) cs
    else if c = ':' then if done = [] then .bad else .found done cs
    else .none

def lower (s : Str) : Str := s.map fun c => if 'A' ≤ c && c ≤ 'Z' then Char.ofNat (c.toNat + 32) else c

/-- The text before the first separator, and after it. -/
def cutAt (sep : Char) (s : Str) : Str × Str := (Text.cut sep s).getD (s, [])

/-- The text before and after the last separator. -/
def cutLast (sep : Char) (s : Str) : Option (Str × Str) :=
  (Text.cut sep s.reverse).map fun (a, b) => (b.reverse, a.reverse)

def validOptionalPort (s : Str) : Bool :=
  match s with
  | [] => true
  | c :: ds => c = ':' && ds.all fun d => '0' ≤ d && d ≤ '9'

/-- A bracketed address before and from its zone on. -/
def cutZone : Str → Option (Str × Str)
  | [] => none
  | c :: s =>
    if "%25".toList.isPrefixOf (c :: s) then some ([], c :: s)
    else (cutZone s).map fun (a, b) => (c :: a, b)

def parseOctet (s : Str) : Option Nat :=
  if s = [] || !s.all isDigit || (s.head? = some '0' && s.length ≠ 1) || digitsVal s > 255 then none
  else some (digitsVal s)

def parseIPv4 (s : Str) : Option Nat :=
  match (Text.splitOn '.' s).map parseOctet with
  | [some a, some b, some c, some d] => some (a * 2 ^ 24 + b * 2 ^ 16 + c * 2 ^ 8 + d)
  | _ => none

/-- One to four hexadecimal digits, and the text behind them. -/
def readGroup (s : Str) : Option (Nat × Str) :=
  let ds := s.takeWhile fun c => (unhex c).isSome
  if ds = [] || ds.length > 4 then none
  else some (ds.foldl (fun n c => 16 * n + (unhex c).getD 0) 0, s.drop ds.length)

/-- The groups of an address and the place of its ellipsis, with room for `n` more groups. -/
def parseGroups : Nat → List Nat → Option Nat → Str → Option (List Nat × Option Nat)
  | 0, gs, e, s => if s = [] then some (gs, e) else none
  | n + 1, gs, e, s =>
    match readGroup s with
    | none => none
    | some (g, rest) =>
      if rest.head? = some '.' then
        if (e = none && gs.length ≠ 6) || n = 0 then none
        else (parseIPv4 s).map fun v => (gs ++ [v / 65536, v % 65536], e)
      else
        match rest with
        | [] => some (gs ++ [g], e)
        | [':'] => none
        | ':' :: ':' :: more =>
          if e.isSome then none
          else if more = [] then some (gs ++ [g], some (gs.length + 1))
          else parseGroups n (gs ++ [g]) (some (gs.length + 1)) more
        | ':' :: more => parseGroups n (gs ++ [g]) e more
        | _ => none

/-- The ellipsis stands for at least one group of zeros. -/
def expandGroups : List Nat × Option Nat → Option (List Nat)
  | (gs, none) => if gs.length = 8 then some gs else none
  | (gs, some e) =>
    if gs.length < 8 then some (gs.take e ++ List.replicate (8 - gs.length) 0 ++ gs.drop e) else none

/-- The number of an IPv6 address, and its zone. -/
def parseIPv6 (s : Str) : Option (Nat × Str) :=
  let (body, zone) :=
    match Text.cut '%' s with
    | none => (s, none)
    | some (body, zone) => (body, some zone)
  if zone = some [] then none
  else
    let groups :=
      match body with
      | [':', ':'] => some ([], some 0)
      | ':' :: ':' :: more => parseGroups 8 [] (some 0) more
      | _ => parseGroups 8 [] none body
    (groups.bind expandGroups).map fun gs =>
      (gs.foldl (fun n g => 65536 * n + g) 0, zone.getD [])

/-- The first separator of an IPv6 address is a colon. -/
def isIPv6 (s : Str) : Bool :=
  s.find? (fun c => c = '.' || c = ':' || c = '%') = some ':' && (parseIPv6 s).isSome

/-- A bracket can only open the host, around an IPv6 address, and a colon outside of
brackets only its port. -/
def parseHost (host : Str) : Option Str :=
  if (host.drop 1).contains '[' then none
  else if host.head? = some '[' then
    match cutLast ']' host with
    | none => none
    | some (inner, port) =>
      if validOptionalPort port then
        match cutZone inner with
        | some (addr, zone) =>
          (unescape .host addr).bind fun x =>
            (unescape .zone zone).bind fun y =>
              if isIPv6 (Text.ofBytes ((x ++ y).drop 1)) then
                (unescape .host (']' :: port)).map fun z => Text.ofBytes (x ++ y ++ z)
              else none
        | none =>
          (unescape .host inner).bind fun x =>
            if isIPv6 (Text.ofBytes (x.drop 1)) then
              (unescape .host (']' :: port)).map fun z => Text.ofBytes (x ++ z)
            else none
      else none
  else
    match Text.cut ':' host with
    | some (_, port) =>
      if validOptionalPort (':' :: port) then (unescape .host host).map Text.ofBytes else none
    | none => (unescape .host host).map Text.ofBytes

def validUserinfo (s : Str) : Bool :=
  s.all fun c => isAlnum c.toNat || isOneOf c.toNat "-._:~!$&'()*+,;=%@"

/-- The user information is kept as it is printed. -/
def parseUserinfo (s : Str) : Option Str :=
  if !validUserinfo s then none
  else
    match Text.cut ':' s with
    | none => (unescape .userPassword s).map (escape .userPassword)
    | some (name, password) =>
      (unescape .userPassword name).bind fun n =>
        (unescape .userPassword password).map fun p =>
          escape .userPassword n ++ ':' :: escape .userPassword p

def parseAuthority (authority : Str) : Option (Option Str × Str) :=
  match cutLast '@' authority with
  | none => (parseHost authority).map fun h => (none, h)
  | some (info, host) =>
    (parseHost host).bind fun h => (parseUserinfo info).map fun i => (some i, h)

def setPath (u : URL) (p : Str) : Option URL :=
  (unescape .path p).map fun path =>
    { u with path := path, rawPath := if escape .path path = p then [] else p }

def empty : URL := ⟨[], [], none, [], [], [], false, false, [], [], []⟩

/-- The part after the scheme, the query cut off. -/
def parseRest (u : URL) (rest : Str) : Option URL :=
  if rest.head? ≠ some '/' && u.scheme ≠ [] then some { u with opaqueRest := rest }
  else if rest.head? ≠ some '/' && (cutAt '/' rest).1.contains ':' then none
  else
    match rest with
    | '/' :: '/' :: r =>
      if u.scheme ≠ [] || r.head? ≠ some '/' then
        let authority := r.takeWhile (· ≠ '/')
        (parseAuthority authority).bind fun (user, host) =>
          setPath { u with user := user, host := host } (r.dropWhile (· ≠ '/'))
      else setPath u rest
    | _ => setPath (if u.scheme ≠ [] && rest.head? = some '/' then { u with omitHost := true } else u) rest

def isControl (c : Char) : Bool := c.toNat < 0x20 || c.toNat = 0x7F

def parseNoFragment (s : Str) : Option URL :=
  if s.any isControl then none
  else if s = ['*'] then some { empty with path := [0x2A] }
  else
    match getSchemeFrom [] s with
    | .bad => none
    | scan =>
      let (scheme, rest) :=
        match scan with
        | .found scheme rest => (lower scheme, rest)
        | _ => ([], s)
      let u := { empty with scheme := scheme }
      if rest.getLast? = some '?' && rest.count '?' = 1 then
        parseRest { u with forceQuery := true } rest.dropLast
      else
        let (rest, query) := cutAt '?' rest
        parseRest { u with rawQuery := query } rest

def parse (s : Str) : Option URL :=
  let (main, frag) := cutAt '#' s
  (parseNoFragment main).bind fun u =>
    if frag = [] then some u
    else (unescape .fragment frag).map fun f =>
      { u with fragment := f, rawFragment := if escape .fragment f = frag then [] else frag }

def validEncodedChar (mode : Mode) (c : Char) : Bool :=
  isOneOf c.toNat "!$&'()*+,;=:@[]%" || !shouldEscape c.toNat mode

/-- The encoded form: the given one where it is a valid encoding of the decoded path. -/
def escapedForm (mode : Mode) (decoded : List Nat) (raw : Str) : Str :=
  if raw ≠ [] && raw.all (validEncodedChar mode) && unescape mode raw = some decoded then raw
  else escape mode decoded

def URL.escapedPath (u : URL) : Str :=
  if u.path = [0x2A] then ['*'] else escapedForm .path u.path u.rawPath

def URL.string (u : URL) : Str :=
  let scheme := if u.scheme ≠ [] then u.scheme ++ [':'] else []
  let main :=
    if u.opaqueRest ≠ [] then scheme ++ u.opaqueRest
    else
      let authority :=
        if (u.scheme ≠ [] || u.host ≠ [] || u.user.isSome) &&
            !(u.omitHost && u.host = [] && u.user.isNone) then
          (if u.host ≠ [] || u.path ≠ [] || u.user.isSome then ['/', '/'] else []) ++
            (u.user.map fun i => i ++ ['@']).getD [] ++ escape .host (Text.bytes u.host)
        else []
      let path := u.escapedPath
      let slash := if path ≠ [] && path.head? ≠ some '/' && u.host ≠ [] then ['/'] else []
      let before := scheme ++ authority ++ slash
      let dot := if before = [] && (cutAt '/' path).1.contains ':' then ['.', '/'] else []
      before ++ dot ++ path
  main ++ (if u.forceQuery || u.rawQuery ≠ [] then '?' :: u.rawQuery else []) ++
    (if u.fragment ≠ [] then '#' :: escapedForm .fragment u.fragment u.rawFragment else [])

/-- The host without its port and brackets. -/
def URL.hostname (u : URL) : Str :=
  let h :=
    match cutLast ':' u.host with
    | some (h, port) => if validOptionalPort (':' :: port) then h else u.host
    | none => u.host
  match h with
  | '[' :: rest => if rest.getLast? = some ']' then rest.dropLast else h
  | _ => h

/-- Query values by name, in order of their first occurrence. -/
abbrev Values := List (Str × List Str)

def queryUnescape (s : Str) : Option Str := (unescape .queryComponent s).map Text.ofBytes

def addValue (vs : Values) (k v : Str) : Values := setMember k ((lookup k vs).getD [] ++ [v]) vs

/-- Malformed pairs are skipped. -/
def parseQuery (query : Str) : Values :=
  (Text.splitOn '&' query).foldl (fun vs part =>
    if part.contains ';' || part = [] then vs
    else
      let (k, v) := cutAt '=' part
      match queryUnescape k, queryUnescape v with
      | some k, some v => addValue vs k v
      | _, _ => vs) []

def Values.set (vs : Values) (k v : Str) : Values := setMember k [v] vs

def Values.encode (vs : Values) : Str :=
  Text.join ['&'] ((sortMembers vs).flatMap fun (k, xs) =>
    xs.map fun x => queryEscape k ++ '=' :: queryEscape x)

end Janus.Url
