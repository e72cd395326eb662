import Mathlib.Algebra.GroupWithZero.Nat
import Mathlib.Data.List.Basic
import Mathlib.Tactic.Common

/-!
# Decimal number literals and double precision

A number is kept as the JSON literal that writes it. `float64` reads a literal
into double precision (round to nearest, ties to even) and writes back the
shortest literal of the result, which is how a decoded number is represented;
`formatG` is the general format of the same number with the shortest digits.
-/

namespace Janus

set_option autoImplicit false

def isDigit (c : Char) : Bool := '0' ≤ c && c ≤ '9'

def digitVal (c : Char) : Nat := c.toNat - '0'.toNat

def digitsVal (ds : List Char) : Nat := ds.foldl (fun n c => 10 * n + digitVal c) 0

def natDigits (n : Nat) : List Char := Nat.toDigits 10 n

/-- `[eE][+-]?digits`, or nothing. -/
def isExponent : List Char → Bool
  | [] => true
  | e :: s =>
    (e = 'e' || e = 'E') &&
      match s with
      | '+' :: ds => !ds.isEmpty && ds.all isDigit
      | '-' :: ds => !ds.isEmpty && ds.all isDigit
      | ds => !ds.isEmpty && ds.all isDigit

/-- The rest of a literal after its integer part. -/
def isFraction (s : List Char) : Bool :=
  match s with
  | '.' :: s => !(s.takeWhile isDigit).isEmpty && isExponent (s.dropWhile isDigit)
  | s => isExponent s

def isUnsigned (s : List Char) : Bool :=
  match s.takeWhile isDigit with
  | [] => false
  | '0' :: _ :: _ => false
  | _ => isFraction (s.dropWhile isDigit)

def isNumLit : List Char → Bool
  | '-' :: s => isUnsigned s
  | s => isUnsigned s

/-- A JSON number literal. -/
structure NumLit where
  text : List Char
  valid : isNumLit text = true
  deriving DecidableEq, Repr

/-- The digits `d` and the exponent `p` of the magnitude `0.d * 10^p`. -/
structure Decimal where
  neg : Bool
  digits : List Char
  point : Int
  deriving DecidableEq, Repr

def Decimal.stripped (d : Decimal) : Decimal :=
  let lead := d.digits.takeWhile (· = '0')
  let ds := d.digits.dropWhile (· = '0')
  let ds := (ds.reverse.dropWhile (· = '0')).reverse
  if ds.isEmpty then ⟨d.neg, [], 0⟩ else ⟨d.neg, ds, d.point - lead.length⟩

def exponentVal : List Char → Int
  | _ :: '-' :: ds => -(digitsVal ds : Int)
  | _ :: '+' :: ds => digitsVal ds
  | _ :: ds => digitsVal ds
  | [] => 0

def NumLit.decimal (n : NumLit) : Decimal :=
  let neg := n.text.head? = some '-'
  let s := if neg then n.text.drop 1 else n.text
  let int := s.takeWhile isDigit
  let rest := s.dropWhile isDigit
  let (frac, expo) :=
    match rest with
    | '.' :: s => (s.takeWhile isDigit, s.dropWhile isDigit)
    | s => ([], s)
  Decimal.stripped ⟨neg, int ++ frac, int.length + exponentVal expo⟩

/-- `num / den` rounded to `m * 2^e` with `m < 2^53`; nothing when it overflows. -/
def roundBinary (num den : Nat) : Option (Nat × Int) :=
  let k : Int := (Nat.log2 num : Int) - (Nat.log2 den : Int)
  let below := if 0 ≤ k then num < den * 2 ^ k.toNat else num * 2 ^ (-k).toNat < den
  let e : Int := max (if below then k - 53 else k - 52) (-1074)
  let n := if 0 ≤ e then num else num * 2 ^ (-e).toNat
  let d := if 0 ≤ e then den * 2 ^ e.toNat else den
  let q := n / d
  let r := n % d
  let q := if 2 * r > d || (2 * r = d && q % 2 = 1) then q + 1 else q
  let (q, e) := if q = 2 ^ 53 then (2 ^ 52, e + 1) else (q, e)
  if e > 971 then none else some (q, e)

def ratio (m : Nat) (b : Nat) (e : Int) : Nat × Nat :=
  if 0 ≤ e then (m * b ^ e.toNat, 1) else (m, b ^ (-e).toNat)

/-- The `n`-digit decimals next to `num / den`, the closer one first. -/
def nearDecimals (num den n : Nat) : List (Nat × Int) :=
  let l : Int := (natDigits num).length - (natDigits den).length
  let below := if 0 ≤ l then num < den * 10 ^ l.toNat else num * 10 ^ (-l).toNat < den
  let p : Int := (if below then l - 1 else l) - (n - 1)
  let (a, b) := if 0 ≤ p then (num, den * 10 ^ p.toNat) else (num * 10 ^ (-p).toNat, den)
  let q := a / b
  if 2 * (a % b) > b then [(q + 1, p), (q, p)] else [(q, p), (q + 1, p)]

/-- The shortest decimal that rounds back to `m * 2^e`; seventeen digits always do. -/
def shortestDecimal (m : Nat) (e : Int) : Nat × Int :=
  let (num, den) := ratio m 2 e
  let candidates := (List.range 17).flatMap fun i => nearDecimals num den (i + 1)
  let good := candidates.find? fun (d, p) =>
    let (a, b) := ratio d 10 p
    roundBinary a b = some (m, e)
  good.getD (m, 0)

/-- The decimal of the double that a literal is read into; nothing when out of range. -/
def Decimal.toFloat64 (d : Decimal) : Option Decimal :=
  let m := digitsVal d.digits
  if m = 0 then some ⟨d.neg, [], 0⟩
  else
    let (num, den) := ratio m 10 (d.point - d.digits.length)
    match roundBinary num den with
    | none => none
    | some (0, _) => some ⟨d.neg, [], 0⟩
    | some (q, e) =>
      let (v, p) := shortestDecimal q e
      let ds := natDigits v
      some (Decimal.stripped ⟨d.neg, ds, ds.length + p⟩)

def sign (neg : Bool) : List Char := if neg then ['-'] else []

/-- Positional notation. -/
def Decimal.formatF (d : Decimal) : List Char :=
  let n := d.digits.length
  sign d.neg ++
    if d.digits.isEmpty then ['0']
    else if d.point ≤ 0 then ['0', '.'] ++ List.replicate (-d.point).toNat '0' ++ d.digits
    else if (n : Int) ≤ d.point then d.digits ++ List.replicate (d.point.toNat - n) '0'
    else d.digits.take d.point.toNat ++ ['.'] ++ d.digits.drop d.point.toNat

/-- Exponent notation; `pad` keeps two exponent digits. -/
def Decimal.formatE (pad : Bool) (d : Decimal) : List Char :=
  let x := d.point - 1
  let xs := natDigits x.natAbs
  let mant :=
    match d.digits with
    | [] => ['0']
    | [c] => [c]
    | c :: cs => c :: '.' :: cs
  sign d.neg ++ mant ++ ['e', if x < 0 then '-' else '+'] ++
    (if pad && xs.length < 2 then ['0'] else []) ++ xs

/-- The literal that a double is encoded as. -/
def Decimal.jsonText (d : Decimal) : List Char :=
  if d.digits.isEmpty || (-6 ≤ d.point - 1 && d.point - 1 < 21) then d.formatF
  else d.formatE false

/-- The `%v` text of a double. -/
def Decimal.formatG (d : Decimal) : List Char :=
  if d.digits.isEmpty || (-4 ≤ d.point - 1 && d.point - 1 < 6) then d.formatF
  else d.formatE true

def numLit? (s : List Char) : Option NumLit :=
  if h : isNumLit s = true then some ⟨s, h⟩ else none

/-- A literal as a decoded double, written back as its own literal. -/
def NumLit.float64 (n : NumLit) : Option NumLit :=
  n.decimal.toFloat64.bind fun d => numLit? d.jsonText

def NumLit.formatG (n : NumLit) : List Char := n.decimal.formatG

end Janus
