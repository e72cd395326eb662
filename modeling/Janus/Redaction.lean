import Janus.Lib.Json
import Janus.Lib.Regex

/-!
# Redaction

Embedding of `pkg/redaction`: an ordered list of rules, each a pattern with an
optional check of the match and an optional replacement template, is applied to a
text or to every string of a decoded value.
-/

namespace Janus.Redaction

set_option autoImplicit false

open Regex

inductive TplPart where
  | text (s : Str)
  | group (i : Nat)
  deriving Repr, DecidableEq

structure CompiledRule where
  «class» : Str
  re : Regex
  validate : Option (Str → Bool)
  replaceTpl : List TplPart

structure Redactor where
  enabled : Bool
  rules : List CompiledRule

structure Finding where
  «class» : Str
  count : Nat
  deriving Repr, DecidableEq

def wordDash : Regex := .set false [('A', 'Z'), ('a', 'z'), ('0', '9'), ('_', '_'), ('-', '-')]

def emailRe : Regex :=
  seqAll [.wordBoundary,
    .rep 1 none (.set false [('A', 'Z'), ('a', 'z'), ('0', '9'), ('.', '.'), ('_', '_'), ('%', '%'),
      ('+', '+'), ('-', '-')]),
    chars false "@", .rep 1 none (.set false [('A', 'Z'), ('a', 'z'), ('0', '9'), ('.', '.'), ('-', '-')]),
    chars false ".", .rep 2 none (.set false [('A', 'Z'), ('a', 'z')]), .wordBoundary]

def jwtRe : Regex :=
  seqAll [.wordBoundary, chars false "eyJ", .rep 5 none wordDash, chars false ".",
    .rep 5 none wordDash, chars false ".", .rep 5 none wordDash, .wordBoundary]

def awsKeyRe : Regex :=
  seqAll [.wordBoundary, chars false "AKIA", .rep 16 (some 0) (.set false [('0', '9'), ('A', 'Z')]),
    .wordBoundary]

def creditCardRe : Regex :=
  seqAll [.wordBoundary, digit,
    .rep 12 (some 6) (.seq (optional (.set false [(' ', ' '), ('-', '-')])) digit), .wordBoundary]

def ibanRe : Regex :=
  seqAll [.wordBoundary, .rep 2 (some 0) (.set false [('A', 'Z')]), .rep 2 (some 0) digit,
    .rep 11 (some 19) (.set false [('A', 'Z'), ('0', '9')]), .wordBoundary]

def joiner : Regex := optional (.set true [('_', '_'), ('-', '-')])

def secretAssignRe : Regex :=
  seqAll [.wordBoundary,
    .group 1 (altAll [seqAll [chars true "api", joiner, chars true "key"],
      seqAll [chars true "access", joiner, chars true "key"], chars true "token",
      chars true "secret", chars true "password", chars true "passwd"]),
    .rep 0 none space, .set false [(':', ':'), ('=', '=')], .rep 0 none space,
    optional (chars false "\""),
    .group 2 (.rep 32 none (.set true [('A', 'Z'), ('a', 'z'), ('0', '9'), ('_', '_'), ('-', '-'),
      ('/', '/'), ('+', '+'), ('=', '=')])),
    optional (chars false "\"")]

def bearerRe : Regex :=
  seqAll [.group 1 (seqAll [.wordBoundary, chars true "Bearer", .rep 1 none space]),
    .group 2 (.rep 20 none (.set true [('A', 'Z'), ('a', 'z'), ('0', '9'), ('-', '-'), ('_', '_'),
      ('.', '.'), ('=', '=')]))]

def openAIKeyRe : Regex :=
  seqAll [.wordBoundary, chars false "sk-",
    .rep 20 none (.set false [('A', 'Z'), ('a', 'z'), ('0', '9')]), .wordBoundary]

/-- The Luhn sum over the digits from the right; the flag says that the next one is doubled. -/
def luhnSum : Bool → List Nat → Nat
  | _, [] => 0
  | double, d :: ds =>
    let e := if double then (if 2 * d > 9 then 2 * d - 9 else 2 * d) else d
    e + luhnSum (!double) ds

def luhnValid (digits : Str) : Bool :=
  luhnSum false (digits.reverse.map fun c => c.toNat - '0'.toNat) % 10 = 0

def isValidCreditCard (m : Str) : Bool :=
  let digits := m.filter fun c => c ≠ ' ' && c ≠ '-'
  !(digits.length < 13 || digits.length > 19) && digits.all (fun c => '0' ≤ c && c ≤ '9') &&
    luhnValid digits

def builtinRules : List CompiledRule :=
  [⟨"email".toList, emailRe, none, []⟩, ⟨"jwt".toList, jwtRe, none, []⟩,
    ⟨"aws_access_key".toList, awsKeyRe, none, []⟩,
    ⟨"credit_card".toList, creditCardRe, some isValidCreditCard, []⟩,
    ⟨"iban".toList, ibanRe, none, []⟩,
    ⟨"secret".toList, secretAssignRe, none, [.group 1, .text "=[REDACTED:secret]".toList]⟩,
    ⟨"secret".toList, bearerRe, none, [.group 1, .text "[REDACTED:secret]".toList]⟩,
    ⟨"secret".toList, openAIKeyRe, none, []⟩]

/-- The redactor of the built-in rules and custom ones, whose patterns have been compiled. -/
def new (enabled : Bool) (customRules : List (Str × Regex)) : Redactor :=
  ⟨enabled, builtinRules ++ customRules.map fun (c, re) => ⟨c, re, none, []⟩⟩

def groupText (groups : List (Nat × Str)) (i : Nat) : Str :=
  ((groups.find? fun g => g.1 = i).map Prod.snd).getD []

def expand (tpl : List TplPart) (m : Match) : Str :=
  tpl.flatMap fun
    | .text s => s
    | .group i => groupText m.groups i

/-- The text written for a match. -/
def replacement (rule : CompiledRule) (m : Match) : Str :=
  if rule.replaceTpl ≠ [] then expand rule.replaceTpl m
  else "[REDACTED:".toList ++ rule.class ++ [']']

def slice (text : Str) (start stop : Nat) : Str := (text.drop start).take (stop - start)

/-- The loop over the matches: what is written so far ends before offset `last`. -/
def spliceFrom (text : Str) (rule : CompiledRule) : Nat → List Match → Str × Nat
  | last, [] => (text.drop last, 0)
  | last, m :: ms =>
    if m.start < last then spliceFrom text rule last ms
    else if rule.validate.any fun ok => !ok (slice text m.start m.stop) then
      spliceFrom text rule last ms
    else
      let (out, n) := spliceFrom text rule m.stop ms
      (slice text last m.start ++ replacement rule m ++ out, n + 1)

def applyRule (text : Str) (rule : CompiledRule) : Str × Nat :=
  let (out, n) := spliceFrom text rule 0 (rule.re.findAll text)
  if n = 0 then (text, 0) else (out, n)

def addCount (cls : Str) (n : Nat) (counts : List (Str × Nat)) : List (Str × Nat) :=
  setMember cls ((lookup cls counts).getD 0 + n) counts

def findingsFromCounts (counts : List (Str × Nat)) : List Finding :=
  (sortMembers counts).map fun (c, n) => ⟨c, n⟩

def applyRules (rules : List CompiledRule) (text : Str) : Str × List (Str × Nat) :=
  rules.foldl (fun (text, counts) rule =>
    let (out, n) := applyRule text rule
    (out, if n > 0 then addCount rule.class n counts else counts)) (text, [])

/-- One rule of `applyRules`, with the text and the counts of the rules before it. -/
def runRule (acc : Str × List (Str × Nat)) (rule : CompiledRule) : Str × List (Str × Nat) :=
  ((applyRule acc.1 rule).1,
    if (applyRule acc.1 rule).2 > 0 then addCount rule.class (applyRule acc.1 rule).2 acc.2 else acc.2)

theorem applyRules_eq_foldl (rules : List CompiledRule) (text : Str) :
    applyRules rules text = rules.foldl runRule (text, []) := rfl

def Redactor.redactBytes (r : Redactor) (b : Str) : Str × List Finding :=
  if !r.enabled then (b, [])
  else
    let (out, counts) := applyRules r.rules b
    (out, findingsFromCounts counts)

def tally (counts : List (Str × Nat)) (findings : List Finding) : List (Str × Nat) :=
  findings.foldl (fun counts f => addCount f.class f.count counts) counts

mutual
def Redactor.redactValue (r : Redactor) : Json → List (Str × Nat) → Json × List (Str × Nat)
  | .str s, counts =>
    let (out, findings) := r.redactBytes s
    (.str out, tally counts findings)
  | .obj ms, counts =>
    let (out, counts) := r.redactMembers ms counts
    (.obj out, counts)
  | .arr xs, counts =>
    let (out, counts) := r.redactItems xs counts
    (.arr out, counts)
  | .null, counts => (.null, counts)
  | .bool b, counts => (.bool b, counts)
  | .num n, counts => (.num n, counts)
def Redactor.redactItems (r : Redactor) :
    List Json → List (Str × Nat) → List Json × List (Str × Nat)
  | [], counts => ([], counts)
  | x :: xs, counts =>
    let (y, counts) := r.redactValue x counts
    let (ys, counts) := r.redactItems xs counts
    (y :: ys, counts)
def Redactor.redactMembers (r : Redactor) :
    List (Str × Json) → List (Str × Nat) → List (Str × Json) × List (Str × Nat)
  | [], counts => ([], counts)
  | (k, x) :: ms, counts =>
    let (y, counts) := r.redactValue x counts
    let (ys, counts) := r.redactMembers ms counts
    ((k, y) :: ys, counts)
end

def Redactor.redactMap (r : Redactor) (m : List (Str × Json)) :
    List (Str × Json) × List Finding :=
  let (out, counts) := r.redactMembers m []
  (out, findingsFromCounts counts)

end Janus.Redaction
