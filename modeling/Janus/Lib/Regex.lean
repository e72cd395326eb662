import Janus.Lib.Text

/-!
# Backtracking regular expressions

Leftmost-first matching with greedy repetition: `run` lists the ways to match in
the order in which a backtracking matcher tries them, and the first of them is the
match. `findAll` gives the successive non-overlapping matches of a text.
-/

namespace Janus

set_option autoImplicit false

inductive Regex where
  | empty
  | set (fold : Bool) (ranges : List (Char × Char))
  | wordBoundary
  | seq (r s : Regex)
  | alt (r s : Regex)
  | rep (least : Nat) (extra : Option Nat) (r : Regex)
  | group (i : Nat) (r : Regex)
  deriving Repr, DecidableEq

namespace Regex

/-- A position in the text: the characters before it are counted, the last of them is kept. -/
structure Pos where
  offset : Nat
  prev : Option Char
  rest : Str
  groups : List (Nat × Str)
  deriving Repr, DecidableEq

/-- The letters that fold to the same letter of ASCII. -/
def orbit (c : Char) : List Char :=
  let l := Text.foldChar c
  if 'a' ≤ l && l ≤ 'z' then
    [l, Char.ofNat (l.toNat - 32)] ++
      (if l = 'k' then [Char.ofNat 0x212A] else if l = 's' then [Char.ofNat 0x17F] else [])
  else [c]

def inRanges (ranges : List (Char × Char)) (c : Char) : Bool :=
  ranges.any fun (lo, hi) => lo ≤ c && c ≤ hi

def accepts (fold : Bool) (ranges : List (Char × Char)) (c : Char) : Bool :=
  if fold then (orbit c).any (inRanges ranges) else inRanges ranges c

def isWord (c : Char) : Bool :=
  ('0' ≤ c && c ≤ '9') || ('A' ≤ c && c ≤ 'Z') || ('a' ≤ c && c ≤ 'z') || c = '_'

def atWordBoundary (p : Pos) : Bool := p.prev.any isWord != p.rest.head?.any isWord

def exactly (step : Pos → List Pos) : Nat → Pos → List Pos
  | 0, p => [p]
  | n + 1, p => (step p).flatMap (exactly step n)

/-- Up to `n` repetitions, more of them first; an empty repetition ends the loop. -/
def upTo (step : Pos → List Pos) : Nat → Pos → List Pos
  | 0, p => [p]
  | n + 1, p => ((step p).flatMap fun q => if q.offset = p.offset then [] else upTo step n q) ++ [p]

def run : Regex → Pos → List Pos
  | .empty, p => [p]
  | .set fold ranges, p =>
    match p.rest with
    | [] => []
    | c :: cs =>
      if accepts fold ranges c then [{ p with offset := p.offset + 1, prev := some c, rest := cs }]
      else []
  | .wordBoundary, p => if atWordBoundary p then [p] else []
  | .seq r s, p => (r.run p).flatMap s.run
  | .alt r s, p => r.run p ++ s.run p
  | .rep least extra r, p =>
    (exactly r.run least p).flatMap fun q => upTo r.run (extra.getD q.rest.length) q
  | .group i r, p =>
    (r.run p).map fun q => { q with groups := (i, p.rest.take (q.offset - p.offset)) :: q.groups }

structure Match where
  start : Nat
  stop : Nat
  groups : List (Nat × Str)
  deriving Repr, DecidableEq

/-- The leftmost match at or after a position, and the position behind it. -/
def findFrom (r : Regex) : Nat → Pos → Option (Match × Pos)
  | fuel, p =>
    match r.run { p with groups := [] } with
    | q :: _ => some (⟨p.offset, q.offset, q.groups⟩, q)
    | [] =>
      match fuel, p.rest with
      | fuel + 1, c :: cs => findFrom r fuel ⟨p.offset + 1, some c, cs, []⟩
      | _, _ => none

/-- The successive matches. An empty match right after the previous match is dropped. -/
def findAllFrom (r : Regex) : Nat → Option Nat → Pos → List Match
  | 0, _, _ => []
  | n + 1, prevEnd, p =>
    match findFrom r p.rest.length p with
    | none => []
    | some (m, q) =>
      let keep := !(m.stop = p.offset && some m.start = prevEnd)
      let more :=
        if m.stop = p.offset then
          match p.rest with
          | [] => []
          | c :: cs => findAllFrom r n (some m.stop) ⟨p.offset + 1, some c, cs, []⟩
        else findAllFrom r n (some m.stop) { q with groups := [] }
      if keep then m :: more else more

def findAll (r : Regex) (text : Str) : List Match :=
  findAllFrom r (text.length + 1) none ⟨0, none, text, []⟩

def chars (fold : Bool) (s : String) : Regex :=
  s.toList.foldr (fun c r => .seq (.set fold [(c, c)]) r) .empty

def digit : Regex := .set false [('0', '9')]

def space : Regex := .set false [('\t', '\n'), (Char.ofNat 12, '\r'), (' ', ' ')]

def optional (r : Regex) : Regex := .rep 0 (some 1) r

def seqAll : List Regex → Regex
  | [] => .empty
  | r :: rs => .seq r (seqAll rs)

def altAll : List Regex → Regex
  | [] => .empty
  | [r] => r
  | r :: s :: rs => .alt r (altAll (s :: rs))

end Regex
end Janus
