import Janus.Lib.Text

/-!
# Command-line flags

Flags are read from the front of the arguments, with one dash or two and a value after
`=` or, for a flag that is not Boolean, in the next argument. Reading stops at the first
argument that is not a flag, or behind `--`; everything from there on is an operand.
-/

namespace Janus.Flags

set_option autoImplicit false

universe u
variable {σ : Type u}

/-- What a flag does to the settings. -/
inductive Flag (σ : Type u) where
  | bool (set : Bool → σ → σ)
  | string (set : Str → σ → σ)

inductive FlagError where
  | badSyntax (arg : Str)
  | undefined (name : Str)
  | help
  | invalidBool (name value : Str)
  | needsArgument (name : Str)
  deriving Repr, DecidableEq

inductive Arg where
  | operand
  | terminator
  | bad
  | flag (name : Str) (value : Option Str)
  deriving Repr, DecidableEq

/-- A flag without its dashes. -/
def readFlag (name : Str) : Arg :=
  if name.head? = none || name.head? = some '-' || name.head? = some '=' then .bad
  else
    match Text.cut '=' name with
    | some (name, value) => .flag name (some value)
    | none => .flag name none

def readArg : Str → Arg
  | ['-', '-'] => .terminator
  | '-' :: '-' :: name => readFlag name
  | '-' :: c :: name => readFlag (c :: name)
  | _ => .operand

def parseBool (s : Str) : Option Bool :=
  if s ∈ ["1", "t", "T", "TRUE", "true", "True"].map String.toList then some true
  else if s ∈ ["0", "f", "F", "FALSE", "false", "False"].map String.toList then some false
  else none

/-- The operands and the settings. -/
def parse (formal : Str → Option (Flag σ)) : List Str → σ → Except FlagError (List Str × σ)
  | [], s => .ok ([], s)
  | arg :: args, s =>
    match readArg arg with
    | .operand => .ok (arg :: args, s)
    | .terminator => .ok (args, s)
    | .bad => .error (.badSyntax arg)
    | .flag name value =>
      match formal name with
      | none => .error (if name = "help".toList || name = ['h'] then .help else .undefined name)
      | some (.bool set) =>
        match value with
        | none => parse formal args (set true s)
        | some v =>
          match parseBool v with
          | none => .error (.invalidBool name v)
          | some b => parse formal args (set b s)
      | some (.string set) =>
        match value, args with
        | some v, args => parse formal args (set v s)
        | none, [] => .error (.needsArgument name)
        | none, v :: args => parse formal args (set v s)

theorem parse_operand (formal : Str → Option (Flag σ)) {arg : Str} (h : readArg arg = .operand)
    (args : List Str) (s : σ) : parse formal (arg :: args) s = .ok (arg :: args, s) := by
  rw [parse, h]

theorem parse_bool {formal : Str → Option (Flag σ)} {arg name : Str} {set : Bool → σ → σ}
    (h : readArg arg = .flag name none) (hf : formal name = some (.bool set)) (args : List Str) (s : σ) :
    parse formal (arg :: args) s = parse formal args (set true s) := by
  rw [parse, h]
  simp only [hf]

/-- The value of the flag is the next argument, whatever it looks like. -/
theorem parse_string {formal : Str → Option (Flag σ)} {arg name : Str} {set : Str → σ → σ}
    (h : readArg arg = .flag name none) (hf : formal name = some (.string set)) (v : Str)
    (args : List Str) (s : σ) :
    parse formal (arg :: v :: args) s = parse formal args (set v s) := by
  rw [parse, h]
  simp only [hf]

end Janus.Flags
