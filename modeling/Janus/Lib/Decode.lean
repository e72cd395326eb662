import Janus.Lib.Json

/-!
# Decoding JSON trees into typed values

The rules by which a JSON tree is read onto an existing value: `null` leaves a
scalar or a record as it is and empties a list or a map, a member of an object
reaches the field whose name it equals up to letter case, members of one name are
read one after the other onto the same field, and the elements of an array are
read onto the elements already there. A mismatch of types is `none`.
-/

namespace Janus.Decode

set_option autoImplicit false

variable {α : Type}

def str (old : Str) : Json → Option Str
  | .str s => some s
  | .null => some old
  | _ => none

def bool (old : Bool) : Json → Option Bool
  | .bool b => some b
  | .null => some old
  | _ => none

def items (zero : α) (dec : α → Json → Option α) : List α → List Json → Option (List α)
  | _, [] => some []
  | [], x :: xs => (dec zero x).bind fun y => (items zero dec [] xs).map fun ys => y :: ys
  | o :: os, x :: xs => (dec o x).bind fun y => (items zero dec os xs).map fun ys => y :: ys

def list (zero : α) (dec : α → Json → Option α) (old : List α) : Json → Option (List α)
  | .arr xs => items zero dec old xs
  | .null => some []
  | _ => none

/-- Every entry of a map is decoded onto the zero value, also one that replaces another. -/
def map (dec : Json → Option α) (old : List (Str × α)) : Json → Option (List (Str × α))
  | .obj ms => ms.foldlM (fun acc m => (dec m.2).map fun v => setMember m.1 v acc) old
  | .null => some []
  | _ => none

/-- A record: `assign` reads one member, and leaves the record alone when no field has its name. -/
def record (assign : α → Str → Json → Option α) (old : α) : Json → Option α
  | .obj ms => ms.foldlM (fun a m => assign a m.1 m.2) old
  | .null => some old
  | _ => none

def pointer (zero : α) (dec : α → Json → Option α) (old : Option α) : Json → Option (Option α)
  | .null => some none
  | v => (dec (old.getD zero) v).map some

def anyMap (old : List (Str × Json)) (v : Json) : Option (List (Str × Json)) :=
  map Json.toAny old v

end Janus.Decode
