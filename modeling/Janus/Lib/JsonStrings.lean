import Janus.Lib.Decode
import Janus.Lib.GoString
import Janus.Lib.JsonCompact

/-!
# Maps of strings as JSON

A map of strings is written with its keys in order and every byte that is part of no
encoding replaced by U+FFFD. Read back, the text gives the map with those replacements
made, which is the map itself exactly when its strings are valid.
-/

namespace Janus.JsonStrings

set_option autoImplicit false

open JsonText

/-- The characters of a string, of which `b` are the bytes, as the encoder writes them: a
U+FFFD that does not stand in the bytes is written as an escape. -/
def escapeRunes : Str → List Nat → Str
  | [], _ => []
  | c :: cs, b =>
    if c = '\uFFFD' ∧ ¬ Text.utf8 c <+: b then '\\' :: 'u' :: hex4 0xFFFD ++ escapeRunes cs (b.drop 1)
    else escapeChar c ++ escapeRunes cs (b.drop (Text.utf8 c).length)

def quoteString (b : GoString) : Str := '"' :: (escapeRunes b.text (b.map Fin.val) ++ ['"'])

def memberText (e : GoString × GoString) : Str := quoteString e.1 ++ ':' :: ' ' :: quoteString e.2

/-- `json.MarshalIndent` of a map with two spaces for each level; `none` is the nil map. -/
def marshalIndent : Option StringMap → Str
  | none => "null".toList
  | some m =>
    match m.entries with
    | [] => "{}".toList
    | es => '{' :: '\n' :: ' ' :: ' ' :: (Text.join [',', '\n', ' ', ' '] (es.map memberText) ++ ['\n', '}'])

/-- `json.Unmarshal` of a tree into an empty map. -/
def decodeMap : Json → Option (Option StringMap)
  | .null => some none
  | .obj ms =>
    (ms.foldlM (fun (acc : StringMap) m => (Decode.str [] m.2).map fun s =>
      acc.insert (.ofText m.1) (.ofText s)) ∅).map some
  | _ => none

def unmarshal (data : GoString) : Option (Option StringMap) := (parse data.text).bind decodeMap

theorem litText_replacement : LitText ('\\' :: 'u' :: hex4 0xFFFD) '\uFFFD' := by
  have h : ('\uFFFD').toNat < 65536 := by decide
  exact litText_unicode h

def runeParts : Str → List Nat → List (StrPart Empty)
  | [], _ => []
  | c :: cs, b =>
    if c = '\uFFFD' ∧ ¬ Text.utf8 c <+: b then
      .lit ⟨'\\' :: 'u' :: hex4 0xFFFD, '\uFFFD', litText_replacement⟩ :: runeParts cs (b.drop 1)
    else .lit ⟨escapeChar c, c, litText_escapeChar c⟩ :: runeParts cs (b.drop (Text.utf8 c).length)

theorem printParts_runeParts (cs : Str) (b : List Nat) :
    printParts Empty.elim (runeParts cs b) = escapeRunes cs b := by
  induction cs generalizing b with
  | nil => rfl
  | cons c cs ih =>
    unfold runeParts escapeRunes
    split
    · rw [← ih]
      rfl
    · rw [← ih]
      rfl

theorem plainChars_runeParts (cs : Str) (b : List Nat) : plainChars (runeParts cs b) = cs := by
  induction cs generalizing b with
  | nil => rfl
  | cons c cs ih =>
    unfold runeParts
    split
    · rename_i h
      exact congrArg₂ List.cons h.1.symm (ih _)
    · exact congrArg (List.cons c) (ih _)

def stringParts (b : GoString) : List (StrPart Empty) := runeParts b.text (b.map Fin.val)

def lineBreak : Space := ⟨['\n', ' ', ' '], rfl⟩

def indented (e : GoString × GoString) : List (GoString × GoString) → Members Empty
  | [] => .one lineBreak (stringParts e.1) noSpace ⟨[' '], rfl⟩ (.str (stringParts e.2)) ⟨['\n'], rfl⟩
  | e' :: es =>
    .more lineBreak (stringParts e.1) noSpace ⟨[' '], rfl⟩ (.str (stringParts e.2)) noSpace (indented e' es)

theorem print_indented (e : GoString × GoString) (es : List (GoString × GoString)) :
    (indented e es).print Empty.elim = '\n' :: ' ' :: ' ' ::
      (Text.join [',', '\n', ' ', ' '] ((e :: es).map memberText) ++ ['\n', '}']) := by
  induction es generalizing e with
  | nil =>
    simp [indented, Members.print, Cst.print, stringParts, printParts_runeParts, Text.join, memberText,
      quoteString, lineBreak, noSpace]
  | cons e' es ih =>
    simp [indented, Members.print, Cst.print, stringParts, printParts_runeParts, Text.join, memberText,
      quoteString, lineBreak, noSpace, ih]

theorem values_indented (e : GoString × GoString) (es : List (GoString × GoString)) :
    (indented e es).values = (e :: es).map fun e => (e.1.text, .str e.2.text) := by
  induction es generalizing e with
  | nil => simp [indented, Members.values, Cst.value, stringParts, plainChars_runeParts]
  | cons e' es ih => simp [indented, Members.values, Cst.value, stringParts, plainChars_runeParts, ih]

def tree : Option StringMap → Cst Empty
  | none => .null
  | some m =>
    match m.entries with
    | [] => .objEmpty noSpace
    | e :: es => .obj (indented e es)

theorem print_tree (m : Option StringMap) : (tree m).print Empty.elim = marshalIndent m := by
  cases m with
  | none => rfl
  | some m =>
    unfold tree marshalIndent
    dsimp only
    cases m.entries with
    | nil => rfl
    | cons e es => rw [Cst.print, print_indented]

/-- The string with every byte that is part of no encoding replaced. -/
def mended (b : GoString) : GoString := .ofText b.text

def reread (m : StringMap) : StringMap := .ofEntries (m.entries.map fun e => (mended e.1, mended e.2))

theorem foldlM_strings (es : List (GoString × GoString)) (acc : StringMap) :
    (es.map fun e => (e.1.text, Json.str e.2.text)).foldlM (fun (acc : StringMap) m =>
        (Decode.str [] m.2).map fun s => acc.insert (.ofText m.1) (.ofText s)) acc =
      some ((es.map fun e => (mended e.1, mended e.2)).foldl (fun m e => m.insert e.1 e.2) acc) := by
  induction es generalizing acc with
  | nil => rfl
  | cons e es ih =>
    rw [List.map_cons, List.foldlM_cons]
    exact ih _

theorem decodeMap_tree (m : Option StringMap) : decodeMap (tree m).value = some (m.map reread) := by
  cases m with
  | none => rfl
  | some m =>
    unfold tree
    dsimp only
    cases he : m.entries with
    | nil =>
      rw [StringMap.entries_eq_nil.mp he]
      rfl
    | cons e es =>
      rw [Cst.value, values_indented, decodeMap, foldlM_strings, Option.map_some, Option.map_some, reread, he]
      rfl

/-- A map that is written and read back. -/
theorem unmarshal_marshalIndent (m : Option StringMap) :
    unmarshal (.ofText (marshalIndent m)) = some (m.map reread) := by
  have hp := parse_print noSpace noSpace (tree m)
  rw [print_tree] at hp
  have hparse : parse (marshalIndent m) = some (tree m).value := by simpa [noSpace] using hp
  rw [unmarshal, GoString.text_ofText, hparse]
  exact decodeMap_tree m

theorem reread_of_valid {m : StringMap} (h : m.Valid) : reread m = m := by
  have hmap : m.entries.map (fun e => (mended e.1, mended e.2)) = m.entries := by
    refine (List.map_congr_left ?_).trans (List.map_id _)
    rintro ⟨k, v⟩ he
    obtain ⟨hk, hv⟩ := h k v (StringMap.mem_entries.mp he)
    exact Prod.ext hk hv
  rw [reread, hmap, StringMap.ofEntries_entries]

theorem valid_reread (m : StringMap) : (reread m).Valid := by
  refine fun k v hk => StringMap.forall_ofEntries (P := fun k v => k.Valid ∧ v.Valid) ?_ hk
  intro e he
  obtain ⟨e', _, rfl⟩ := List.mem_map.mp he
  exact ⟨GoString.valid_ofText _, GoString.valid_ofText _⟩

theorem reread_eq_self {m : StringMap} : reread m = m ↔ m.Valid := by
  constructor
  · intro h
    rw [← h]
    exact valid_reread m
  · exact reread_of_valid

end Janus.JsonStrings
