import Janus.Lib.Text

/-!
# Event streams

The text format of server-sent events: a stream is read line by line, and an empty line
ends an event. Frames are read back in the order they stand in, and a frame that has
not arrived whole is not read at all (`parse_frames`).
-/

namespace Janus.EventStream

set_option autoImplicit false

structure Message where
  event : Str
  data : Str
  deriving Repr, DecidableEq

/-- The complete lines of a stream, from behind the line read so far. A line ends in a line
feed, a carriage return or both. -/
def linesFrom : Str → Str → List Str
  | _, [] => []
  | cur, '\r' :: '\n' :: s => cur :: linesFrom [] s
  | cur, '\r' :: s => cur :: linesFrom [] s
  | cur, '\n' :: s => cur :: linesFrom [] s
  | cur, c :: s => linesFrom (cur ++ [c]) s

/-- The event type and the data of the event that is being read. -/
structure Buffers where
  event : Str
  data : Str
  deriving Repr, DecidableEq

def Buffers.empty : Buffers := ⟨[], []⟩

/-- One field. Those for the last id and the reconnection time are not kept. -/
def Buffers.field (b : Buffers) (name value : Str) : Buffers :=
  if name = "event".toList then { b with event := value }
  else if name = "data".toList then { b with data := b.data ++ value ++ ['\n'] }
  else b

/-- An event without data is dropped. -/
def Buffers.dispatch (b : Buffers) : List Message :=
  if b.data = [] then []
  else [⟨if b.event = [] then "message".toList else b.event, Text.trimSuffix b.data ['\n']⟩]

def Buffers.line (b : Buffers) (l : Str) : Buffers × List Message :=
  if l = [] then (.empty, b.dispatch)
  else
    match Text.cut ':' l with
    | none => (b.field l [], [])
    | some (name, value) => if name = [] then (b, []) else (b.field name (Text.trimPrefix value [' ']), [])

def readLines : Buffers → List Str → List Message
  | _, [] => []
  | b, l :: ls => (b.line l).2 ++ readLines (b.line l).1 ls

def parse (stream : Str) : List Message := readLines .empty (linesFrom [] stream)

/-- A text without an end of line. -/
def OneLine (s : Str) : Prop := '\n' ∉ s ∧ '\r' ∉ s

instance (s : Str) : Decidable (OneLine s) := inferInstanceAs (Decidable ('\n' ∉ s ∧ '\r' ∉ s))

theorem oneLine_cons {c : Char} {s : Str} : OneLine (c :: s) ↔ c ≠ '\n' ∧ c ≠ '\r' ∧ OneLine s := by
  simp only [OneLine, List.mem_cons, not_or]
  constructor
  · rintro ⟨⟨hn, hs⟩, hr, hs'⟩
    exact ⟨Ne.symm hn, Ne.symm hr, hs, hs'⟩
  · rintro ⟨hn, hr, hs, hs'⟩
    exact ⟨⟨Ne.symm hn, hs⟩, Ne.symm hr, hs'⟩

theorem oneLine_append {s t : Str} : OneLine (s ++ t) ↔ OneLine s ∧ OneLine t := by
  simp only [OneLine, List.mem_append, not_or]
  constructor
  · rintro ⟨⟨h1, h2⟩, h3, h4⟩
    exact ⟨⟨h1, h3⟩, h2, h4⟩
  · rintro ⟨⟨h1, h3⟩, h2, h4⟩
    exact ⟨⟨h1, h2⟩, h3, h4⟩

theorem linesFrom_cons {c : Char} (hn : c ≠ '\n') (hr : c ≠ '\r') (cur s : Str) :
    linesFrom cur (c :: s) = linesFrom (cur ++ [c]) s := by
  rw [linesFrom]
  · intro _ he
    exact absurd he hr
  · intro he
    exact hr he
  · intro he
    exact hn he

theorem linesFrom_line {l : Str} (hl : OneLine l) (cur s : Str) :
    linesFrom cur (l ++ '\n' :: s) = (cur ++ l) :: linesFrom [] s := by
  induction l generalizing cur with
  | nil =>
    rw [List.append_nil]
    rfl
  | cons c l ih =>
    obtain ⟨hn, hr, hl⟩ := oneLine_cons.mp hl
    rw [List.cons_append, linesFrom_cons hn hr, ih hl, List.append_assoc]
    rfl

theorem linesFrom_unended {l : Str} (hl : OneLine l) (cur : Str) : linesFrom cur l = [] := by
  induction l generalizing cur with
  | nil => rfl
  | cons c l ih =>
    obtain ⟨hn, hr, hl⟩ := oneLine_cons.mp hl
    rw [linesFrom_cons hn hr, ih hl]

/-- The lines of an event, before the empty one that ends it. -/
structure Frame where
  lines : List Str
  proper : ∀ l ∈ lines, l ≠ [] ∧ OneLine l

def linesText (ls : List Str) : Str := ls.flatMap fun l => l ++ ['\n']

def Frame.text (f : Frame) : Str := linesText f.lines ++ ['\n']

def afterLines (b : Buffers) (ls : List Str) : Buffers := ls.foldl (fun b l => (b.line l).1) b

/-- What is read of the frame. -/
def Frame.messages (f : Frame) : List Message := (afterLines .empty f.lines).dispatch

theorem readLines_append (b : Buffers) (ls ms : List Str) :
    readLines b (ls ++ ms) = readLines b ls ++ readLines (afterLines b ls) ms := by
  induction ls generalizing b with
  | nil => rfl
  | cons l ls ih => simp only [List.cons_append, readLines, ih, List.append_assoc, afterLines, List.foldl_cons]

/-- Lines that are not empty end no event. -/
theorem readLines_proper {ls : List Str} (h : ∀ l ∈ ls, l ≠ []) (b : Buffers) : readLines b ls = [] := by
  induction ls generalizing b with
  | nil => rfl
  | cons l ls ih =>
    obtain ⟨hl, hls⟩ := List.forall_mem_cons.mp h
    have hnone : (b.line l).2 = [] := by
      unfold Buffers.line
      rw [if_neg hl]
      cases Text.cut ':' l with
      | none => rfl
      | some p => dsimp only; split <;> rfl
    rw [readLines, hnone, ih hls]
    rfl

theorem linesFrom_linesText {ls : List Str} (h : ∀ l ∈ ls, OneLine l) (s : Str) :
    linesFrom [] (linesText ls ++ s) = ls ++ linesFrom [] s := by
  induction ls with
  | nil => rfl
  | cons l ls ih =>
    obtain ⟨hl, hls⟩ := List.forall_mem_cons.mp h
    rw [linesText, List.flatMap_cons, List.append_assoc, List.append_assoc, List.singleton_append,
      linesFrom_line hl]
    exact congrArg (List.cons l) (ih hls)

theorem readLines_frame (f : Frame) (s : Str) :
    readLines .empty (linesFrom [] (f.text ++ s)) = f.messages ++ readLines .empty (linesFrom [] s) := by
  have hblank : linesFrom [] ('\n' :: s) = [] :: linesFrom [] s := linesFrom_line (l := []) ⟨List.not_mem_nil, List.not_mem_nil⟩ [] s
  rw [Frame.text, List.append_assoc, List.singleton_append,
    linesFrom_linesText fun l hl => (f.proper l hl).2, hblank, readLines_append,
    readLines_proper fun l hl => (f.proper l hl).1, List.nil_append]
  rfl

/-- What has arrived of a frame before its end consists of lines that are not empty. -/
theorem linesFrom_part {ls : List Str} (h : ∀ l ∈ ls, OneLine l) {part rest : Str} (hne : rest ≠ [])
    (hpart : part ++ rest = linesText ls ++ ['\n']) : linesFrom [] part <+: ls := by
  induction ls generalizing part with
  | nil =>
    obtain rfl : part = [] := by
      have hlen := congrArg List.length hpart
      have hpos := List.length_pos_iff.mpr hne
      rw [List.length_append] at hlen
      simp only [linesText, List.flatMap_nil, List.nil_append, List.length_singleton] at hlen
      exact List.length_eq_zero_iff.mp (by omega)
    exact List.prefix_refl _
  | cons l ls ih =>
    obtain ⟨hl, hls⟩ := List.forall_mem_cons.mp h
    have htext : part ++ rest = l ++ '\n' :: (linesText ls ++ ['\n']) := by
      rw [hpart]
      simp [linesText]
    rcases List.append_eq_append_iff.mp htext with ⟨t, ht, _⟩ | ⟨t, ht, htail⟩
    · have hpart : OneLine part := (oneLine_append.mp (ht ▸ hl)).1
      rw [linesFrom_unended hpart]
      exact List.nil_prefix
    · cases t with
      | nil =>
        rw [List.append_nil] at ht
        rw [ht, linesFrom_unended hl]
        exact List.nil_prefix
      | cons c t =>
        obtain ⟨rfl, hrest⟩ := List.cons.inj htail
        rw [ht, linesFrom_line hl]
        exact List.cons_prefix_cons.mpr ⟨rfl, ih hls hrest.symm⟩

/-- Frames are read back in order, and what has arrived of one more is not read. -/
theorem parse_frames (fs : List Frame) (f : Frame) {part rest : Str} (hne : rest ≠ [])
    (hpart : part ++ rest = f.text) :
    parse (fs.flatMap Frame.text ++ part) = fs.flatMap Frame.messages := by
  unfold parse
  induction fs with
  | nil =>
    have hpre := linesFrom_part (fun l hl => (f.proper l hl).2) hne hpart
    rw [List.flatMap_nil, List.nil_append,
      readLines_proper fun l hl => (f.proper l (hpre.subset hl)).1]
    rfl
  | cons g fs ih =>
    rw [List.flatMap_cons, List.append_assoc, readLines_frame, ih, List.flatMap_cons]

end Janus.EventStream
