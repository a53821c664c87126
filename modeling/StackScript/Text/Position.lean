import StackScript.Text.Bounds

-- Places in a text: byte ranges, and the lines and columns of byte offsets, found by an index of the lines. Both count
-- from one; a column counts characters.
namespace StackScript

-- Half-open byte ranges of a source text.
structure Span where
  start : Nat
  stop : Nat
deriving DecidableEq, Inhabited

namespace Span

-- The place of a node that was never read from a text.
def unknown : Span := ⟨0, 0⟩

def merge (a b : Span) : Span := ⟨min a.start b.start, max a.stop b.stop⟩

def after (a : Span) : Span := ⟨a.stop, a.stop⟩

end Span

namespace Text

structure Position where
  line : Nat
  column : Nat
  file : Option String
deriving DecidableEq

-- `file:line:column`, or `line:column` without a file.
def Position.text (p : Position) : String :=
  match p.file with
  | some file => s!"{file}:{p.line}:{p.column}"
  | none => s!"{p.line}:{p.column}"

-- What remains after exactly `bytes` bytes, if a character begins or the text ends there.
def dropBytes? : List Char → Nat → Option (List Char)
  | text, 0 => some text
  | [], _ + 1 => none
  | c :: rest, bytes + 1 => if c.utf8Size ≤ bytes + 1 then dropBytes? rest (bytes + 1 - c.utf8Size) else none

-- The first `bytes` bytes, behind what is taken in reverse, if a character begins or the text ends after them.
def takeBytes? : List Char → (bytes : Nat) → (taken : List Char) → Option (List Char)
  | _, 0, taken => some taken.reverse
  | [], _ + 1, _ => none
  | c :: rest, bytes + 1, taken =>
    if c.utf8Size ≤ bytes + 1 then takeBytes? rest (bytes + 1 - c.utf8Size) (c :: taken) else none

-- The text of a range that does not run backwards, if it cuts no character.
def slice? (source : String) (range : Span) : Option (List Char) :=
  (dropBytes? source.toList range.start).bind (takeBytes? · (range.stop - range.start) [])

-- Where the lines of a text begin that stands at an offset, after those before it: one more behind every newline.
def lineStarts : List Char → (offset : Nat) → (starts : Array Nat) → Array Nat
  | [], _, starts => starts
  | c :: rest, offset, starts =>
    let next := offset + c.utf8Size
    lineStarts rest next (if c = '\n' then starts.push next else starts)

theorem lineStarts_grow (text : List Char) (offset : Nat) (starts : Array Nat) :
    starts.size ≤ (lineStarts text offset starts).size := by
  induction text generalizing offset starts with
  | nil => exact Nat.le_refl _
  | cons c rest ih =>
    refine Nat.le_trans ?_ (ih _ _)
    split
    · rw [Array.size_push]
      exact Nat.le_succ _
    · exact Nat.le_refl _

-- A text with the offsets at which its lines begin, in order.
structure LineIndex where
  source : String
  starts : Array Nat
  some_start : 0 < starts.size

namespace LineIndex

def ofSource (source : String) : LineIndex where
  source := source
  starts := lineStarts source.toList 0 #[0]
  some_start := lineStarts_grow source.toList 0 #[0]

variable (index : LineIndex)

-- The line that holds a byte, counted from zero: the last one that begins there or before.
def lineAt (offset : Nat) : Fin index.starts.size where
  val := boundsUpTo index.starts offset (index.starts.size + 1) 0 index.starts.size - 1
  isLt := by
    have found := boundsUpTo_le index.starts offset (index.starts.size + 1) (Nat.zero_le index.starts.size)
    have := index.some_start
    omega

-- Line and column of a byte offset. An offset past the end is that of the end. An offset inside a character has no
-- character column; it gets the number of bytes that precede it on its line.
def lookup (offset : Nat) : Nat × Nat :=
  let offset := min offset index.source.utf8ByteSize
  let line := index.lineAt offset
  let start := index.starts[line]
  match slice? index.source ⟨start, offset⟩ with
  | some before => (line + 1, before.length + 1)
  | none => (line + 1, offset - start + 1)

-- Text of a line, counted from one, without its newline and carriage returns before that. A line that does not exist is
-- empty.
def lineText : (line : Nat) → String
  | 0 => ""
  | line + 1 =>
    match index.starts[line]? with
    | none => ""
    | some start =>
      let stop := index.starts[line + 1]?.getD index.source.utf8ByteSize
      let text := (slice? index.source ⟨start, stop⟩).getD []
      String.ofList (trimEnd '\r' (trimEnd '\n' text))
where
  trimEnd (last : Char) (text : List Char) : List Char := (text.reverse.dropWhile (· = last)).reverse

end LineIndex

def lookup (source : String) (offset : Nat) : Nat × Nat := (LineIndex.ofSource source).lookup offset

def positionOf (source : String) (span : Span) (file : Option String) : Position :=
  let (line, column) := lookup source span.start
  ⟨line, column, file⟩

def lineText (source : String) (line : Nat) : String := (LineIndex.ofSource source).lineText line

-- Number of characters that a range covers, at least one. A range that cuts a character counts bytes.
def width (source : String) (span : Span) : Nat :=
  let stop := min span.stop source.utf8ByteSize
  let start := min span.start stop
  let chars := (slice? source ⟨start, stop⟩).map List.length
  max 1 (chars.getD (stop - span.start))

end Text
end StackScript
