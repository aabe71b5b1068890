/-!
# Offsets, lines and columns

An offset counts the bytes of the UTF-8 form of a text. A line ends after each newline character
and only there; a column counts bytes from the start of its line. All four are 32-bit words, so
sums wrap around at `2 ^ 32`.

`Position.advance` moves a position over a text step by step; `LineIndex` keeps where the lines of
a whole text start and turns offsets into positions and back.
-/

namespace Modelica

/-- The low 32 bits of a number: what an offset, line or column can hold. -/
def word (n : Nat) : Nat := n % UInt32.size

/-- The number of bytes in the UTF-8 form of some characters. -/
def width (chars : List Char) : Nat := chars.foldr (fun c n => c.utf8Size + n) 0

@[simp] theorem width_nil : width [] = 0 := rfl

@[simp] theorem width_cons (c : Char) (chars : List Char) :
    width (c :: chars) = c.utf8Size + width chars := rfl

@[simp] theorem width_append (xs ys : List Char) : width (xs ++ ys) = width xs + width ys := by
  induction xs with
  | nil => simp
  | cons c xs ih => simp [ih, Nat.add_assoc]

/-- A stretch of text between two offsets. -/
structure Span where
  start : Nat
  stop : Nat
  deriving DecidableEq, Inhabited

/-- The empty stretch at an offset. -/
def Span.point (offset : Nat) : Span := ⟨offset, offset⟩

/-- A line and a column, both counted from zero. -/
structure Position where
  line : Nat
  column : Nat
  deriving DecidableEq, Inhabited

namespace Position

/-- The start of a text. -/
def origin : Position := ⟨0, 0⟩

/-- The characters after the last newline; all of them when there is none. -/
def lastLine (chars : List Char) : List Char := (chars.reverse.takeWhile (· != '\n')).reverse

/-- The position reached after reading a text. -/
def advance (p : Position) (text : String) : Position :=
  let chars := text.toList
  let newlines := chars.count '\n'
  if newlines = 0 then ⟨p.line, word (p.column + width chars)⟩
  else ⟨word (p.line + newlines), word (width (lastLine chars))⟩

/-- Line and column counted from one, as compilers print them. -/
def render (p : Position) : String :=
  toString (word (p.line + 1)) ++ ":" ++ toString (word (p.column + 1))

end Position

/-- Where the lines of a text start, and how long the text is. -/
structure LineIndex where
  /-- The offsets at which the lines after the first one start, in order. -/
  breaks : List Nat
  size : Nat
  deriving DecidableEq, Inhabited

namespace LineIndex

/-- The offsets just after each newline of a text that starts at `offset`. -/
def breaksFrom : Nat → List Char → List Nat
  | _, [] => []
  | offset, c :: rest =>
    let next := offset + c.utf8Size
    if c = '\n' then next :: breaksFrom next rest else breaksFrom next rest

def ofText (text : String) : LineIndex := ⟨breaksFrom 0 text.toList, width text.toList⟩

/-- A trailing newline starts one more line, which is empty. -/
def lineCount (index : LineIndex) : Nat := index.breaks.length + 1

/-- The offset at which a line starts. -/
def lineStart? (index : LineIndex) : Nat → Option Nat
  | 0 => some 0
  | n + 1 => index.breaks[n]?

/-- The position of an offset; one past the end counts as the end. -/
def position (index : LineIndex) (offset : Nat) : Position :=
  let o := min offset index.size
  let line := index.breaks.countP (· ≤ o)
  ⟨line, o - (index.lineStart? line).getD 0⟩

/-- The offset of a position, for a column up to where the next line starts. -/
def offset? (index : LineIndex) (p : Position) : Option Nat := do
  let start ← index.lineStart? p.line
  let stop := (index.lineStart? (p.line + 1)).getD index.size
  let offset := word (start + p.column)
  if offset ≤ stop then some offset else none

end LineIndex

end Modelica
