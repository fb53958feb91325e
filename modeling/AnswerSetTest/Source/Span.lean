/-!
# Spans

A source is a text with the name of its file. A span is a range of bytes in a source, together
with the line and the column of its start, both counted from one.
-/

namespace AnswerSetTest

structure Source where
  chars : List Char
  file : Option String

def byteSize (cs : List Char) : Nat := cs.foldr (fun c n => c.utf8Size + n) 0

structure Span where
  start : Nat
  stop : Nat
  line : Nat
  column : Nat
  file : Option String
deriving DecidableEq, Inhabited

namespace Span

/-- Line and column of the character that holds byte `offset`; the end of the text when there is
none. The text is taken to start at the given line and column. -/
def position (line column : Nat) : List Char → Nat → Nat × Nat
  | [], _ => (line, column)
  | c :: cs, offset =>
    if offset < c.utf8Size then (line, column)
    else if c = '\n' then position (line + 1) 1 cs (offset - c.utf8Size)
    else position line (column + 1) cs (offset - c.utf8Size)

def locate (source : Source) (start stop : Nat) : Span :=
  let (line, column) := position 1 1 source.chars start
  { start, stop, line, column, file := source.file }

def fileName (span : Span) : String := span.file.getD "<string>"

def display (span : Span) : String :=
  (match span.file with
    | some file => file ++ ":"
    | none => "") ++
  toString span.line ++ ":" ++ toString span.column

end Span

end AnswerSetTest
