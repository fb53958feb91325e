import AnswerSetTest.Text.Characters

/-!
# Columns

Texts set in aligned columns: trimmed, sorted, and filled row by row. Every cell is as wide as
the longest text and two blanks more, as many cells go into a row as fit the width (at least
one), and no row ends in blanks.
-/

namespace AnswerSetTest.Text

def rows {α : Type} (size : Nat) (xs : List α) : List (List α) :=
  match xs with
  | [] => []
  | x :: rest => (x :: rest.take (size - 1)) :: rows size (rest.drop (size - 1))
termination_by xs.length
decreasing_by simp only [List.length_drop, List.length_cons]; omega

def padEnd (width : Nat) (cs : List Char) : List Char :=
  cs ++ List.replicate (width - cs.length) ' '

def columnWidth (cells : List (List Char)) : Nat :=
  (cells.map List.length).foldl max 0 + 2

def columnCount (width column : Nat) : Nat := max 1 (width / column)

def row (column : Nat) (cells : List (List Char)) : List Char :=
  trimEnd (cells.flatMap (padEnd column))

def sortCells (cells : List (List Char)) : List (List Char) :=
  cells.mergeSort fun a b => !b.lex a fun c d => decide (c < d)

def columns (width : Nat) (cells : List String) : String :=
  let sorted := sortCells (cells.map fun cell => trim cell.toList)
  if sorted.isEmpty then "<empty>"
  else
    let column := columnWidth sorted
    "\n".intercalate ((rows (columnCount width column) sorted).map fun cells =>
      String.ofList (row column cells))

def defaultWidth : Nat := 120

/-- Reads a number of columns: decimal digits with an optional plus sign, that fit in 64 bits. -/
def readColumns? (cs : List Char) : Option Nat :=
  let digits := match cs with
    | '+' :: rest => rest
    | _ => cs
  if digits.isEmpty || !digits.all Char.isDigit then none
  else
    let n := Nat.ofDigitChars 10 digits 0
    if n < UInt64.size then some n else none

/-- The width that the environment states, else that of the terminal, else the default width. -/
def terminalWidth (columns : Option String) (queried : Option UInt16 := none) : Nat :=
  let stated := columns.bind fun text => readColumns? (trim text.toList)
  let positive (n : Nat) : Bool := 0 < n
  (stated.filter positive <|> (queried.map UInt16.toNat).filter positive).getD defaultWidth

end AnswerSetTest.Text
