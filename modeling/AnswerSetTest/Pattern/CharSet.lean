/-!
# Sets of characters

Sets of characters as patterns describe them: ranges, and what is made of them. Patterns are
matched with the names of units, which are ASCII words, so classes such as the letters are given
by the ASCII characters in them.
-/

namespace AnswerSetTest.Pattern

inductive CharSet where
  | ranges (ranges : List (Nat × Nat))
  | union (s t : CharSet)
  | inter (s t : CharSet)
  | diff (s t : CharSet)
  | symmDiff (s t : CharSet)
  | complement (s : CharSet)
  /-- with the case variants of each character -/
  | folded (ascii : Bool) (s : CharSet)
deriving Inhabited

namespace CharSet

def empty : CharSet := .ranges []

def full : CharSet := .complement empty

def single (c : Char) : CharSet := .ranges [(c.toNat, c.toNat)]

def ofString (s : String) : CharSet := .ranges (s.toList.map fun c => (c.toNat, c.toNat))

/-- The case variants of a character among the ASCII letters, and the two characters beyond ASCII
that are variants of letters. -/
def variants (ascii : Bool) (n : Nat) : List Nat :=
  let letters :=
    if 65 ≤ n ∧ n ≤ 90 then [n, n + 32] else if 97 ≤ n ∧ n ≤ 122 then [n, n - 32] else [n]
  if ascii then letters
  else if n = 75 ∨ n = 107 ∨ n = 0x212A then [75, 107, 0x212A]
  else if n = 83 ∨ n = 115 ∨ n = 0x17F then [83, 115, 0x17F]
  else letters

def contains : CharSet → Nat → Bool
  | .ranges rs, n => rs.any fun (low, high) => low ≤ n && n ≤ high
  | .union s t, n => s.contains n || t.contains n
  | .inter s t, n => s.contains n && t.contains n
  | .diff s t, n => s.contains n && !t.contains n
  | .symmDiff s t, n => s.contains n != t.contains n
  | .complement s, n => !s.contains n
  | .folded ascii s, n => (variants ascii n).any s.contains

def isAscii (s : CharSet) : Bool := (List.range' 128 128).all fun n => !s.contains n

def upper : CharSet := .ranges [(65, 90)]

def lower : CharSet := .ranges [(97, 122)]

def letter : CharSet := .ranges [(65, 90), (97, 122)]

def digit : CharSet := .ranges [(48, 57)]

def word : CharSet := .ranges [(48, 57), (65, 90), (95, 95), (97, 122)]

def space : CharSet := .ranges [(9, 13), (32, 32)]

def control : CharSet := .ranges [(0, 31), (127, 127)]

def punctuation : CharSet := .ranges [(33, 47), (58, 64), (91, 96), (123, 126)]

def ofClassName? (name : String) : Option CharSet :=
  match name with
  | "alnum" => some (.union letter digit)
  | "alpha" => some letter
  | "ascii" => some (.ranges [(0, 127)])
  | "blank" => some (.ranges [(9, 9), (32, 32)])
  | "cntrl" => some control
  | "digit" => some digit
  | "graph" => some (.ranges [(33, 126)])
  | "lower" => some lower
  | "print" => some (.ranges [(32, 126)])
  | "punct" => some punctuation
  | "space" => some space
  | "upper" => some upper
  | "word" => some word
  | "xdigit" => some (.ranges [(48, 57), (65, 70), (97, 102)])
  | _ => none

end CharSet

end AnswerSetTest.Pattern
