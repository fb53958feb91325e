import AnswerSetTest.Text.Characters
import AnswerSetTest.Toml.Value

/-!
# Reading TOML

A TOML document is read character by character; a text that is none gives `none`. The values are
texts, integers, booleans, arrays and tables: a document with other values, or with headers of
arrays, is refused, as no configuration has a place for them.
-/

namespace AnswerSetTest.Toml

/-! ### Blanks and comments -/

def skipBlanks (cs : List Char) : List Char := cs.dropWhile fun c => c = ' ' || c = '\t'

def isControl (c : Char) : Bool := c != '\t' && (c.toNat < 0x20 || c.toNat = 0x7F)

def newline? : List Char → Option (List Char)
  | '\n' :: cs => some cs
  | '\r' :: '\n' :: cs => some cs
  | _ => none

def skipComment : List Char → Option (List Char)
  | [] => some []
  | c :: cs =>
    if (newline? (c :: cs)).isSome then some (c :: cs)
    else if isControl c then none
    else skipComment cs

def skipRest (cs : List Char) : Option (List Char) :=
  match skipBlanks cs with
  | '#' :: cs => skipComment cs
  | cs => some cs

def skipLines : (limit : Nat) → List Char → Option (List Char)
  | 0, cs => some cs
  | limit + 1, cs => do
    let cs ← skipRest cs
    match newline? cs with
    | some cs => skipLines limit cs
    | none => return cs

def skip (cs : List Char) : Option (List Char) := skipLines (cs.length + 1) cs

/-! ### Texts -/

def readCodePoint (value : Nat) : (count : Nat) → List Char → Option (Char × List Char)
  | 0, cs => if Text.isCodePoint value then some (Char.ofNat value, cs) else none
  | _ + 1, [] => none
  | count + 1, c :: cs => do readCodePoint (16 * value + (← Text.hexValue? c)) count cs

def readEscape : List Char → Option (Char × List Char)
  | 'b' :: cs => some ('\x08', cs)
  | 't' :: cs => some ('\t', cs)
  | 'n' :: cs => some ('\n', cs)
  | 'f' :: cs => some ('\x0c', cs)
  | 'r' :: cs => some ('\r', cs)
  | 'e' :: cs => some ('\x1b', cs)
  | '"' :: cs => some ('"', cs)
  | '\\' :: cs => some ('\\', cs)
  | 'x' :: cs => readCodePoint 0 2 cs
  | 'u' :: cs => readCodePoint 0 4 cs
  | 'U' :: cs => readCodePoint 0 8 cs
  | _ => none

/-- A text on one line, up to its closing quote. Only between double quotes are there escapes. -/
def readInLine (quote : Char) : (limit : Nat) → List Char → Option (List Char × List Char)
  | 0, _ => none
  | _ + 1, [] => none
  | limit + 1, c :: cs =>
    if c = quote then some ([], cs)
    else if c = '\\' ∧ quote = '"' then do
      let (e, cs) ← readEscape cs
      let (text, cs) ← readInLine quote limit cs
      return (e :: text, cs)
    else if isControl c then none
    else do
      let (text, cs) ← readInLine quote limit cs
      return (c :: text, cs)

/-- The closing quotes of a text over several lines. Up to two quotes in front of the three that
close it belong to it. -/
def closing? (quote : Char) (cs : List Char) : Option (List Char × List Char) :=
  let count := min 5 (cs.takeWhile (· = quote)).length
  if 3 ≤ count then some (List.replicate (count - 3) quote, cs.drop count) else none

def continuation? (cs : List Char) : Option (List Char) := do
  let cs ← newline? (skipBlanks cs)
  return cs.dropWhile fun c => c = ' ' || c = '\t' || c = '\n' || c = '\r'

def readOverLines (quote : Char) : (limit : Nat) → List Char → Option (List Char × List Char)
  | 0, _ => none
  | limit + 1, cs =>
    match closing? quote cs, cs with
    | some closed, _ => some closed
    | none, [] => none
    | none, c :: cs =>
      if c = '\\' ∧ quote = '"' then
        match continuation? cs with
        | some cs => readOverLines quote limit cs
        | none => do
          let (e, cs) ← readEscape cs
          let (text, cs) ← readOverLines quote limit cs
          return (e :: text, cs)
      else if isControl c && (newline? (c :: cs)).isNone then none
      else do
        let (text, cs) ← readOverLines quote limit cs
        return (c :: text, cs)

/-- A text of either kind behind its first quote. A line end right after three opening quotes is
dropped. -/
def readText (quote : Char) (cs : List Char) : Option (String × List Char) := do
  let (text, cs) ← match cs with
    | c :: d :: cs =>
      if c = quote ∧ d = quote then
        readOverLines quote (cs.length + 1) ((newline? cs).getD cs)
      else readInLine quote (cs.length + 3) (c :: d :: cs)
    | cs => readInLine quote (cs.length + 1) cs
  return (String.ofList text, cs)

/-! ### Keys -/

def isBareKey (c : Char) : Bool := c.isAlphanum || c = '_' || c = '-'

def readKey (cs : List Char) : Option (String × List Char) :=
  match cs with
  | c :: rest =>
    if c = '"' ∨ c = '\'' then do
      let (text, rest) ← readInLine c (rest.length + 1) rest
      return (String.ofList text, rest)
    else
      let key := cs.takeWhile isBareKey
      if key.isEmpty then none else some (String.ofList key, cs.dropWhile isBareKey)
  | [] => none

def readDottedKey : (limit : Nat) → List Char → Option (List String × List Char)
  | 0, _ => none
  | limit + 1, cs => do
    let (key, cs) ← readKey (skipBlanks cs)
    match skipBlanks cs with
    | '.' :: cs =>
      let (keys, cs) ← readDottedKey limit cs
      return (key :: keys, cs)
    | cs => return ([key], cs)

/-! ### Values -/

def readDigits (base value : Nat) : List Char → Option Nat
  | [] => none
  | c :: cs => do
    let digit ← Text.hexValue? c
    guard (digit < base)
    let value := base * value + digit
    match cs with
    | [] => return value
    | '_' :: cs => readDigits base value cs
    | d :: cs => readDigits base value (d :: cs)

def readDecimal (cs : List Char) : Option Nat :=
  if cs.length > 1 ∧ cs.head? = some '0' then none else readDigits 10 0 cs

def readInteger : List Char → Option Int
  | '0' :: 'x' :: cs => do return (← readDigits 16 0 cs)
  | '0' :: 'o' :: cs => do return (← readDigits 8 0 cs)
  | '0' :: 'b' :: cs => do return (← readDigits 2 0 cs)
  | '+' :: cs => do return (← readDecimal cs)
  | '-' :: cs => do return -(← readDecimal cs)
  | cs => do return (← readDecimal cs)

def isDelimiter (c : Char) : Bool := " \t\r\n,=[]\x7b\x7d#\"'".toList.contains c

def readWord (cs : List Char) : Option (Value × List Char) := do
  let word := cs.takeWhile fun c => !isDelimiter c
  let value ←
    if word = "true".toList then some (.boolean true)
    else if word = "false".toList then some (.boolean false)
    else (readInteger word).map .integer
  return (value, cs.dropWhile fun c => !isDelimiter c)

def readItems {α : Type} (close : Char) (item : List Char → Option (α × List Char)) :
    (limit : Nat) → List Char → Option (List α × List Char)
  | 0, _ => none
  | limit + 1, cs => do
    match ← skip cs with
    | [] => none
    | c :: cs =>
      if c = close then return ([], cs)
      let (a, cs) ← item (c :: cs)
      match ← skip cs with
      | ',' :: cs =>
        let (as, cs) ← readItems close item limit cs
        return (a :: as, cs)
      | c :: cs => if c = close then some ([a], cs) else none
      | [] => none

def readEntry (value : List Char → Option (Value × List Char)) (cs : List Char) :
    Option ((List String × Value) × List Char) := do
  match ← readDottedKey (cs.length + 1) cs with
  | (path, '=' :: cs) =>
    let (v, cs) ← value (skipBlanks cs)
    return ((path, v), cs)
  | _ => none

def readValue : (depth : Nat) → List Char → Option (Value × List Char)
  | 0, _ => none
  | depth + 1, cs =>
    match cs with
    | '"' :: cs => do
      let (text, cs) ← readText '"' cs
      return (.text text, cs)
    | '\'' :: cs => do
      let (text, cs) ← readText '\'' cs
      return (.text text, cs)
    | '[' :: cs => do
      let (values, cs) ← readItems ']' (readValue depth) (cs.length + 1) cs
      return (.array values, cs)
    | '{' :: cs => do
      let (body, cs) ← readItems '}' (readEntry (readValue depth)) (cs.length + 1) cs
      return (.table .inline (← Entries.insertAll? [] body), cs)
    | cs => readWord cs

/-! ### Documents -/

def readLineEnd (cs : List Char) : Option (List Char) := do
  match ← skipRest cs with
  | [] => return []
  | cs => newline? cs

def readSections (s : Section) : (limit : Nat) → List Char → Option (List Section)
  | 0, _ => none
  | limit + 1, cs => do
    match ← skip cs with
    | [] => return [s]
    | '[' :: cs =>
      match ← readDottedKey (cs.length + 1) cs with
      | (path, ']' :: cs) => return s :: (← readSections ⟨path, []⟩ limit (← readLineEnd cs))
      | _ => none
    | cs =>
      let (entry, cs) ← readEntry (readValue (cs.length + 1)) cs
      readSections { s with body := s.body ++ [entry] } limit (← readLineEnd cs)

/-- Reads a document as a table. A byte order mark in front of it is skipped. -/
def parse? (text : String) : Option Value := do
  let cs := match text.toList with
    | '\uFEFF' :: cs => cs
    | cs => cs
  Value.ofSections? (← readSections ⟨[], []⟩ (cs.length + 1) cs)

end AnswerSetTest.Toml
