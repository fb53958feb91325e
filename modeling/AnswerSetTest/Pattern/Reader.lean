import AnswerSetTest.Pattern.Basic
import AnswerSetTest.Pattern.Property
import AnswerSetTest.Text.Unprintable
import AnswerSetTest.Text.Characters

/-!
# Reading patterns

The text of a pattern, read character by character. Flags such as `(?i)` hold up to the end of the
group they stand in. A text that is no pattern gives `none`.
-/

namespace AnswerSetTest.Pattern

structure Flags where
  ignoreCase : Bool
  lines : Bool
  dotAll : Bool
  unicode : Bool
  crlf : Bool
  verbose : Bool

def Flags.default : Flags := ⟨false, false, false, true, false, false⟩

/-- In verbose patterns blanks and comments are skipped. -/
def skipBlanks : List Char → List Char
  | [] => []
  | c :: cs =>
    if Text.isBlank c then skipBlanks cs
    else if c = '#' then skipComment cs
    else c :: cs
where
  skipComment : List Char → List Char
    | [] => []
    | c :: cs => if c = '\n' then skipBlanks cs else skipComment cs

def Flags.skip (f : Flags) (cs : List Char) : List Char := if f.verbose then skipBlanks cs else cs

def Flags.fold (f : Flags) (s : CharSet) : CharSet :=
  if f.ignoreCase then .folded (!f.unicode) s else s

/-! ### Escapes -/

/-- What stands behind a backslash. A byte is one that was given by two digits. -/
inductive Escape where
  | literal (n : Nat) (isByte : Bool)
  | set (s : CharSet)
  | assertion (a : Assertion)

def isMeta (c : Char) : Bool := "\\.+*?()|[]\x7b\x7d^$#&-~".toList.contains c

def isEscapable (c : Char) : Bool :=
  isMeta c || c.toNat < 128 && !c.isAlphanum && c != '<' && c != '>'

def readDigits (f : Flags) (value : Nat) : (count : Nat) → List Char → Option (Nat × List Char)
  | 0, cs => some (value, cs)
  | count + 1, cs =>
    match f.skip cs with
    | [] => none
    | c :: rest => do readDigits f (16 * value + (← Text.hexValue? c)) count rest

/-- Hexadecimal digits up to a closing brace, at least one; `limit` bounds their number. -/
def readBraced (f : Flags) (value : Nat) (any : Bool) :
    (limit : Nat) → List Char → Option (Nat × List Char)
  | 0, _ => none
  | limit + 1, cs =>
    match f.skip cs with
    | [] => none
    | '}' :: rest => if any then some (value, rest) else none
    | c :: rest => do
      let value := 16 * value + (← Text.hexValue? c)
      if value < UInt32.size then readBraced f value true limit rest else none

def readHex (f : Flags) (count : Nat) (cs : List Char) : Option (Escape × List Char) := do
  match f.skip cs with
  | '{' :: rest =>
    let (n, rest) ← readBraced f 0 false rest.length rest
    if Text.isCodePoint n then some (.literal n false, rest) else none
  | cs =>
    let (n, rest) ← readDigits f 0 count cs
    if Text.isCodePoint n then some (.literal n (count = 2), rest) else none

def upToBrace (f : Flags) (name : List Char) : List Char → Option (List Char × List Char)
  | [] => none
  | c :: cs =>
    if c = '}' then some (name.reverse, cs)
    else if f.verbose && Text.isBlank c then upToBrace f name cs
    else upToBrace f (c :: name) cs

def splitAtChar (sep : Char) (cs : List Char) : Option (String × String) :=
  if cs.contains sep then
    some (String.ofList (cs.takeWhile (· != sep)), String.ofList ((cs.dropWhile (· != sep)).drop 1))
  else none

def bracedProperty? (name : List Char) : Option CharSet :=
  let text := String.ofList name
  match text.splitOn "!=" with
  | n :: v :: rest =>
    (Property.valued? n ("!=".intercalate (v :: rest))).map CharSet.complement
  | _ =>
    match splitAtChar ':' name with
    | some (n, v) => Property.valued? n v
    | none =>
      match splitAtChar '=' name with
      | some (n, v) => Property.valued? n v
      | none => Property.named? text

def readProperty (f : Flags) (negated : Bool) (cs : List Char) : Option (Escape × List Char) := do
  if !f.unicode then none
  else
    let (s, rest) ← match f.skip cs with
      | '{' :: rest => do
        let (name, rest) ← upToBrace f [] rest
        pure (← bracedProperty? name, rest)
      | '\\' :: _ => none
      | c :: rest => do pure (← Property.named? c.toString, rest)
      | [] => none
    let s := f.fold s
    some (.set (if negated then .complement s else s), rest)

/-- A named word boundary in braces. Braces that do not start with a letter are left to be read as
a repetition. -/
def readBoundary (cs : List Char) : Option (Escape × List Char) :=
  match cs with
  | '{' :: c :: _ =>
    if c.isAlpha || c == '-' then
      let body := cs.drop 1
      let name := body.takeWhile fun c => c.isAlpha || c == '-'
      match body.dropWhile fun c => c.isAlpha || c == '-' with
      | '}' :: rest =>
        match String.ofList name with
        | "start" => some (.assertion .wordStart, rest)
        | "end" => some (.assertion .wordStop, rest)
        | "start-half" => some (.assertion .wordStartHalf, rest)
        | "end-half" => some (.assertion .wordStopHalf, rest)
        | _ => none
      | _ => none
    else some (.assertion .boundary, cs)
  | ['{'] => none
  | _ => some (.assertion .boundary, cs)

def readEscape (f : Flags) : List Char → Option (Escape × List Char)
  | [] => none
  | c :: cs =>
    let literal (n : Nat) := some (Escape.literal n false, cs)
    let set (s : CharSet) := some (Escape.set s, cs)
    if isEscapable c then literal c.toNat
    else
      match c with
      | 'x' => readHex f 2 cs
      | 'u' => readHex f 4 cs
      | 'U' => readHex f 8 cs
      | 'p' => readProperty f false cs
      | 'P' => readProperty f true cs
      | 'd' => set .digit
      | 's' => set .space
      | 'w' => set .word
      | 'D' => set (.complement .digit)
      | 'S' => set (.complement .space)
      | 'W' => set (.complement .word)
      | 'a' => literal 7
      | 'f' => literal 12
      | 't' => literal 9
      | 'n' => literal 10
      | 'r' => literal 13
      | 'v' => literal 11
      | 'A' => some (.assertion (.start false false), cs)
      | 'z' => some (.assertion (.stop false false), cs)
      | 'b' => readBoundary cs
      | 'B' => some (.assertion .noBoundary, cs)
      | '<' => some (.assertion .wordStart, cs)
      | '>' => some (.assertion .wordStop, cs)
      | _ => none

/-! ### Classes -/

inductive ClassItem where
  | char (n : Nat)
  | set (s : CharSet)

/-- Without Unicode, classes hold bytes. -/
def readClassItem (f : Flags) : List Char → Option (ClassItem × List Char)
  | [] => none
  | '\\' :: cs => do
    match ← readEscape f cs with
    | (.literal n _, rest) => if f.unicode || n < 128 then some (.char n, rest) else none
    | (.set s, rest) => some (.set s, rest)
    | (.assertion _, _) => none
  | c :: cs => if f.unicode || c.toNat < 128 then some (.char c.toNat, cs) else none

def readRange (f : Flags) (cs : List Char) : Option (CharSet × List Char) := do
  let (first, rest) ← readClassItem f cs
  let asSet : ClassItem → CharSet
    | .char n => .ranges [(n, n)]
    | .set s => s
  match f.skip rest with
  | [] => none
  | '-' :: more =>
    match f.skip more with
    | [] => none
    | ']' :: _ | '-' :: _ => some (f.fold (asSet first), f.skip rest)
    | behind =>
      let (last, rest) ← readClassItem f behind
      match first, last with
      | .char low, .char high =>
        if low ≤ high then some (f.fold (.ranges [(low, high)]), rest) else none
      | _, _ => none
  | rest => some (f.fold (asSet first), rest)

def namedClass? (f : Flags) (cs : List Char) : Option (CharSet × List Char) :=
  match cs with
  | ':' :: cs =>
    let (negated, cs) := match cs with
      | '^' :: cs => (true, cs)
      | _ => (false, cs)
    match cs.dropWhile (· != ':') with
    | ':' :: ']' :: rest => do
      let s := f.fold (← CharSet.ofClassName? (String.ofList (cs.takeWhile (· != ':'))))
      some (if negated then .complement s else s, rest)
    | _ => none
  | _ => none

/-- What stands in front of the elements of a class: a caret, hyphens, and a bracket if it comes
first. Gives whether the class is negated and the elements so far. -/
def readClassStart (f : Flags) (cs : List Char) : Bool × CharSet × List Char :=
  let (negated, cs) := match f.skip cs with
    | '^' :: cs => (true, f.skip cs)
    | cs => (false, cs)
  let hyphens := cs.takeWhile (· == '-')
  let cs := if hyphens.isEmpty then cs else f.skip (cs.dropWhile (· == '-'))
  if hyphens.isEmpty then
    match cs with
    | ']' :: cs => (negated, .single ']', cs)
    | _ => (negated, .empty, cs)
  else (negated, .single '-', cs)

def classOperation? : Char → Option (CharSet → CharSet → CharSet)
  | '&' => some .inter
  | '-' => some .diff
  | '~' => some .symmDiff
  | _ => none

/-- The elements of a class up to its bracket. `before` is applied to the elements read since the
last operation, which are in `items`. -/
def readClass (f : Flags) (negated : Bool) (before : CharSet → CharSet) (items : CharSet) :
    (limit : Nat) → List Char → Option (CharSet × List Char)
  | 0, _ => none
  | limit + 1, cs =>
    let element (cs : List Char) : Option (CharSet × List Char) := do
      let (s, rest) ← readRange f cs
      readClass f negated before (.union items s) limit rest
    match f.skip cs with
    | [] => none
    | ']' :: rest =>
      let s := before items
      some (if negated then .complement s else s, rest)
    | '[' :: rest =>
      match namedClass? f rest with
      | some (s, rest) => readClass f negated before (.union items s) limit rest
      | none => do
        let (inner, start, body) := readClassStart f rest
        let (s, rest) ← readClass f inner id start limit body
        readClass f negated before (.union items s) limit rest
    | c :: d :: rest =>
      match if c = d then classOperation? c else none with
      | some op => readClass f negated (op (before items)) .empty limit rest
      | none => element (c :: d :: rest)
    | cs => element cs

/-- A class behind its opening bracket. Without Unicode it may only hold ASCII. -/
def readBracket (f : Flags) (cs : List Char) : Option (Pattern × List Char) := do
  let (negated, start, body) := readClassStart f cs
  let (s, rest) ← readClass f negated id start (body.length + 1) body
  if f.unicode || s.isAscii then some (.char s, rest) else none

/-! ### Groups, repetitions and patterns -/

def readCount (cs : List Char) : Option (Nat × List Char) :=
  let cs := cs.dropWhile Text.isBlank
  let digits := cs.takeWhile Char.isDigit
  let n := Nat.ofDigitChars 10 digits 0
  if digits.isEmpty || UInt32.size ≤ n then none
  else some (n, (cs.dropWhile Char.isDigit).dropWhile Text.isBlank)

def readRepetition (f : Flags) (cs : List Char) : Option ((Nat × Option Nat) × List Char) := do
  let (least, rest) ← readCount (f.skip cs)
  match rest with
  | '}' :: rest => some ((least, some least), rest)
  | ',' :: rest =>
    match f.skip rest with
    | '}' :: rest => some ((least, none), rest)
    | rest =>
      let (greatest, rest) ← readCount rest
      match rest with
      | '}' :: rest => if least ≤ greatest then some ((least, some greatest), rest) else none
      | _ => none
  | _ => none

/-- A question mark behind a repetition says which match is preferred, not what is matched. -/
def skipPreference : List Char → List Char
  | '?' :: cs => cs
  | cs => cs

/-- Sets the flags up to a colon or a parenthesis. A flag may stand once, and a hyphen, which turns
the flags behind it off, has to be followed by one. Gives the sign that ends the flags. -/
def readFlags (f : Flags) (seen : List Char) (negated dangling : Bool) :
    List Char → Option (Flags × Char × Bool × List Char)
  | [] => none
  | c :: cs =>
    if c = ':' ∨ c = ')' then
      if dangling then none else some (f, c, seen.isEmpty, cs)
    else if c = '-' then
      if negated then none else readFlags f seen true true cs
    else if seen.contains c then none
    else
      let on := !negated
      match (match c with
        | 'i' => some { f with ignoreCase := on }
        | 'm' => some { f with lines := on }
        | 's' => some { f with dotAll := on }
        | 'U' => some f
        | 'u' => some { f with unicode := on }
        | 'R' => some { f with crlf := on }
        | 'x' => some { f with verbose := on }
        | _ => none) with
      | some f => readFlags f (c :: seen) negated false cs
      | none => none

def isNameChar (first : Bool) (c : Char) : Bool :=
  c == '_' || c.isAlpha || (c.toNat ≥ 128 && !Text.isUnprintable c) ||
    (!first && (c.isDigit || c == '.' || c == '[' || c == ']'))

def readGroupName (names : List String) (cs : List Char) : Option (String × List Char) :=
  let name := cs.takeWhile (· != '>')
  match name, cs.dropWhile (· != '>') with
  | c :: more, '>' :: rest =>
    let text := String.ofList name
    if isNameChar true c && more.all (isNameChar false) && !names.contains text then
      some (text, rest)
    else none
  | _, _ => none

/-- How a parenthesis goes on: a group with its flags and names used so far, or flags for the rest
of the group around it. -/
inductive GroupStart where
  | group (f : Flags) (names : List String)
  | flags (f : Flags)

def readGroupStart (f : Flags) (names : List String) (cs : List Char) :
    Option (GroupStart × List Char) := do
  match f.skip cs with
  | '?' :: 'P' :: '<' :: rest =>
    let (name, rest) ← readGroupName names rest
    some (.group f (name :: names), rest)
  | '?' :: '=' :: _ | '?' :: '!' :: _ | '?' :: '<' :: '=' :: _ | '?' :: '<' :: '!' :: _ => none
  | '?' :: '<' :: rest =>
    let (name, rest) ← readGroupName names rest
    some (.group f (name :: names), rest)
  | '?' :: rest =>
    match ← readFlags f [] false false rest with
    | (f, ')', isEmpty, rest) => if isEmpty then none else some (.flags f, rest)
    | (f, _, _, rest) => some (.group f names, rest)
  | rest => some (.group f names, rest)

def literal (f : Flags) (n : Nat) : Pattern := .char (f.fold (.ranges [(n, n)]))

/-- A single character, dot, anchor or escape. Without Unicode it may not stand for bytes beyond
ASCII. -/
def readPrimitive (f : Flags) : List Char → Option (Pattern × List Char)
  | [] => none
  | '\\' :: cs => do
    match ← readEscape f cs with
    | (.literal n isByte, rest) =>
      if !f.unicode && isByte && n ≥ 128 then none else some (literal f n, rest)
    | (.set s, rest) => if f.unicode || s.isAscii then some (.char s, rest) else none
    | (.assertion a, rest) => some (.assertion a, rest)
  | '.' :: cs =>
    if !f.unicode then none
    else if f.dotAll then some (.char .full, cs)
    else if f.crlf then some (.char (.complement (.ofString "\r\n")), cs)
    else some (.char (.complement (.single '\n')), cs)
  | '^' :: cs => some (.assertion (.start f.lines f.crlf), cs)
  | '$' :: cs => some (.assertion (.stop f.lines f.crlf), cs)
  | c :: cs => some (literal f c.toNat, cs)

/-- The items of a branch come last first; `none` stands for flags, which cannot be repeated. -/
def branch (items : List (Option Pattern)) : Pattern :=
  items.foldl (fun p item =>
    match item with
    | some q => .seq q p
    | none => p) .empty

def repeatLast (least : Nat) (greatest : Option Nat) :
    List (Option Pattern) → Option (List (Option Pattern))
  | some p :: items => some (some (.times p least greatest) :: items)
  | _ => none

def join (before : Option Pattern) (p : Pattern) : Pattern :=
  match before with
  | some q => .alt q p
  | none => p

/-- The pattern up to the end of its group, with the names of groups and the rest. `before` are
the branches read so far and `items` those of the current branch. -/
def readBranches (f : Flags) (names : List String) (before : Option Pattern)
    (items : List (Option Pattern)) :
    (limit : Nat) → List Char → Option (Pattern × List String × List Char)
  | 0, _ => none
  | limit + 1, cs =>
    let repeated (least : Nat) (greatest : Option Nat) (rest : List Char) := do
      readBranches f names before (← repeatLast least greatest items) limit (skipPreference rest)
    match f.skip cs with
    | [] => some (join before (branch items), names, [])
    | ')' :: rest => some (join before (branch items), names, ')' :: rest)
    | '|' :: rest => readBranches f names (some (join before (branch items))) [] limit rest
    | '(' :: rest => do
      match ← readGroupStart f names rest with
      | (.flags g, rest) => readBranches g names before (none :: items) limit rest
      | (.group g names, rest) =>
        match ← readBranches g names none [] limit rest with
        | (p, names, ')' :: rest) => readBranches f names before (some p :: items) limit rest
        | _ => none
    | '[' :: rest => do
      let (p, rest) ← readBracket f rest
      readBranches f names before (some p :: items) limit rest
    | '*' :: rest => repeated 0 none rest
    | '+' :: rest => repeated 1 none rest
    | '?' :: rest => repeated 0 (some 1) rest
    | '{' :: rest => do
      let ((least, greatest), rest) ← readRepetition f rest
      repeated least greatest rest
    | cs => do
      let (p, rest) ← readPrimitive f cs
      readBranches f names before (some p :: items) limit rest

def parse? (text : String) : Option Pattern := do
  let cs := text.toList
  match ← readBranches .default [] none [] (cs.length + 1) cs with
  | (p, _, []) => some p
  | _ => none

end AnswerSetTest.Pattern
