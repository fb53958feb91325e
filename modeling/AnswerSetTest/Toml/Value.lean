/-!
# TOML values

Values of a TOML document, as far as a configuration uses them, and the two ways in which tables
come about: keys and headers. A table remembers how it was opened, since this decides what may be
added to it later.
-/

namespace AnswerSetTest.Toml

/-- How a table was opened: on the way to a header, on the way to a key, by its own header, or
between braces. -/
inductive Opening where
  | implicit | dotted | explicit | inline
deriving DecidableEq

inductive Value where
  | text (s : String)
  | integer (n : Int)
  | boolean (b : Bool)
  | array (values : List Value)
  | table (opening : Opening) (entries : List (String × Value))
deriving Inhabited

abbrev Entries := List (String × Value)

namespace Entries

def replace (entries : Entries) (key : String) (v : Value) : Entries :=
  entries.map fun (k, w) => if k = key then (k, v) else (k, w)

/-- Adds a value under a dotted key. The key must be new, and tables on the way to it must not have
been opened by a header of their own. -/
def insert? (entries : Entries) (v : Value) : (path : List String) → Option Entries
  | [] => none
  | key :: path =>
    match path, entries.lookup key with
    | [], none => some (entries ++ [(key, v)])
    | [], some _ => none
    | _ :: _, none => do return entries ++ [(key, .table .dotted (← insert? [] v path))]
    | _ :: _, some (.table opening inner) =>
      if opening = .implicit ∨ opening = .dotted then do
        return entries.replace key (.table opening (← insert? inner v path))
      else none
    | _ :: _, some _ => none

def insertAll? (entries : Entries) (body : List (List String × Value)) : Option Entries :=
  body.foldlM (fun entries (path, v) => entries.insert? v path) entries

/-- Opens the table of a header and fills it. Only a table that was passed on the way to another
header may be opened later. -/
def openTable? (body : List (List String × Value)) (entries : Entries) :
    (path : List String) → Option Entries
  | [] => entries.insertAll? body
  | key :: path =>
    match path, entries.lookup key with
    | [], none => do return entries ++ [(key, .table .explicit (← insertAll? [] body))]
    | [], some (.table .implicit inner) => do
      return entries.replace key (.table .explicit (← insertAll? inner body))
    | [], some _ => none
    | _ :: _, none => do return entries ++ [(key, .table .implicit (← openTable? body [] path))]
    | _ :: _, some (.table opening inner) =>
      if opening = .inline then none
      else do return entries.replace key (.table opening (← openTable? body inner path))
    | _ :: _, some _ => none

end Entries

/-- A header and what stands below it; before the first header the path is empty. -/
structure Section where
  path : List String
  body : List (List String × Value)

def Value.ofSections? (sections : List Section) : Option Value := do
  let entries ← sections.foldlM (fun (entries : Entries) s => entries.openTable? s.body s.path) []
  return .table .explicit entries

end AnswerSetTest.Toml
