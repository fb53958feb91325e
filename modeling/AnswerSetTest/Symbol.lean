/-!
# Symbols

Ground values: 64-bit numbers, strings, and function terms. A constant is a function term
without arguments and a tuple is one with an empty name. Symbols are totally ordered (numbers,
then strings, then functions by name and arguments), and each has a text.
-/

namespace AnswerSetTest

inductive Symbol where
  | number (value : Int64)
  | text (value : String)
  | function (name : String) (args : List Symbol)
deriving Hashable, Inhabited

namespace Symbol

mutual

def decideEq : (a b : Symbol) → Decidable (a = b)
  | .number m, .number n =>
    if h : m = n then isTrue (h ▸ rfl) else isFalse fun e => h (Symbol.number.inj e)
  | .text s, .text t =>
    if h : s = t then isTrue (h ▸ rfl) else isFalse fun e => h (Symbol.text.inj e)
  | .function f as, .function g bs =>
    if hn : f = g then
      match decideEqAll as bs with
      | isTrue ha => isTrue (hn ▸ ha ▸ rfl)
      | isFalse ha => isFalse fun e => ha (Symbol.function.inj e).2
    else isFalse fun e => hn (Symbol.function.inj e).1
  | .number _, .text _ | .number _, .function _ _ | .text _, .number _ | .text _, .function _ _
  | .function _ _, .number _ | .function _ _, .text _ => isFalse nofun

def decideEqAll : (as bs : List Symbol) → Decidable (as = bs)
  | [], [] => isTrue rfl
  | [], _ :: _ | _ :: _, [] => isFalse nofun
  | a :: as, b :: bs =>
    match decideEq a b, decideEqAll as bs with
    | isTrue h, isTrue hs => isTrue (h ▸ hs ▸ rfl)
    | isFalse h, _ => isFalse fun e => h (List.cons.inj e).1
    | _, isFalse hs => isFalse fun e => hs (List.cons.inj e).2

end

instance : DecidableEq Symbol := decideEq

mutual

/-- Numbers come before strings and strings before functions; functions are ordered by name and
then by their arguments from left to right, a shorter list before its extensions. -/
def order : Symbol → Symbol → Ordering
  | .number m, .number n => compare m n
  | .number _, _ => .lt
  | .text _, .number _ => .gt
  | .text s, .text t => compare s t
  | .text _, .function _ _ => .lt
  | .function f as, .function g bs => (compare f g).then (orderAll as bs)
  | .function _ _, _ => .gt

def orderAll : List Symbol → List Symbol → Ordering
  | [], [] => .eq
  | [], _ :: _ => .lt
  | _ :: _, [] => .gt
  | a :: as, b :: bs => (order a b).then (orderAll as bs)

end

instance : Ord Symbol := ⟨order⟩

instance : LT Symbol := ltOfOrd

instance : LE Symbol := leOfOrd

def constant (name : String) : Symbol := .function name []

def tuple (args : List Symbol) : Symbol := .function "" args

def number? : Symbol → Option Int64
  | .number n => some n
  | _ => none

def name? : Symbol → Option String
  | .function name _ => some name
  | _ => none

def args : Symbol → List Symbol
  | .function _ args => args
  | _ => []

def isAtom : Symbol → Bool
  | .function name _ => name != ""
  | _ => false

def hasSignature (s : Symbol) (name : String) (arity : Nat) : Bool :=
  match s with
  | .function f args => f == name && args.length == arity
  | _ => false

def decimal (n : Int) : List Char :=
  if n < 0 then '-' :: Nat.toDigits 10 n.natAbs else Nat.toDigits 10 n.natAbs

/-- Inside quotes only the quote, the backslash and the line feed are written with a backslash. -/
def escape : List Char → List Char
  | [] => []
  | '"' :: cs => '\\' :: '"' :: escape cs
  | '\\' :: cs => '\\' :: '\\' :: escape cs
  | '\n' :: cs => '\\' :: 'n' :: escape cs
  | c :: cs => c :: escape cs

mutual

/-- The text of a symbol. The empty tuple is `()`, and a tuple of one has a comma after its
element, which tells it from a parenthesised term. -/
def chars : Symbol → List Char
  | .number n => decimal n.toInt
  | .text s => '"' :: escape s.toList ++ ['"']
  | .function name [] => if name = "" then ['(', ')'] else name.toList
  | .function name (a :: as) =>
    name.toList ++ '(' :: chars a ++ charsRest as ++
      (if name = "" ∧ as = [] then [',', ')'] else [')'])

def charsRest : List Symbol → List Char
  | [] => []
  | a :: as => ',' :: chars a ++ charsRest as

end

def display (s : Symbol) : String := String.ofList s.chars

instance : ToString Symbol := ⟨display⟩

end Symbol

structure Signature where
  name : String
  arity : Nat
deriving DecidableEq, Hashable

namespace Signature

def order (s t : Signature) : Ordering := (compare s.name t.name).then (compare s.arity t.arity)

instance : Ord Signature := ⟨order⟩

def display (s : Signature) : String := s.name ++ "/" ++ toString s.arity

end Signature

def Symbol.signature? : Symbol → Option Signature
  | .function name args => some ⟨name, args.length⟩
  | _ => none

def Symbol.displayAll (separator : String) (symbols : List Symbol) : String :=
  separator.intercalate (symbols.map Symbol.display)

end AnswerSetTest
