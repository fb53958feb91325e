import Std.Data.HashSet.Basic
import AnswerSetTest.Symbol

/-!
# Lists of elements

Sorted lists without repetitions, among them finite sets of symbols, first occurrences, and the
rows that take one element from each of several lists.
-/

namespace AnswerSetTest

/-- Keeps one of several equal neighbours. -/
def squeeze {α : Type} [DecidableEq α] (xs : List α) : List α :=
  xs.foldr (fun x acc =>
    match acc with
    | [] => [x]
    | y :: _ => if x = y then acc else x :: acc) []

def ascending {α : Type} [DecidableEq α] (le : α → α → Bool) (xs : List α) : List α :=
  squeeze (xs.mergeSort le)

namespace Atoms

def le (a b : Symbol) : Bool := (compare a b).isLE

def ofList (xs : List Symbol) : List Symbol := ascending le xs

def union (xs ys : List Symbol) : List Symbol := squeeze (List.merge xs ys le)

def insert (s : Symbol) : List Symbol → List Symbol
  | [] => [s]
  | x :: xs =>
    match compare s x with
    | .lt => s :: x :: xs
    | .eq => x :: xs
    | .gt => x :: insert s xs

end Atoms

/-- All rows with one element from each list, the last list varying fastest. -/
def product {α : Type} : List (List α) → List (List α)
  | [] => [[]]
  | xs :: rest =>
    let rows := product rest
    xs.flatMap fun x => rows.map (x :: ·)

def appendNew {α : Type} [DecidableEq α] (xs : List α) (x : α) : List α :=
  if x ∈ xs then xs else xs ++ [x]

def firstOccurrencesFrom {α : Type} [BEq α] [Hashable α] (seen : Std.HashSet α)
    (before : List α) : List α → List α
  | [] => before.reverse
  | x :: xs =>
    if seen.contains x then firstOccurrencesFrom seen before xs
    else firstOccurrencesFrom (seen.insert x) (x :: before) xs

def firstOccurrences {α : Type} [BEq α] [Hashable α] (xs : List α) : List α :=
  firstOccurrencesFrom ∅ [] xs

end AnswerSetTest
