import AnswerSetTest.Pattern.CharSet

/-!
# Patterns

Regular expressions with assertions about places in a text. A pattern leads from places to places;
it is found in a text if it leads from some place to another.
-/

namespace AnswerSetTest

inductive Pattern.Assertion where
  | start (lines crlf : Bool)
  | stop (lines crlf : Bool)
  | boundary
  | noBoundary
  | wordStart
  | wordStop
  | wordStartHalf
  | wordStopHalf
deriving DecidableEq

/-- Without a greatest number of times, `times` has no bound. -/
inductive Pattern where
  | empty
  | char (set : Pattern.CharSet)
  | assertion (a : Pattern.Assertion)
  | seq (p q : Pattern)
  | alt (p q : Pattern)
  | times (p : Pattern) (least : Nat) (greatest : Option Nat)
deriving Inhabited

namespace Pattern

def isWordAt (text : Array Char) (i : Nat) : Bool :=
  match text[i]? with
  | some c => CharSet.word.contains c.toNat
  | none => false

def isWordBefore (text : Array Char) : Nat → Bool
  | 0 => false
  | i + 1 => isWordAt text i

def charBefore? (text : Array Char) : Nat → Option Char
  | 0 => none
  | i + 1 => text[i]?

namespace Assertion

def holds (text : Array Char) (i : Nat) : Assertion → Bool
  | .start lines crlf =>
    i == 0 || lines && match charBefore? text i with
      | some '\n' => true
      | some '\r' => crlf && text[i]? != some '\n'
      | _ => false
  | .stop lines crlf =>
    i == text.size || lines && match text[i]? with
      | some '\n' => !(crlf && charBefore? text i == some '\r')
      | some '\r' => crlf
      | _ => false
  | .boundary => isWordBefore text i != isWordAt text i
  | .noBoundary => isWordBefore text i == isWordAt text i
  | .wordStart => !isWordBefore text i && isWordAt text i
  | .wordStop => isWordBefore text i && !isWordAt text i
  | .wordStartHalf => !isWordBefore text i
  | .wordStopHalf => !isWordAt text i

end Assertion

def iterate {α : Type} (step : α → α) : Nat → α → α
  | 0, a => a
  | n + 1, a => iterate step n (step a)

/-- The places reached in at most `n` steps; a place is taken up only once. -/
def within (step : List Nat → List Nat) : (n : Nat) → (reached places : List Nat) → List Nat
  | 0, reached, _ => reached
  | n + 1, reached, places =>
    let fresh := (step places).eraseDups.filter fun i => !reached.contains i
    if fresh.isEmpty then reached else within step n (reached ++ fresh) fresh

/-- The places to which a pattern leads from the given ones. As the places of a text are finitely
many, more repetitions than there are places lead nowhere else. -/
def ends (text : Array Char) : Pattern → List Nat → List Nat
  | .empty, places => places
  | .char set, places =>
    places.filterMap fun i =>
      match text[i]? with
      | some c => if set.contains c.toNat then some (i + 1) else none
      | none => none
  | .assertion a, places => places.filter fun i => a.holds text i
  | .seq p q, places => ends text q (ends text p places)
  | .alt p q, places => (ends text p places ++ ends text q places).eraseDups
  | .times p least greatest, places =>
    let bound := text.size + 1
    let reached := iterate (ends text p) (min least bound) places
    let more := match greatest with
      | some n => min (n - least) bound
      | none => bound
    within (ends text p) more reached reached

def isMatch (p : Pattern) (text : String) : Bool :=
  let cs := text.toList.toArray
  !(ends cs p (List.range (cs.size + 1))).isEmpty

def coversAll (p : Pattern) (text : Array Char) : Bool := (ends text p [0]).contains text.size

end Pattern

end AnswerSetTest
