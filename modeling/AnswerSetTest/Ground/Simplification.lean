import Std.Data.HashMap.Basic
import AnswerSetTest.GroundProgram
import AnswerSetTest.Ground.Instantiation

/-!
# Simplification

From instances to a ground program: symbols are numbered, the elements of counts are matched with
the known atoms, facts are found and taken out of bodies, and repeated rules are dropped. Negated
atoms that are not known are false and are dropped too.
-/

namespace AnswerSetTest

abbrev Numbering := Std.HashMap Symbol AtomId

namespace Numbering

def ofSymbols (symbols : List Symbol) : Numbering := Std.HashMap.ofList (symbols.zipIdx 1)

def numbers (ids : Numbering) (symbols : List Symbol) : List AtomId :=
  symbols.filterMap fun s => ids[s]?

end Numbering

/-- The count over the known atoms that at least one element matches. -/
def PendingCount.resolve (symbols : List Symbol) (c : PendingCount) : CountAtom where
  atoms := (symbols.zipIdx 1).filterMap fun (s, i) =>
    if c.elements.any fun t => (t.matchSymbol c.binding s).isSome then some i else none
  op := c.op
  bound := c.bound

namespace GroundRule

/-- The rules of an instance; a normal instance gives one for each head atom. -/
def ofInstance (symbols : List Symbol) (ids : Numbering) (i : Instance) : List GroundRule :=
  let head := ids.numbers i.head
  let rule : GroundRule :=
    { kind := i.kind
      head
      positives := ids.numbers i.positives
      negatives := ids.numbers i.negatives
      counts := i.counts.map (PendingCount.resolve symbols) }
  if i.kind = .normal then head.map fun a => { rule with head := [a] } else [rule]

def clause? (r : GroundRule) : Option Clause :=
  match r.kind, r.head, r.negatives, r.counts with
  | .normal, [a], [], [] => some ⟨a, r.positives⟩
  | _, _, _, _ => none

def sortIds (ids : List AtomId) : List AtomId := ascending (fun a b => decide (a ≤ b)) ids

/-- Takes facts out of the body. A rule with a negated fact is dropped. -/
def simplify? (isFact : AtomId → Bool) (r : GroundRule) : Option GroundRule :=
  if r.negatives.any isFact then none
  else
    some { r with
      positives := sortIds (r.positives.filter fun a => !isFact a)
      negatives := sortIds r.negatives }

end GroundRule

namespace GroundProgram

def ofInstances (symbols : List Symbol) (instances : List Instance)
    (shown : Option (List Signature)) : GroundProgram :=
  let ids := Numbering.ofSymbols symbols
  let rules := instances.flatMap (GroundRule.ofInstance symbols ids)
  let facts := Clause.leastModel (symbols.length + 1) (rules.filterMap GroundRule.clause?)
  { symbols
    facts
    rules := firstOccurrences
      (rules.filterMap (GroundRule.simplify? fun a => facts.getD a false))
    shown }

def distinctCounts (p : GroundProgram) : List CountAtom :=
  firstOccurrences (p.rules.flatMap GroundRule.counts)

def countNumbering (p : GroundProgram) : Std.HashMap CountAtom AtomId :=
  Std.HashMap.ofList (p.distinctCounts.zipIdx (p.symbols.length + 1))

def ruleEvent (counts : Std.HashMap CountAtom AtomId) (r : GroundRule) :
    Bool × List AtomId × List SignedAtom :=
  (r.kind = .choice, r.head,
    r.positives.map Int.ofNat ++ r.negatives.map (fun a => -Int.ofNat a) ++
      (r.counts.filterMap fun c => counts[c]?).map Int.ofNat)

def ruleEvents (p : GroundProgram) : List (Bool × List AtomId × List SignedAtom) :=
  p.rules.map (ruleEvent p.countNumbering)

def outputEvents (p : GroundProgram) : List (Symbol × AtomId) := p.symbols.zipIdx 1

def report {σ : Type} (handler : Handler σ) (p : GroundProgram) : StateM σ Unit := do
  p.ruleEvents.forM fun (choice, head, body) => handler.rule choice head body
  p.outputEvents.forM fun (symbol, a) => handler.output symbol a

/-- Grounds parts of a program: selects their statements, instantiates the rules, and reports the
ground program to the handler. -/
def ground {σ : Type} (handler : Handler σ) (program : Program) (parts : List Part) :
    ExceptT GroundFault (StateM σ) GroundProgram := fun world =>
  match program.select parts with
  | .error fault => (.error fault, world)
  | .ok selection =>
    match (Grounding.ofSelection handler selection).run.run ⟨world, ∅⟩ with
    | (.error fault, scratch) => (.error fault, scratch.world)
    | (.ok (symbols, instances), scratch) =>
      let p := ofInstances symbols instances.toList selection.shown
      (.ok p, ((p.report handler).run scratch.world).2)

end GroundProgram

end AnswerSetTest
