import AnswerSetTest.Proofs.Ground.Substitution
import AnswerSetTest.Proofs.Resolution

/-!
# The own part of a unit

A unit's own part gives each of its parameters the constant of its name. Putting that in changes
no statement, so selecting the part gives the statements of the unit as they are written, apart from
the pools, which are expanded.
-/

namespace AnswerSetTest

namespace Statement

def rule? : Statement → Option Rule
  | .rule r => some r
  | _ => none

def external? : Statement → Option (Term × Span)
  | .external atom span => some (atom, span)
  | _ => none

/-- The signature that a statement shows; `some none` if it hides every atom. -/
def showing? : Statement → Option (Option Signature)
  | .showing signature _ => some signature
  | _ => none

end Statement

namespace Selection

/-- The signatures that directives show, if there are any. -/
def shownBy : List (Option Signature) → Option (List Signature)
  | [] => none
  | directives => some (directives.flatMap Option.toList)

/-- Statements as they are written, with all pools expanded. -/
def ofStatements (ss : List Statement) : Selection where
  rules := (ss.filterMap Statement.rule?).flatMap Rule.unpool
  externals := (ss.filterMap Statement.external?).flatMap fun e => e.1.unpool.map fun t => (t, e.2)
  shown := shownBy (ss.filterMap Statement.showing?)

theorem empty_append (s : Selection) : Selection.empty.append s = s := by
  cases s with
  | mk rules externals shown => cases shown <;> simp [append, empty, appendShown]

theorem appendShown_shownBy (signature : Option Signature)
    (directives : List (Option Signature)) :
    appendShown (some signature.toList) (shownBy directives) =
      shownBy (signature :: directives) := by
  cases directives with
  | nil => simp [appendShown, shownBy]
  | cons next directives => rfl

variable {σ : Substitution}

theorem add_append_ofStatements (h : σ.Fixes) (x : Statement) (ss : List Statement) :
    (add σ .empty x).append (ofStatements ss) = ofStatements (x :: ss) := by
  have hnone : appendShown none (shownBy (ss.filterMap Statement.showing?)) =
      shownBy (ss.filterMap Statement.showing?) := by
    cases shownBy (ss.filterMap Statement.showing?) <;> rfl
  cases x with
  | rule r =>
    rw [add, Rule.substitute_of_fixes h]
    simp [append, empty, ofStatements, hnone, List.filterMap_cons, Statement.rule?,
      Statement.external?, Statement.showing?]
  | external t span =>
    rw [add, Term.substituteAtom_of_fixes h]
    simp [append, empty, ofStatements, hnone, List.filterMap_cons, Statement.rule?,
      Statement.external?, Statement.showing?]
  | showing signature span =>
    have hshown := appendShown_shownBy signature (ss.filterMap Statement.showing?)
    simp [add, append, empty, ofStatements, hshown, List.filterMap_cons, Statement.rule?,
      Statement.external?, Statement.showing?]
  | defined signature span => exact empty_append _
  | unit d => exact empty_append _

theorem foldl_add_of_fixes (h : σ.Fixes) (ss : List Statement) :
    ss.foldl (add σ) .empty = ofStatements ss := by
  induction ss with
  | nil => rfl
  | cons x ss ih => rw [List.foldl_cons, foldl_add, ih, add_append_ofStatements h]

end Selection

namespace Program

/-- A single part that gives its unit's parameters their own names. -/
theorem select_named (p : Program) (name : String) :
    p.select [⟨name, (p.parametersOf name).map placeholder⟩] =
      .ok (.ofStatements (p.statementsOf name)) := by
  let part : Part := ⟨name, (p.parametersOf name).map placeholder⟩
  have hparts : firstOccurrences [part] = [part] := by
    simp [firstOccurrences, firstOccurrencesFrom]
  have htakes : p.Takes part := (List.length_map placeholder).symm
  have hfixes : Substitution.Fixes ((p.parametersOf name).zip part.args) :=
    Substitution.fixes_zip _
  rw [select, hparts, List.foldlM_cons, selectPart_of_takes htakes, Selection.empty_append, ofPart,
    Selection.foldl_add_of_fixes hfixes]
  rfl

end Program

namespace ProgramUnit

/-- The values of a unit's own parameters leave every rule and every atom as they are. So the own
part of a unit, which is one of its resolved parts, selects what the unit's text says. -/
theorem select_ownPart :
    (∀ d : UnitDeclaration,
      let σ : Substitution := d.parameterNames.zip (d.parameterNames.map placeholder)
      (∀ r : Rule, r.substitute σ = r) ∧ ∀ t : Term, t.substituteAtom σ = t) ∧
    ∀ {isTest : String → Bool} {p : Program} {r : Registry} {u : ProgramUnit},
      Registry.ofProgram isTest p = .ok r → u ∈ r.units →
        (∀ parts, u.resolve r = .ok parts → u.ownPart ∈ parts) ∧
        p.select [u.ownPart] = .ok (.ofStatements (p.statementsOf u.name)) := by
  refine ⟨fun d => ⟨fun r => ?_, fun t => ?_⟩, fun {isTest p r u} hr hu => ⟨fun parts h => ?_, ?_⟩⟩
  · exact r.substitute_of_fixes (Substitution.fixes_zip _)
  · exact t.substituteAtom_of_fixes (Substitution.fixes_zip _)
  · rw [(resolve_eq_ok h).1, List.mem_eraseDups]
    exact List.mem_cons_of_mem _ List.mem_cons_self
  · obtain ⟨us, hregisters⟩ := Registry.Registers.of_ofProgram hr
    rw [ownPart, ← hregisters.parametersOf_eq hu]
    exact p.select_named u.name

/-- A unit whose two parameters have the same name, which its rule and its external use. -/
theorem select_ownPart_repeated :
    let span : Span := ⟨0, 1, 1, 1, none⟩
    let x : Parameter := ⟨"x", [], span⟩
    let atom : Term := .function "p" [.pool [.constant "x", .function "x" [.constant "x"]]]
    let rule : Rule := ⟨.atom atom, [], span⟩
    let shown : Signature := ⟨"p", 1⟩
    let p : Program := ⟨"t.lp", [.unit ⟨"a", [x, x], span⟩, .rule rule, .external atom span,
      .showing (some shown) span]⟩
    let u : ProgramUnit := ⟨"a", ["x", "x"], [⟨"x", []⟩, ⟨"x", []⟩], "t.lp", 1⟩
    let r : Registry := ⟨[.root "t.lp", u], []⟩
    Registry.ofProgram (fun _ => false) p = .ok r ∧ u ∈ r.units ∧
      p.select [u.ownPart] =
        .ok ⟨rule.unpool, atom.unpool.map fun t => (t, span), some [shown]⟩ := by
  intro span x atom rule shown p u r
  have hr : Registry.ofProgram (fun _ => false) p = .ok r := by rfl
  have hu : u ∈ r.units := by simp [r]
  refine ⟨hr, hu, ?_⟩
  rw [(select_ownPart.2 hr hu).2]
  rfl

end ProgramUnit

end AnswerSetTest
