import AnswerSetTest.Proofs.Ground.Selection
import AnswerSetTest.Proofs.GroundProgram.RuleOrder
import AnswerSetTest.Proofs.Resolution
import AnswerSetTest.Proofs.Runner

/-!
# Unrequested units

A unit that is no test and that no other unit depends on takes no part in a run: the run is the
same without its declaration and the statements behind it.
-/

namespace AnswerSetTest

namespace Program

variable {isTest : String → Bool} {file name current : String} {p : Program}
  {d : UnitDeclaration} {ss before block after : List Statement} {parts : List Part}

/-- Nothing in a run of `p` asks for a unit that is declared by `d`, and registering it does not
fail. -/
structure Unrequested (isTest : String → Bool) (p : Program) (d : UnitDeclaration) : Prop where
  ne_root : d.name ≠ rootUnit
  undeclared : ∀ d' ∈ p.declarations, d'.name ≠ d.name
  not_test : isTest d.name = false
  undemanded : ∀ d' ∈ p.declarations, ∀ q ∈ d'.parameters, q.name ≠ d.name
  constant : ∀ q ∈ d.parameters, ∃ args, Term.values? q.args = some args

inductive StartsUnit : List Statement → Prop
  | nil : StartsUnit []
  | unit (d : UnitDeclaration) (rest : List Statement) : StartsUnit (.unit d :: rest)

def lastUnit (current : String) : List Statement → String
  | [] => current
  | .unit d :: rest => lastUnit d.name rest
  | _ :: rest => lastUnit current rest

theorem withUnits_append (current : String) (xs ys : List Statement) :
    withUnits current (xs ++ ys) = withUnits current xs ++ withUnits (lastUnit current xs) ys := by
  induction xs generalizing current with
  | nil => rfl
  | cons x xs ih =>
    cases x with
    | unit d => exact ih d.name
    | rule | external | showing | defined => exact congrArg (_ :: ·) (ih current)

theorem withUnits_of_startsUnit (h : StartsUnit ss) (current current' : String) :
    withUnits current ss = withUnits current' ss := by
  cases h with
  | nil => rfl
  | unit d rest => rfl

theorem declarations_append (xs ys : List Statement) :
    (mk file (xs ++ ys)).declarations = (mk file xs).declarations ++ (mk file ys).declarations :=
  List.filterMap_append

theorem declarations_of_no_unit (file : String) (h : ∀ d, .unit d ∉ block) :
    (mk file block).declarations = [] := by
  rw [declarations, List.filterMap_eq_nil_iff]
  intro s hs
  cases s with
  | unit d => exact absurd hs (h d)
  | rule | external | showing | defined => rfl

variable (hblock : ∀ d', .unit d' ∉ block)

include hblock

theorem declarations_insert (before after : List Statement) (d : UnitDeclaration) :
    (mk file (before ++ .unit d :: block ++ after)).declarations =
      (mk file before).declarations ++ d :: (mk file after).declarations := by
  have hunit : (mk file (.unit d :: block)).declarations = [d] :=
    congrArg (d :: ·) (declarations_of_no_unit file hblock)
  rw [declarations_append, declarations_append, hunit, List.append_assoc, List.singleton_append]

theorem parametersOf_insert (hname : name ≠ d.name) :
    (mk file (before ++ .unit d :: block ++ after)).parametersOf name =
      (mk file (before ++ after)).parametersOf name := by
  rw [parametersOf, parametersOf, declarations_insert hblock, declarations_append,
    List.find?_append, List.find?_append, List.find?_cons_of_neg (by simpa using hname.symm)]

theorem statementsOf_insert (hafter : StartsUnit after) (hname : name ≠ d.name) :
    (mk file (before ++ .unit d :: block ++ after)).statementsOf name =
      (mk file (before ++ after)).statementsOf name := by
  have hunit : withUnits (lastUnit rootUnit before) (.unit d :: block) =
      block.map fun s => (d.name, s) := withUnits_eq_map d.name hblock
  have hnone : (block.map fun s => (d.name, s)).filter (fun s => s.1 == name) = [] := by
    simp [List.filter_eq_nil_iff, hname.symm]
  rw [statementsOf, statementsOf, statementsByUnit, statementsByUnit]
  dsimp only
  rw [withUnits_append, withUnits_append, withUnits_append, hunit, List.filter_append,
    List.filter_append, List.filter_append, hnone, List.append_nil,
    withUnits_of_startsUnit hafter _ (lastUnit rootUnit before)]

theorem select_insert (hafter : StartsUnit after) (hparts : ∀ part ∈ parts, part.name ≠ d.name) :
    (mk file (before ++ .unit d :: block ++ after)).select parts =
      (mk file (before ++ after)).select parts := by
  rw [select, select]
  apply foldlM_congr
  intro part hpart s
  have hname := hparts part (mem_firstOccurrences.1 hpart)
  rw [selectPart, selectPart, parametersOf_insert hblock hname,
    statementsOf_insert hblock hafter hname]

end Program

namespace Registry

variable {isTest : String → Bool} {file name : String} {r r' : Registry} {u : ProgramUnit}
  {d : UnitDeclaration}

/-- Registries that differ at most in what is registered under a name that is no test. -/
structure AgreeBut (name : String) (r r' : Registry) : Prop where
  tests : r'.tests = r.tests
  unlisted : name ∉ r.tests
  get? : ∀ other, other ≠ name → r'.get? other = r.get? other

theorem get?_append_unit (r : Registry) (u : ProgramUnit) (tests : List String) (name : String) :
    (mk (r.units ++ [u]) tests).get? name =
      (r.get? name).or (if u.name = name then some u else none) := by
  by_cases h : u.name = name <;> simp [get?, List.find?_append, h]

namespace AgreeBut

theorem register (h : AgreeBut name r r') (hu : u.name ≠ name) (isTest : Bool) :
    SameFailure (AgreeBut name) (r.register u isTest) (r'.register u isTest) := by
  by_cases hroot : u.name = rootUnit
  · rw [register_of_root hroot, register_of_root hroot]
    exact .ok h
  · rw [register_of_ne_root hroot, register_of_ne_root hroot, contains, contains, h.get? _ hu]
    split
    · exact .error _
    · refine .ok ⟨?_, ?_, fun other hother => ?_⟩
      · rw [h.tests]
      · have hunlisted := h.unlisted
        cases isTest <;> simp [hunlisted, hu.symm]
      · rw [get?_append_unit, get?_append_unit, h.get? other hother]

theorem add (h : AgreeBut name r r') (hd : d.name ≠ name) :
    SameFailure (AgreeBut name) (r.add isTest file d) (r'.add isTest file d) := by
  cases hu : ProgramUnit.ofDeclaration file d with
  | error f =>
    rw [add_of_error hu, add_of_error hu]
    exact .error f
  | ok u =>
    rw [add_of_ok hu, add_of_ok hu]
    exact h.register (ProgramUnit.name_of_declaration hu ▸ hd) _

variable (h : AgreeBut name r r')

include h

theorem schedule_eq (hname : name ≠ rootUnit) (options : RunOptions) :
    Runner.schedule options r' = Runner.schedule options r := by
  have hroot : r'.root = r.root := by rw [root, root, h.get? _ hname.symm]
  have htests : r'.testUnits = r.testUnits := by
    rw [testUnits, testUnits, h.tests, List.filterMap_congr fun other hother => ?_]
    exact h.get? other fun heq => h.unlisted (heq ▸ hother)
  rw [Runner.schedule, Runner.schedule, hroot, htests]

theorem partsOf_eq (hu : ∀ e ∈ u.dependencies, e.target ≠ name) :
    Runner.partsOf r' u = Runner.partsOf r u := by
  have hmap : u.dependencies.mapM (u.dependencyPart r') =
      u.dependencies.mapM (u.dependencyPart r) := by
    apply mapM_congr
    intro e he
    rw [ProgramUnit.dependencyPart, ProgramUnit.dependencyPart, h.get? _ (hu e he)]
  rw [Runner.partsOf, Runner.partsOf, ProgramUnit.resolve, ProgramUnit.resolve, hmap]

end AgreeBut

theorem exists_add_eq_ok {ds : List UnitDeclaration} {us : List ProgramUnit}
    (h : Registers isTest file ds us r) (hroot : d.name ≠ rootUnit)
    (hds : ∀ d' ∈ ds, d'.name ≠ d.name) (htest : isTest d.name = false)
    (hconstant : ∀ q ∈ d.parameters, ∃ args, Term.values? q.args = some args) :
    ∃ r', r.add isTest file d = .ok r' ∧ AgreeBut d.name r r' := by
  have hnew : d.name ∉ r.units.map ProgramUnit.name := by
    intro hmem
    obtain ⟨u, hu, hname⟩ := List.mem_map.1 hmem
    rcases h.exists_declaration hu with rfl | ⟨d', hd', -, hdu⟩
    · exact hroot hname.symm
    · exact hds d' hd' ((ProgramUnit.name_of_declaration hdu).symm.trans hname)
  have hget : r.get? d.name = none := get?_eq_none_iff.2 hnew
  obtain ⟨u, hu⟩ : ∃ u, ProgramUnit.ofDeclaration file d = .ok u := by
    rcases mapM_cases (ProgramUnit.dependency d) d.parameters with ⟨es, hes, -⟩ | ⟨f, -, q, hq, hf⟩
    · rw [ProgramUnit.ofDeclaration, hes]
      exact ⟨_, rfl⟩
    · obtain ⟨args, hargs⟩ := hconstant q hq
      rw [ProgramUnit.dependency, hargs] at hf
      cases hf
  have hname := ProgramUnit.name_of_declaration hu
  refine ⟨⟨r.units ++ [u], r.tests⟩, ?_, rfl, ?_, fun other hother => ?_⟩
  · rw [add_of_ok hu, register_of_ne_root (hname ▸ hroot), contains, hname, hget, htest]
    rfl
  · intro hmem
    rw [h.tests] at hmem
    obtain ⟨v, hv, hvname⟩ := List.mem_map.1 hmem
    have hvtest := (List.mem_filter.1 hv).2
    rw [hvname, htest] at hvtest
    cases hvtest
  · rw [get?_append_unit, if_neg (hname ▸ hother.symm), Option.or_none]

/-- Both programs are refused alike, or their registries differ in the unit that is inserted. -/
theorem ofProgram_insert {before block after : List Statement}
    (hblock : ∀ d', .unit d' ∉ block)
    (hd : Program.Unrequested isTest ⟨file, before ++ after⟩ d) :
    SameFailure (AgreeBut d.name) (ofProgram isTest ⟨file, before ++ after⟩)
      (ofProgram isTest ⟨file, before ++ .unit d :: block ++ after⟩) := by
  have hundeclared := hd.undeclared
  rw [Program.declarations_append] at hundeclared
  rw [ofProgram_eq_foldlM, ofProgram_eq_foldlM, Program.declarations_insert hblock,
    Program.declarations_append, List.foldlM_append, List.foldlM_append]
  cases hr : (Program.mk file before).declarations.foldlM (add isTest file) (new file) with
  | error f => exact .error f
  | ok r =>
    obtain ⟨us, hregisters⟩ := (Registers.new isTest file).addAll hr
    obtain ⟨r', hr', hagree⟩ := exists_add_eq_ok hregisters hd.ne_root
      (fun d' hd' => hundeclared d' (List.mem_append_left _ hd')) hd.not_test hd.constant
    change SameFailure _ (List.foldlM _ r _) (List.foldlM _ r (d :: _))
    rw [List.foldlM_cons, hr']
    exact .foldlM (fun d' hd' r r' h => h.add (hundeclared d' (List.mem_append_right _ hd'))) hagree

end Registry

namespace Runner

variable {κ φ ω : Type} {options : RunOptions} {p p' : Program} {r r' : Registry}
  {u : ProgramUnit} {us : List ProgramUnit} {parts : List Part} {part : Part}

theorem name_of_partsOf (h : partsOf r u = .ok parts) (hpart : part ∈ parts) :
    part.name = rootUnit ∨ part.name = u.name ∨ ∃ e ∈ u.dependencies, part.name = e.target := by
  rw [partsOf] at h
  split at h
  · cases h
    rw [List.mem_singleton.1 hpart]
    exact .inl rfl
  · obtain ⟨rfl, -⟩ := ProgramUnit.resolve_eq_ok h
    rw [List.mem_eraseDups, List.mem_cons, List.mem_cons, List.mem_map] at hpart
    rcases hpart with rfl | rfl | ⟨e, he, rfl⟩
    · exact .inl rfl
    · exact .inr (.inl rfl)
    · exact .inr (.inr ⟨e, he, rfl⟩)

/-- A run of a unit depends on the program only through what is selected for the unit. -/
theorem runUnit_congr (limit : Nat) (functions : FunctionTable φ) (options : RunOptions)
    (hparts : partsOf r' u = partsOf r u)
    (hselect : ∀ parts, partsOf r u = .ok parts → p'.select parts = p.select parts) :
    (exhaustive limit functions options : Runner Control φ ω).runUnit p' r' u =
      (exhaustive limit functions options).runUnit p r u := by
  apply StateT.ext
  intro s
  cases h : partsOf r u with
  | error f => rw [runUnit_of_parts_error h, runUnit_of_parts_error (hparts.trans h)]
  | ok parts =>
    have hground : GroundProgram.ground (Session.handler functions) p' parts (begun options u s) =
        GroundProgram.ground (Session.handler functions) p parts (begun options u s) := by
      rw [GroundProgram.ground_eq_ofSelection, GroundProgram.ground_eq_ofSelection, hselect parts h]
    cases hg : GroundProgram.ground (Session.handler functions) p parts (begun options u s) with
    | mk result s' =>
      rw [hg] at hground
      cases result with
      | error fault =>
        rw [runUnit_of_ground_error h hg, runUnit_of_ground_error (hparts.trans h) hground]
      | ok g => rw [runUnit_of_ground h hg, runUnit_of_ground (hparts.trans h) hground]

theorem runUnits_congr {runner : Runner κ φ ω} (sink : Report → StateM ω (Except Failure Unit))
    (h : ∀ u ∈ us, runner.runUnit p' r' u = runner.runUnit p r u) :
    runner.runUnits sink p' r' us = runner.runUnits sink p r us := by
  induction us with
  | nil => rfl
  | cons u us ih =>
    rw [List.forall_mem_cons] at h
    rw [runUnits, runUnits, h.1, ih h.2]

theorem mem_units_of_mem_schedule {isTest : String → Bool} {file : String}
    {ds : List UnitDeclaration} (h : Registry.Registers isTest file ds us r)
    (hu : u ∈ schedule options r) : u ∈ r.units := by
  have htests : ∀ v ∈ r.testUnits, v ∈ r.units := by
    intro v hv
    rw [h.testUnits_eq, List.mem_mergeSort] at hv
    rw [h.units]
    exact List.mem_cons_of_mem _ (List.mem_of_mem_filter hv)
  rw [schedule] at hu
  split at hu
  · rw [h.root_eq, List.mem_cons] at hu
    rcases hu with rfl | hu
    · rw [h.units]
      exact List.mem_cons_self
    · exact htests u hu
  · exact htests u hu

theorem ne_of_unrequested {isTest : String → Bool} {d : UnitDeclaration}
    (hd : p.Unrequested isTest d) (h : Registry.Registers isTest p.sourceName p.declarations us r)
    (hu : u ∈ r.units) : u.name ≠ d.name ∧ ∀ e ∈ u.dependencies, e.target ≠ d.name := by
  rcases h.exists_declaration hu with rfl | ⟨d', hd', -, hdu⟩
  · exact ⟨hd.ne_root.symm, nofun⟩
  · refine ⟨ProgramUnit.name_of_declaration hdu ▸ hd.undeclared d' hd', fun e he => ?_⟩
    obtain ⟨q, hq, htarget, -⟩ :=
      (exists_mem_of_forall₂ (ProgramUnit.dependencies_of_declaration hdu)).2 e he
    exact htarget ▸ hd.undemanded d' hd' q hq

/-- A run does not notice a unit that nothing asks for. -/
theorem runProgram_insert_unit (limit : Nat) (functions : FunctionTable φ) (options : RunOptions)
    (sink : Report → StateM ω (Except Failure Unit)) (file : String)
    {before block after : List Statement} {d : UnitDeclaration}
    (hd : Program.Unrequested options.isTest ⟨file, before ++ after⟩ d)
    (hblock : ∀ d', .unit d' ∉ block) (hafter : Program.StartsUnit after) :
    (exhaustive limit functions options).runProgram sink
        ⟨file, before ++ .unit d :: block ++ after⟩ =
      (exhaustive limit functions options).runProgram sink ⟨file, before ++ after⟩ := by
  have hregistries := Registry.ofProgram_insert hblock hd
  cases hr : Registry.ofProgram options.isTest ⟨file, before ++ after⟩ with
  | error f =>
    rw [hr] at hregistries
    rw [runProgram_of_error hregistries.eq_error, runProgram_of_error hr]
  | ok r =>
    rw [hr] at hregistries
    obtain ⟨r', hr', hagree⟩ := hregistries.exists_eq_ok
    rw [runProgram_of_ok hr', runProgram_of_ok hr]
    change runUnits _ sink _ r' (schedule options r') = runUnits _ sink _ r (schedule options r)
    rw [hagree.schedule_eq hd.ne_root]
    apply runUnits_congr sink
    intro u hu
    obtain ⟨us, hregisters⟩ := Registry.Registers.of_ofProgram hr
    obtain ⟨hname, htargets⟩ :=
      ne_of_unrequested hd hregisters (mem_units_of_mem_schedule hregisters hu)
    apply runUnit_congr limit functions options (hagree.partsOf_eq htargets)
    intro parts hparts
    apply Program.select_insert hblock hafter
    intro part hpart
    rcases name_of_partsOf hparts hpart with h | h | ⟨e, he, h⟩
    · exact h ▸ hd.ne_root.symm
    · exact h ▸ hname
    · exact h ▸ htargets e he

/-- A unit that hides all atoms, between the unit that is run and the unit that this one depends
on. -/
theorem runProgram_insert_unit_hiding :
    let given : UnitDeclaration := ⟨"given", [], default⟩
    let test : UnitDeclaration := ⟨"test", [⟨"given", [], default⟩], default⟩
    let d : UnitDeclaration := ⟨"hiding", [⟨"test", [.number 1], default⟩], default⟩
    let block : List Statement := [.showing none default,
      .rule ⟨.atom (.constant "a"), [], default⟩]
    let options : RunOptions := ⟨true, fun name => name == "test", ⟨[], 80⟩⟩
    let r : Runner Control Unit (List Report) := exhaustive Control.defaultLimit .empty options
    Program.Unrequested options.isTest ⟨"t.lp", [.unit test, .unit given]⟩ d ∧
      r.runProgram keepReport ⟨"t.lp", [.unit test] ++ .unit d :: block ++ [.unit given]⟩ =
        r.runProgram keepReport ⟨"t.lp", [.unit test, .unit given]⟩ := by
  intro given test d block options r
  have hd : Program.Unrequested options.isTest ⟨"t.lp", [.unit test] ++ [.unit given]⟩ d :=
    ⟨by decide, by decide, by decide, by decide, by simp [d, Term.values?, Term.value?]⟩
  refine ⟨hd, runProgram_insert_unit Control.defaultLimit .empty options keepReport "t.lp" hd ?_
    (.unit given [])⟩
  simp [block]

end Runner

end AnswerSetTest
