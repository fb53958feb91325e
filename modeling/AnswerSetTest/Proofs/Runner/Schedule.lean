import Mathlib.Data.String.Basic
import AnswerSetTest.Proofs.Registry
import AnswerSetTest.Proofs.Runner

/-!
# Schedules

The test units of a program are scheduled by file, and in the order of their declarations within a
file. A run takes the scheduled units one after another, sends each report to the sink as it is
made, and ends at the first unit that fails.
-/

namespace AnswerSetTest

/-- Sorting leaves elements in order that may stand in any order. -/
theorem filter_mergeSort {α : Type} {le : α → α → Bool}
    (trans : ∀ a b c, le a b → le b c → le a c) (total : ∀ a b, le a b || le b a) {p : α → Bool}
    (h : ∀ a b, p a → p b → le a b) (xs : List α) :
    (xs.mergeSort le).filter p = xs.filter p := by
  have hsorted : (xs.filter p).Pairwise fun a b => le a b := by
    rw [List.pairwise_filter]
    exact List.pairwise_of_forall fun {a b} ha hb => h a b ha hb
  have hsub : (xs.filter p).Sublist (xs.mergeSort le) :=
    List.sublist_mergeSort trans total hsorted List.filter_sublist
  have hfilter : (xs.filter p).Sublist ((xs.mergeSort le).filter p) := by
    simpa using hsub.filter p
  have hlength : (xs.filter p).length = ((xs.mergeSort le).filter p).length :=
    ((List.mergeSort_perm xs le).filter p).length_eq.symm
  exact (hfilter.eq_of_length hlength).symm

namespace Runner

/-- The units `tests` are the units `declared`, each once, sorted by file. Those of one file stand
in the order of `declared`. -/
structure InOrder (declared tests : List ProgramUnit) : Prop where
  perm : tests.Perm declared
  nodup : (tests.map ProgramUnit.name).Nodup
  ascending : tests.Pairwise fun u v => u.file ≤ v.file
  declaration : ∀ file : String,
    (tests.filter fun u => u.file = file) = declared.filter fun u => u.file = file

theorem inOrder_mergeSort {declared : List ProgramUnit}
    (h : (declared.map ProgramUnit.name).Nodup) :
    InOrder declared (declared.mergeSort fun u v => decide (u.file ≤ v.file)) := by
  have trans : ∀ u v w : ProgramUnit, decide (u.file ≤ v.file) → decide (v.file ≤ w.file) →
      decide (u.file ≤ w.file) := fun u v w huv hvw =>
    decide_eq_true ((of_decide_eq_true huv).trans (of_decide_eq_true hvw))
  have total : ∀ u v : ProgramUnit, decide (u.file ≤ v.file) || decide (v.file ≤ u.file) :=
    fun u v => by simpa using le_total u.file v.file
  have hperm := List.mergeSort_perm declared fun u v => decide (u.file ≤ v.file)
  refine ⟨hperm, ((hperm.map ProgramUnit.name).nodup_iff).2 h, ?_, fun file => ?_⟩
  · exact (List.pairwise_mergeSort trans total declared).imp of_decide_eq_true
  · apply filter_mergeSort trans total
    intro u v hu hv
    exact decide_eq_true (((of_decide_eq_true hu).trans (of_decide_eq_true hv).symm).le)

theorem exists_schedule {options : RunOptions} {p : Program} {registry : Registry}
    (h : Registry.ofProgram options.isTest p = .ok registry) :
    ∃ declared tests,
      List.Forall₂ (fun d u => ProgramUnit.ofDeclaration p.sourceName d = .ok u)
        (p.declarations.filter fun d => options.isTest d.name ∧ d.name ≠ rootUnit) declared ∧
      InOrder declared tests ∧
      schedule options registry =
        (if options.runRoot then [.root p.sourceName] else []) ++ tests := by
  obtain ⟨us, hregisters⟩ := Registry.Registers.of_ofProgram h
  have hnodup : (us.map ProgramUnit.name).Nodup := by
    have hunits := hregisters.nodup
    rw [hregisters.units] at hunits
    exact hunits.of_cons
  have htests := inOrder_mergeSort
    (hnodup.sublist (List.filter_sublist (p := fun u => options.isTest u.name).map _))
  rw [← hregisters.testUnits_eq] at htests
  refine ⟨_, registry.testUnits, ?_, htests, ?_⟩
  · have hmatch : ∀ d u, ProgramUnit.ofDeclaration p.sourceName d = .ok u →
        (options.isTest d.name ↔ options.isTest u.name) := fun d u hdu => by
      rw [ProgramUnit.name_of_declaration hdu]
    have hfilter := List.rel_filter (p := fun d => options.isTest d.name)
      (q := fun u => options.isTest u.name) (fun {d u} => hmatch d u) hregisters.declared
    simpa [List.filter_filter] using hfilter
  · rw [schedule, hregisters.root_eq]
    split <;> rfl

section Run

variable {κ φ ω : Type}

/-- All units pass, one after another: each report is sent to the sink before the next unit is
run. -/
inductive Passes (r : Runner κ φ ω) (sink : Report → StateM ω (Except Failure Unit))
    (p : Program) (registry : Registry) :
    List ProgramUnit → List Report → Session φ ω → Session φ ω → Prop
  | nil (s : Session φ ω) : Passes r sink p registry [] [] s s
  | cons {u us report reports s s₁ s₂ w} (unit : (r.runUnit p registry u).run s = (.ok report, s₁))
      (send : (sink report).run s₁.outer = (.ok (), w))
      (rest : Passes r sink p registry us reports { s₁ with outer := w } s₂) :
      Passes r sink p registry (u :: us) (report :: reports) s s₂

variable {r : Runner κ φ ω} {sink : Report → StateM ω (Except Failure Unit)} {p : Program}
  {registry : Registry} {u : ProgramUnit} {us : List ProgramUnit} {reports : List Report}
  {s s' : Session φ ω}

theorem Passes.length_eq (h : r.Passes sink p registry us reports s s') :
    reports.length = us.length := by
  induction h with
  | nil s => rfl
  | cons unit send rest ih => rw [List.length_cons, List.length_cons, ih]

/-- A log to which the sink appends its reports, and which the runs of units leave alone. -/
structure Logs (r : Runner κ φ ω) (sink : Report → StateM ω (Except Failure Unit)) (p : Program)
    (registry : Registry) (log : ω → List Report) : Prop where
  sink : ∀ report w, log ((sink report).run w).2 = log w ++ [report]
  unit : ∀ u s, log ((r.runUnit p registry u).run s).2.outer = log s.outer

theorem Passes.log_eq {log : ω → List Report} (h : r.Passes sink p registry us reports s s')
    (hlog : r.Logs sink p registry log) : log s'.outer = log s.outer ++ reports := by
  induction h with
  | nil s => rw [List.append_nil]
  | @cons u us report reports s s₁ s₂ w unit send rest ih =>
    have hunit : log s₁.outer = log s.outer := by
      have h := hlog.unit u s
      rwa [unit] at h
    have hsend : log w = log s₁.outer ++ [report] := by
      have h := hlog.sink report s₁.outer
      rwa [send] at h
    rw [ih, hsend, hunit, List.append_assoc, List.singleton_append]

theorem run_runUnits_nil : (r.runUnits sink p registry []).run s = (.ok [], s) :=
  rfl

theorem run_runUnits_cons_of_error {f : Failure}
    (h : (r.runUnit p registry u).run s = (.error f, s')) :
    (r.runUnits sink p registry (u :: us)).run s = (.error (.inUnit u.name u.location f), s') := by
  rw [runUnits, StateT.run_bind, h]
  rfl

theorem run_runUnits_cons_of_ok {report : Report} {w : ω}
    (h : (r.runUnit p registry u).run s = (.ok report, s'))
    (hsink : (sink report).run s'.outer = (.ok (), w)) :
    (r.runUnits sink p registry (u :: us)).run s =
      (((r.runUnits sink p registry us).run { s' with outer := w }).1.map (report :: ·),
        ((r.runUnits sink p registry us).run { s' with outer := w }).2) := by
  have hsend : (Session.withOuter (sink report)).run s' = (.ok (), { s' with outer := w }) := by
    change (((sink report).run s'.outer).1, { s' with outer := ((sink report).run s'.outer).2 }) = _
    rw [hsink]
  rw [runUnits, StateT.run_bind, h]
  change (Session.withOuter (sink report) >>= _ :
    StateM (Session φ ω) (Except Failure (List Report))).run s' = _
  rw [StateT.run_bind, hsend]
  change (r.runUnits sink p registry us >>= _ :
    StateM (Session φ ω) (Except Failure (List Report))).run { s' with outer := w } = _
  rw [StateT.run_bind]
  cases h : (r.runUnits sink p registry us).run { s' with outer := w } with
  | mk result s'' =>
    cases result with
    | ok reports => rfl
    | error f => rfl

theorem runUnits_cases (r : Runner κ φ ω) {sink : Report → StateM ω (Except Failure Unit)}
    (p : Program) (registry : Registry) (hsink : ∀ report w, ((sink report).run w).1 = .ok ())
    (us : List ProgramUnit) (s : Session φ ω) :
    (∃ reports s', (r.runUnits sink p registry us).run s = (.ok reports, s') ∧
      r.Passes sink p registry us reports s s') ∨
    ∃ before u after reports f s₁ s', us = before ++ u :: after ∧
      r.Passes sink p registry before reports s s₁ ∧
      (r.runUnit p registry u).run s₁ = (.error f, s') ∧
      (r.runUnits sink p registry us).run s = (.error (.inUnit u.name u.location f), s') := by
  induction us generalizing s with
  | nil => exact .inl ⟨[], s, run_runUnits_nil, .nil s⟩
  | cons u us ih =>
    cases hunit : (r.runUnit p registry u).run s with
    | mk result s₁ =>
      cases result with
      | error f =>
        exact .inr ⟨[], u, us, [], f, s, s₁, rfl, .nil s, hunit, run_runUnits_cons_of_error hunit⟩
      | ok report =>
        have hsend : (sink report).run s₁.outer = (.ok (), ((sink report).run s₁.outer).2) :=
          Prod.ext (hsink report s₁.outer) rfl
        rw [run_runUnits_cons_of_ok hunit hsend]
        rcases ih { s₁ with outer := ((sink report).run s₁.outer).2 } with
          ⟨reports, s', hrun, hpass⟩ | ⟨before, v, after, reports, f, s₂, s', rfl, hpass, hv, hrun⟩
        · rw [hrun]
          exact .inl ⟨report :: reports, s', rfl, .cons hunit hsend hpass⟩
        · rw [hrun]
          exact .inr ⟨u :: before, v, after, report :: reports, f, s₂, s', rfl,
            .cons hunit hsend hpass, hv, rfl⟩

/-- The scheduled units are the root unit, if it is run, and the declared units that match, in
order. A run ends at the first of them that fails, and gives its failure, with the unit's name and
place. The sink has got the reports of the units before it, or of all units if none fails. -/
theorem runProgram_in_order (r : Runner κ φ ω) (sink : Report → StateM ω (Except Failure Unit))
    (p : Program) (registry : Registry)
    (hregistry : Registry.ofProgram r.options.isTest p = .ok registry)
    (hsink : ∀ report w, ((sink report).run w).1 = .ok ()) (s : Session φ ω) :
    (∃ declared tests,
      List.Forall₂ (fun d u => ProgramUnit.ofDeclaration p.sourceName d = .ok u)
        (p.declarations.filter fun d => r.options.isTest d.name ∧ d.name ≠ rootUnit) declared ∧
      InOrder declared tests ∧
      schedule r.options registry =
        (if r.options.runRoot then [.root p.sourceName] else []) ++ tests) ∧
    (∀ reports s', (r.runProgram sink p).run s = (.ok reports, s') →
      r.Passes sink p registry (schedule r.options registry) reports s s' ∧
      reports.length = (schedule r.options registry).length ∧
      ∀ log, r.Logs sink p registry log → log s'.outer = log s.outer ++ reports) ∧
    ∀ f s', (r.runProgram sink p).run s = (.error f, s') →
      ∃ before u after reports g s₁,
        schedule r.options registry = before ++ u :: after ∧
        r.Passes sink p registry before reports s s₁ ∧
        (r.runUnit p registry u).run s₁ = (.error g, s') ∧
        f = .inUnit u.name (u.file ++ ":" ++ toString u.line) g ∧
        ∀ log, r.Logs sink p registry log → log s'.outer = log s.outer ++ reports := by
  refine ⟨exists_schedule hregistry, ?_⟩
  rw [runProgram_of_ok hregistry]
  rcases runUnits_cases r p registry hsink (schedule r.options registry) s with
    ⟨reports, s', hok, hpass⟩ | ⟨before, u, after, reports, g, s₁, s', hsplit, hpass, hu, herror⟩
  · rw [hok]
    refine ⟨fun reports' s'' h => ?_, nofun⟩
    cases h
    exact ⟨hpass, hpass.length_eq, fun log hlog => hpass.log_eq hlog⟩
  · rw [herror]
    refine ⟨nofun, fun f s'' h => ?_⟩
    cases h
    refine ⟨before, u, after, reports, g, s₁, hsplit, hpass, hu, rfl, fun log hlog => ?_⟩
    have hunit := hlog.unit u s₁
    rw [hu] at hunit
    rw [hunit, hpass.log_eq hlog]

end Run

section Exhaustive

variable {φ ω : Type}

theorem outer_handOver (ms : List Model) (s : Session φ ω) :
    (handOver Session.onModel ms s).state.outer = s.outer := by
  induction ms generalizing s with
  | nil => rfl
  | cons m ms ih =>
    rw [handOver, Session.run_onModel]
    cases (s.tester.addModel m).hasFailed with
    | true => rfl
    | false => exact ih { s with tester := s.tester.addModel m }

theorem outer_ground (functions : FunctionTable φ) (program : Program) (parts : List Part)
    (s : Session φ ω) :
    (GroundProgram.ground (Session.handler functions) program parts s).2.outer = s.outer := by
  have hsim : (Session.handler (ω := ω) functions).Simulates
      (fun t t' => t = t' ∧ t.outer = s.outer) (Session.handler functions) :=
    ⟨fun _ _ _ _ ⟨h, ho⟩ => h ▸ ⟨rfl, rfl, ho⟩, fun _ _ _ _ _ ⟨h, ho⟩ => h ▸ ⟨rfl, ho⟩,
      fun _ _ _ _ ⟨h, ho⟩ => h ▸ ⟨rfl, ho⟩⟩
  exact (GroundProgram.agree_ground hsim program parts s s ⟨rfl, rfl⟩).2.2

/-- Without middleware only the sink has to do with the outer state. -/
theorem outer_runUnit (limit : Nat) (functions : FunctionTable φ) (options : RunOptions)
    (program : Program) (registry : Registry) (u : ProgramUnit) (s : Session φ ω) :
    (((exhaustive limit functions options).runUnit program registry u).run s).2.outer =
      s.outer := by
  cases h : partsOf registry u with
  | error f => rw [runUnit_of_parts_error h]
  | ok parts =>
    have houter := outer_ground functions program parts (begun options u s)
    cases hg : GroundProgram.ground (Session.handler functions) program parts
        (begun options u s) with
    | mk result s' =>
      rw [hg] at houter
      cases result with
      | error fault => rw [runUnit_of_ground_error h hg, houter, begun]
      | ok p =>
        rw [runUnit_of_ground h hg]
        split
        · rw [houter, begun]
        · rw [outer_handOver, houter, begun]

/-- The reports that are kept are those of the units before the one that fails, which here is the
unit of the file that comes first. -/
theorem runProgram_in_order_by_file :
    let missing : Parameter := ⟨"missing", [], default⟩
    let p : Program := ⟨"t.lp", [.unit ⟨"test_b", [missing], ⟨0, 0, 3, 1, some "b.lp"⟩⟩,
      .unit ⟨"test_a", [missing], ⟨0, 0, 7, 1, some "a.lp"⟩⟩]⟩
    let r : Runner Control Unit (List Report) :=
      exhaustive Control.defaultLimit .empty ⟨false, fun _ => true, ⟨[], 80⟩⟩
    ∃ registry s', Registry.ofProgram r.options.isTest p = .ok registry ∧
      (∀ report reports, ((keepReport report).run reports).1 = .ok ()) ∧
      (r.runProgram keepReport p).run (.start () []) =
        (.error (.inUnit "test_a" "a.lp:7" (.unknownDependency "test_a" "missing")), s') ∧
      ∃ before u after, schedule r.options registry = before ++ u :: after ∧ u.name = "test_a" ∧
        s'.outer.length = before.length := by
  intro missing p r
  let unit (name file : String) (line : Nat) : ProgramUnit :=
    ⟨name, ["missing"], [⟨"missing", []⟩], file, line⟩
  let registry : Registry := ⟨[.root "t.lp", unit "test_b" "b.lp" 3, unit "test_a" "a.lp" 7],
    ["test_b", "test_a"]⟩
  have hregistry : Registry.ofProgram r.options.isTest p = .ok registry := by rfl
  have hsink : ∀ report reports, ((keepReport report).run reports).1 = .ok () :=
    fun _ _ => rfl
  have htests : registry.tests.filterMap registry.get? =
      [unit "test_b" "b.lp" 3, unit "test_a" "a.lp" 7] := by rfl
  have hschedule : schedule r.options registry =
      [unit "test_a" "a.lp" 7, unit "test_b" "b.lp" 3] := by
    have hfile : ¬ "b.lp" ≤ "a.lp" := by decide
    change registry.testUnits = _
    rw [Registry.testUnits, htests, List.mergeSort]
    simp [unit, hfile]
  have hparts : partsOf registry (unit "test_a" "a.lp" 7) =
      .error (.unknownDependency "test_a" "missing") := by rfl
  have hlocation : (unit "test_a" "a.lp" 7).location = "a.lp:7" := by decide
  have hrun : (r.runProgram keepReport p).run (.start () []) =
      (.error (.inUnit "test_a" "a.lp:7" (.unknownDependency "test_a" "missing")),
        .start () []) := by
    rw [runProgram_of_ok hregistry, hschedule,
      run_runUnits_cons_of_error (runUnit_of_parts_error hparts), hlocation]
  have hlog : r.Logs keepReport p registry id := ⟨fun _ _ => rfl, outer_runUnit _ _ _ p registry⟩
  obtain ⟨-, -, herror⟩ :=
    runProgram_in_order r keepReport p registry hregistry hsink (.start () [])
  obtain ⟨before, u, after, reports, g, s₁, hsplit, hpass, -, hf, hreports⟩ := herror _ _ hrun
  refine ⟨registry, _, hregistry, hsink, hrun, before, u, after, hsplit, ?_, ?_⟩
  · exact (Failure.inUnit.inj hf).1.symm
  · have hkept := hreports id hlog
    exact (congrArg List.length hkept).trans hpass.length_eq

end Exhaustive

end Runner

end AnswerSetTest
