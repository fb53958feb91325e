import AnswerSetTest.Proofs.Control
import AnswerSetTest.Proofs.Ground.Calls

/-!
# The life of a control

A sequence of operations on one control as the list of its steps. Whatever the operations, at most
one grounding succeeds, one that fails leaves the control as it was and has reported nothing, and
after the first search nothing is done any more.
-/

namespace AnswerSetTest.Control

inductive Operation (ω : Type) where
  | ground (handler : Handler ω) (parts : List Part)
  | solve (onModel : Model → StateM ω Bool)

variable {ω : Type}

/-- Only a search gives a summary. -/
def Operation.run : Operation ω → Control → StateM ω (Except Failure (Option Summary) × Control)
  | .ground handler parts, c => do
    let (result, c) ← Control.ground handler parts c
    return (result.map fun _ => none, c)
  | .solve onModel, c => do
    let (result, c) ← Control.solve onModel c
    return (result.map some, c)

structure Step (ω : Type) where
  operation : Operation ω
  before : Control
  worldBefore : ω

namespace Step

def outcome (s : Step ω) : Except Failure (Option Summary) :=
  ((s.operation.run s.before).run s.worldBefore).1.1

def after (s : Step ω) : Control := ((s.operation.run s.before).run s.worldBefore).1.2

def worldAfter (s : Step ω) : ω := ((s.operation.run s.before).run s.worldBefore).2

def Succeeds (s : Step ω) : Prop := ∃ summary, s.outcome = .ok summary

def Grounds (s : Step ω) : Prop := ∃ handler parts, s.operation = .ground handler parts

def Solves (s : Step ω) : Prop := ∃ onModel, s.operation = .solve onModel

end Step

def steps : List (Operation ω) → Control → ω → List (Step ω)
  | [], _, _ => []
  | operation :: rest, c, w =>
    let s : Step ω := ⟨operation, c, w⟩
    s :: steps rest s.after s.worldAfter

theorem forall_steps {P : Control → Prop} (hstep : ∀ s : Step ω, P s.before → P s.after)
    {c : Control} (hc : P c) (ops : List (Operation ω)) (w : ω) :
    ∀ s ∈ steps ops c w, P s.before := by
  induction ops generalizing c w with
  | nil => simp [steps]
  | cons op ops ih => exact List.forall_mem_cons.2 ⟨hc, ih (hstep ⟨op, c, w⟩ hc) _⟩

/-- What a step makes true of a control and every step keeps holds before all later steps. -/
theorem pairwise_steps {P : Step ω → Control → Prop} (hafter : ∀ s, P s s.after)
    (hstep : ∀ s t : Step ω, P s t.before → P s t.after) (ops : List (Operation ω)) (c : Control)
    (w : ω) : (steps ops c w).Pairwise fun s t => P s t.before := by
  induction ops generalizing c w with
  | nil => exact .nil
  | cons op ops ih =>
    let s : Step ω := ⟨op, c, w⟩
    exact .cons (forall_steps (hstep s) (hafter s) ops s.worldAfter) (ih s.after s.worldAfter)

namespace Step

variable {s : Step ω} {handler : Handler ω} {parts : List Part} {p : GroundProgram}

/-- A spent control refuses every operation, without a use of handler or callback. -/
theorem run_of_spent (h : s.before.phase = .spent p) :
    s.operation.run s.before = pure (.error .spentControl, s.before) := by
  cases s.operation with
  | ground handler parts => rw [Operation.run, ground_spent h]; rfl
  | solve onModel => rw [Operation.run, solve_spent onModel h]; rfl

theorem outcome_of_spent (h : s.before.phase = .spent p) : s.outcome = .error .spentControl := by
  rw [outcome, run_of_spent h]
  rfl

theorem after_of_spent (h : s.before.phase = .spent p) : s.after = s.before := by
  rw [after, run_of_spent h]
  rfl

theorem phase_of_solves (h : s.Solves) : s.after.phase = .spent s.before.phase.ground := by
  obtain ⟨onModel, h⟩ := h
  have hphase := phase_solve onModel s.worldBefore (c := s.before)
  rw [after, h]
  exact hphase

theorem run_of_grounded (ho : s.operation = .ground handler parts)
    (h : s.before.phase = .grounded p) :
    s.operation.run s.before = pure (.error (.ground .alreadyGrounded), s.before) := by
  rw [ho, Operation.run, ground_grounded h]
  rfl

theorem after_of_not_fresh (h : s.before.phase ≠ .fresh) :
    s.after.phase ≠ .fresh ∧ s.after.atoms = s.before.atoms := by
  cases hp : s.before.phase with
  | fresh => exact absurd hp h
  | spent p =>
    rw [after_of_spent hp]
    exact ⟨h, rfl⟩
  | grounded p =>
    cases ho : s.operation with
    | ground handler parts =>
      have hsame : s.after = s.before := by
        rw [after, run_of_grounded ho hp]
        rfl
      rw [hsame]
      exact ⟨h, rfl⟩
    | solve onModel =>
      have hphase := phase_of_solves ⟨onModel, ho⟩
      rw [atoms, atoms, hphase]
      exact ⟨nofun, rfl⟩

theorem phase_of_grounds (hg : s.Grounds) (hs : s.Succeeds) :
    s.before.phase = .fresh ∧ s.after.phase ≠ .fresh := by
  obtain ⟨handler, parts, ho⟩ := hg
  obtain ⟨summary, hs⟩ := hs
  cases hp : s.before.phase with
  | grounded p =>
    rw [outcome, run_of_grounded ho hp] at hs
    cases hs
  | spent p =>
    rw [outcome_of_spent hp] at hs
    cases hs
  | fresh =>
    refine ⟨rfl, ?_⟩
    rw [outcome, ho] at hs
    rw [after, ho]
    cases hrun : GroundProgram.ground handler s.before.program parts s.worldBefore with
    | mk r w =>
      cases r with
      | ok p =>
        simp only [Operation.run, StateT.run_bind, ground_of_ok hp hrun]
        exact nofun
      | error fault =>
        simp only [Operation.run, StateT.run_bind, ground_of_error hp hrun] at hs
        cases hs

end Step

variable {handler : Handler ω} {parts : List Part} {c c' : Control} {w w' : ω} {fault : Failure}

/-- A grounding that fails leaves the control as it was, and the handler has only had calls. -/
theorem ground_eq_error (h : (ground handler parts c).run w = ((.error fault, c'), w')) :
    c' = c ∧ ∃ calls : List Handler.Event, (∀ e ∈ calls, e.IsCall) ∧
      (ground handler.recorded parts c).run (w, []) = ((.error fault, c), (w', calls)) := by
  cases hp : c.phase with
  | grounded p =>
    rw [ground_grounded hp] at h ⊢
    cases h
    exact ⟨rfl, [], by simp, rfl⟩
  | spent p =>
    rw [ground_spent hp] at h ⊢
    cases h
    exact ⟨rfl, [], by simp, rfl⟩
  | fresh =>
    cases hrun : GroundProgram.ground handler c.program parts w with
    | mk r v =>
      cases r with
      | ok p =>
        rw [ground_of_ok hp hrun] at h
        cases h
      | error fault =>
        rw [ground_of_error hp hrun] at h
        cases h
        obtain ⟨calls, hcalls, hrecorded⟩ := GroundProgram.ground_recorded_of_error hrun
        exact ⟨rfl, calls, hcalls, ground_of_error hp hrecorded⟩

theorem Step.ground_fails {s : Step ω} (ho : s.operation = .ground handler parts)
    (hs : s.outcome = .error fault) : s.after = s.before ∧
      ∃ calls : List Handler.Event, (∀ e ∈ calls, e.IsCall) ∧
        (ground handler.recorded parts s.before).run (s.worldBefore, []) =
          ((.error fault, s.before), (s.worldAfter, calls)) := by
  rw [outcome, ho] at hs
  rw [after, worldAfter, ho]
  cases hrun : (ground handler parts s.before).run s.worldBefore with
  | mk r w =>
    obtain ⟨r, c⟩ := r
    simp only [Operation.run, StateT.run_bind, hrun] at hs ⊢
    cases r with
    | ok _ => cases hs
    | error f =>
      cases hs
      exact ground_eq_error hrun

theorem pairwise_grounds (ops : List (Operation ω)) (c : Control) (w : ω) :
    (steps ops c w).Pairwise fun s t => s.Grounds → s.Succeeds →
      t.before.phase ≠ .fresh ∧ t.before.atoms = s.after.atoms := by
  let P : Step ω → Control → Prop := fun s c => s.Grounds → s.Succeeds →
    c.phase ≠ .fresh ∧ c.atoms = s.after.atoms
  have hafter : ∀ s, P s s.after := fun s hg hs => ⟨(Step.phase_of_grounds hg hs).2, rfl⟩
  have hstep : ∀ s t : Step ω, P s t.before → P s t.after := by
    intro s t h hg hs
    obtain ⟨hfresh, hatoms⟩ := h hg hs
    obtain ⟨hfresh', hatoms'⟩ := Step.after_of_not_fresh hfresh
    exact ⟨hfresh', hatoms'.trans hatoms⟩
  exact pairwise_steps hafter hstep ops c w

theorem pairwise_solves (ops : List (Operation ω)) (c : Control) (w : ω) :
    (steps ops c w).Pairwise fun s t => s.Solves → ∃ p, t.before.phase = .spent p := by
  let P : Step ω → Control → Prop := fun s c => s.Solves → ∃ p, c.phase = .spent p
  have hafter : ∀ s, P s s.after := fun s hs => ⟨_, Step.phase_of_solves hs⟩
  have hstep : ∀ s t : Step ω, P s t.before → P s t.after := by
    intro s t h hs
    obtain ⟨p, hp⟩ := h hs
    exact ⟨p, by rw [Step.after_of_spent hp, hp]⟩
  exact pairwise_steps hafter hstep ops c w

/-- The life of a loaded control under any operations. At most one grounding succeeds. One that
fails leaves the control as it was, and its handler has had calls only. After the first search every
operation is refused without a use of its handler or callback. After the grounding that succeeds the
atoms stay the same. -/
theorem life_cycle (limit : Nat) (program : Program) (ops : List (Operation ω)) (w : ω) :
    let run := steps ops (load limit program) w
    run.Pairwise (fun s t => s.Grounds → s.Succeeds → t.Grounds → ¬ t.Succeeds) ∧
    (∀ s ∈ run, ∀ handler parts fault, s.operation = .ground handler parts →
      s.outcome = .error fault → s.after = s.before ∧
        ∃ calls : List Handler.Event, (∀ e ∈ calls, e.IsCall) ∧
          (ground handler.recorded parts s.before).run (s.worldBefore, []) =
            ((.error fault, s.before), (s.worldAfter, calls))) ∧
    run.Pairwise (fun s t => s.Solves →
      t.operation.run t.before = pure (.error .spentControl, t.before)) ∧
    run.Pairwise (fun s t => s.Grounds → s.Succeeds →
      t.before.atoms = s.after.atoms ∧ t.after.atoms = s.after.atoms) := by
  have hgrounds := pairwise_grounds ops (load limit program) w
  have hsolves := pairwise_solves ops (load limit program) w
  refine ⟨hgrounds.imp fun {s t} h hg hs hg' hs' => ?_,
    fun s _ handler parts fault => Step.ground_fails, hsolves.imp fun {s t} h hs => ?_,
    hgrounds.imp fun {s t} h hg hs => ?_⟩
  · exact (h hg hs).1 (Step.phase_of_grounds hg' hs').1
  · obtain ⟨p, hp⟩ := h hs
    exact Step.run_of_spent hp
  · obtain ⟨hfresh, hatoms⟩ := h hg hs
    exact ⟨hatoms, (Step.after_of_not_fresh hfresh).2.trans hatoms⟩

end AnswerSetTest.Control
