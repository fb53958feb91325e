import AnswerSetTest.Proofs.Control
import AnswerSetTest.Proofs.Ground.Simulation

/-!
# Uniform solvers

The state that handlers and callbacks change is not the solver's own: a solver hands it on and never
looks at it. So handlers and callbacks that behave alike on related states lead to the same results,
and to related states again.
-/

namespace AnswerSetTest

variable {σ τ α : Type}

/-- From related states both give the same value and leave related states. -/
def RunsAlike (R : σ → τ → Prop) (x : StateM σ α) (y : StateM τ α) : Prop :=
  ∀ s t, R s t → (x.run s).1 = (y.run t).1 ∧ R (x.run s).2 (y.run t).2

/-- A solver has to do with states only through the handler and the callback that it is given. -/
structure Solver.Uniform {κ : Type} (solver : Solver κ) : Prop where
  ground : ∀ {σ τ : Type} {R : σ → τ → Prop} {h : Handler σ} {k : Handler τ}, h.Simulates R k →
    ∀ parts control, RunsAlike R (solver.ground h parts control) (solver.ground k parts control)
  solve : ∀ {σ τ : Type} {R : σ → τ → Prop} {f : Model → StateM σ Bool} {g : Model → StateM τ Bool},
    (∀ m, RunsAlike R (f m) (g m)) →
    ∀ control, RunsAlike R (solver.solve f control) (solver.solve g control)

variable {R : σ → τ → Prop}

theorem RunsAlike.pure (a : α) : RunsAlike R (pure a : StateM σ α) (pure a : StateM τ α) :=
  fun _ _ h => ⟨rfl, h⟩

section Callback

variable {f : Model → StateM σ Bool} {g : Model → StateM τ Bool}
  (hfg : ∀ m, RunsAlike R (f m) (g m))

include hfg

theorem handOver_alike (ms : List Model) {s : σ} {t : τ} (hst : R s t) :
    (handOver f ms s).given = (handOver g ms t).given ∧
      (handOver f ms s).exhausted = (handOver g ms t).exhausted ∧
      R (handOver f ms s).state (handOver g ms t).state := by
  induction ms generalizing s t with
  | nil => exact ⟨rfl, rfl, hst⟩
  | cons m ms ih =>
    obtain ⟨hanswer, hstate⟩ := hfg m s t hst
    unfold handOver
    cases hf : (f m).run s with
    | mk b s' =>
      cases hg : (g m).run t with
      | mk b' t' =>
        rw [hf, hg] at hanswer hstate
        obtain rfl : b = b' := hanswer
        cases b with
        | false => exact ⟨rfl, rfl, hstate⟩
        | true =>
          obtain ⟨hgiven, hexhausted, hrest⟩ := ih hstate
          exact ⟨congrArg (m :: ·) hgiven, hexhausted, hrest⟩

theorem GroundProgram.search_alike (p : GroundProgram) :
    RunsAlike R (p.search f) (p.search g) := by
  intro s t hst
  obtain ⟨hgiven, hexhausted, hstate⟩ := handOver_alike hfg (p.modelsFrom 1 p.answerSets) hst
  rw [search_eq_handOver, search_eq_handOver]
  dsimp only
  rw [hgiven, hexhausted]
  exact ⟨rfl, hstate⟩

theorem Control.solve_alike (c : Control) : RunsAlike R (solve f c) (solve g c) := by
  have hsearch : ∀ p : GroundProgram, RunsAlike R
      (do return (.ok (← p.search f), { c with phase := .spent p }))
      (do return (.ok (← p.search g), { c with phase := .spent p }) :
        StateM τ (Except Failure Summary × Control)) := by
    intro p s t hst
    obtain ⟨hvalue, hstate⟩ := GroundProgram.search_alike hfg p s t hst
    refine ⟨?_, hstate⟩
    change (Except.ok ((p.search f).run s).1, _) = (Except.ok ((p.search g).run t).1, _)
    rw [hvalue]
  unfold solve
  split
  · exact .pure _
  · dsimp only
    split
    · exact .pure _
    · exact hsearch _

end Callback

theorem Control.ground_alike {h : Handler σ} {k : Handler τ} (hk : h.Simulates R k)
    (parts : List Part) (c : Control) : RunsAlike R (ground h parts c) (ground k parts c) := by
  unfold ground
  split
  · exact .pure _
  · exact .pure _
  · intro s t hst
    obtain ⟨hvalue, hstate⟩ := GroundProgram.agree_ground hk c.program parts s t hst
    rw [StateT.run_bind, StateT.run_bind]
    cases hx : (GroundProgram.ground h c.program parts).run.run s with
    | mk r s' =>
      cases hy : (GroundProgram.ground k c.program parts).run.run t with
      | mk r' t' =>
        have hx' : GroundProgram.ground h c.program parts s = (r, s') := hx
        have hy' : GroundProgram.ground k c.program parts t = (r', t') := hy
        rw [hx', hy'] at hvalue hstate
        obtain rfl : r = r' := hvalue
        cases r with
        | error fault => exact ⟨rfl, hstate⟩
        | ok p => exact ⟨rfl, hstate⟩

theorem Solver.uniform_exhaustive (limit : Nat) : (Solver.exhaustive limit).Uniform where
  ground hk parts c := Control.ground_alike hk parts c
  solve hfg c := Control.solve_alike hfg c

end AnswerSetTest
