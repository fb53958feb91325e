import AnswerSetTest.Control
import AnswerSetTest.Proofs.GroundProgram.Rounds

/-!
# Controls

A control that was grounded hands the answer sets of its ground program to the callback. If there
are too many undetermined atoms it fails before the callback is called.
-/

namespace AnswerSetTest

theorem Sample.Mixed.Grounds.not_limit_lt {p : GroundProgram} (h : Grounds p) :
    ¬ Control.defaultLimit < p.undetermined.length := by
  have hle := h.wellFormed.length_undetermined_le
  rw [h.symbols] at hle
  exact Nat.not_lt_of_ge (hle.trans (by decide))

namespace Control

variable {σ ω : Type} {handler : Handler σ} {program : Program} {parts : List Part} {limit : Nat}
  {w w' : σ} {c : Control}

theorem ground_of_ok {p : GroundProgram} (hc : c.phase = .fresh)
    (h : GroundProgram.ground handler c.program parts w = (.ok p, w')) :
    (ground handler parts c).run w = ((.ok (), { c with phase := .grounded p }), w') := by
  have hrun : (GroundProgram.ground handler c.program parts).run.run w = (.ok p, w') := h
  simp only [ground, hc, StateT.run_bind, hrun]
  rfl

theorem ground_of_error {fault : GroundFault} (hc : c.phase = .fresh)
    (h : GroundProgram.ground handler c.program parts w = (.error fault, w')) :
    (ground handler parts c).run w = ((.error (.ground fault), c), w') := by
  have hrun : (GroundProgram.ground handler c.program parts).run.run w = (.error fault, w') := h
  simp only [ground, hc, StateT.run_bind, hrun]
  rfl

theorem ground_grounded {p : GroundProgram} (hc : c.phase = .grounded p) :
    ground handler parts c = pure (.error (.ground .alreadyGrounded), c) := by
  simp only [ground, hc]

theorem ground_spent {p : GroundProgram} (hc : c.phase = .spent p) :
    ground handler parts c = pure (.error .spentControl, c) := by
  simp only [ground, hc]

theorem solve_spent {p : GroundProgram} (onModel : Model → StateM ω Bool)
    (hc : c.phase = .spent p) : solve onModel c = pure (.error .spentControl, c) := by
  simp only [solve, hc]

theorem phase_solve (onModel : Model → StateM ω Bool) (o : ω) :
    ((solve onModel c).run o).1.2.phase = .spent c.phase.ground := by
  unfold solve
  split
  · next p hc =>
    rw [hc]
    exact hc
  · dsimp only
    split
    · rfl
    · rfl

theorem ground_load_of_ok {p : GroundProgram}
    (h : GroundProgram.ground handler program parts w = (.ok p, w')) :
    (ground handler parts (load limit program)).run w =
      ((.ok (), ⟨program, min limit maxLimit, .grounded p⟩), w') :=
  ground_of_ok rfl h

theorem ground_load_of_error {fault : GroundFault}
    (h : GroundProgram.ground handler program parts w = (.error fault, w')) :
    (ground handler parts (load limit program)).run w =
      ((.error (.ground fault), load limit program), w') :=
  ground_of_error rfl h

theorem ground_load_eq_ok
    (h : (ground handler parts (load limit program)).run w = ((.ok (), c), w')) :
    ∃ p, GroundProgram.ground handler program parts w = (.ok p, w') ∧
      c = ⟨program, min limit maxLimit, .grounded p⟩ := by
  cases hg : GroundProgram.ground handler program parts w with
  | mk r t =>
    cases r with
    | error fault =>
      rw [ground_load_of_error hg] at h
      cases h
    | ok p =>
      rw [ground_load_of_ok hg] at h
      cases h
      exact ⟨p, rfl, rfl⟩

theorem solve_grounded_eq (onModel : Model → StateM ω Bool) (o : ω) (p : GroundProgram) :
    (solve onModel ⟨program, limit, .grounded p⟩).run o =
      if limit < p.undetermined.length then
        ((.error (.solve (.tooManyUndetermined p.undetermined.length limit)),
          ⟨program, limit, .spent p⟩), o)
      else
        let r := handOver onModel (p.modelsFrom 1 p.answerSets) o
        ((.ok ⟨r.given.length, r.exhausted⟩, ⟨program, limit, .spent p⟩), r.state) := by
  change (if p.undetermined.length > limit then _ else _ : StateM ω _) o = _
  split
  · rfl
  · have h := GroundProgram.search_eq_handOver (p := p) onModel o
    change ((Except.ok ((p.search onModel).run o).1, _), ((p.search onModel).run o).2) = _
    rw [h]
    rfl

/-- The mixed program has few undetermined atoms, so both models are handed over. -/
theorem solve_of_grounds {p : GroundProgram} (hp : Sample.Mixed.Grounds p)
    (onModel : Model → StateM ω Bool) (o : ω) :
    (solve onModel ⟨program, defaultLimit, .grounded p⟩).run o =
      let r := handOver onModel Sample.Mixed.models o
      ((.ok ⟨r.given.length, r.exhausted⟩, ⟨program, defaultLimit, .spent p⟩), r.state) := by
  have hmodels : p.modelsFrom 1 p.answerSets = Sample.Mixed.models :=
    hp.modelsFrom_eq (fun I => GroundProgram.mem_answerSets hp.wellFormed)
      (GroundProgram.pairwise_modelsFrom hp.wellFormed 1)
  rw [solve_grounded_eq, if_neg hp.not_limit_lt, hmodels]

/-- The search of a grounded control hands over the answer sets of its ground program, unless there
are too many undetermined atoms: then the state of the callback stays as it is. -/
theorem solve_enumerates
    (h : (ground handler parts (load limit program)).run w = ((.ok (), c), w')) :
    ∃ p, GroundProgram.ground handler program parts w = (.ok p, w') ∧
      c = ⟨program, min limit maxLimit, .grounded p⟩ ∧
      ∃ sets : List Interpretation, (∀ I, I ∈ sets ↔ p.IsAnswerSet I) ∧ sets.Nodup ∧
        (p.modelsFrom 1 sets).Pairwise Model.Precedes ∧
        ∀ {ω : Type} (onModel : Model → StateM ω Bool) (o : ω), (solve onModel c).run o =
          if c.limit < p.undetermined.length then
            ((.error (.solve (.tooManyUndetermined p.undetermined.length c.limit)),
              ⟨program, c.limit, .spent p⟩), o)
          else
            let r := handOver onModel (p.modelsFrom 1 sets) o
            ((.ok ⟨r.given.length, r.exhausted⟩, ⟨program, c.limit, .spent p⟩), r.state) := by
  obtain ⟨p, hg, rfl⟩ := ground_load_eq_ok h
  have hp := GroundProgram.wellFormed_of_ground hg
  exact ⟨p, hg, rfl, p.answerSets, fun I => GroundProgram.mem_answerSets hp,
    GroundProgram.nodup_answerSets hp, GroundProgram.pairwise_modelsFrom hp 1,
    fun onModel o => solve_grounded_eq onModel o p⟩

/-- A callback that keeps all models of a program with an external, negation, a disjunction and a
count is given two of them. -/
theorem solve_enumerates_sample :
    let h : Handler Unit := FunctionTable.empty.handler
    let keep : Model → StateM (List Model) Bool := fun m ms => (true, ms ++ [m])
    ∃ c w', (ground h Sample.parts (load defaultLimit Sample.Mixed.program)).run () =
        ((.ok (), c), w') ∧
      ∃ c', (solve keep c).run [] = ((.ok ⟨2, true⟩, c'), Sample.Mixed.models) := by
  intro h keep
  have hanswers : h.AnswersBy Sample.unknown := fun _ _ _ => rfl
  obtain ⟨p, hok, hp⟩ := Sample.Mixed.exists_ground hanswers ()
  have hground : (ground h Sample.parts (load defaultLimit Sample.Mixed.program)).run () = _ :=
    ground_load_of_ok (Prod.ext hok rfl)
  obtain ⟨q, hq, hc, sets, hmem, -, hsorted, hsolve⟩ := solve_enumerates hground
  obtain rfl : p = q := by
    rw [hq, Except.ok.injEq] at hok
    exact hok.symm
  refine ⟨_, _, hground, ⟨Sample.Mixed.program, min defaultLimit maxLimit, .spent p⟩, ?_⟩
  refine (hsolve keep []).trans ((if_neg hp.not_limit_lt).trans ?_)
  rw [hp.modelsFrom_eq hmem hsorted]
  rfl

end Control

end AnswerSetTest
