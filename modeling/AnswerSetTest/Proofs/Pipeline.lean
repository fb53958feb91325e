import Mathlib.Data.List.Forall2
import AnswerSetTest.Pipeline
import AnswerSetTest.Proofs.Control.Uniformity

/-!
# Pipelines of middlewares that pass on

A middleware may have a state of its own, besides the one that handlers and callbacks change. If it
only takes notes there, before it passes a stage on as it is and when it has the result, the stage
runs as it does without the middleware. In a pipeline the notes of all middlewares on entering a
stage come first, in order, and a middleware that does not pass the stage on is the last one that is
entered.
-/

namespace AnswerSetTest

variable {κ σ ρ α : Type}

inductive Stage.Entry (κ : Type) where
  | load (program : Program)
  | ground (parts : List Part) (control : κ)
  | solve (control : κ)

inductive Stage.Exit (κ : Type) where
  | load (result : Except Failure κ)
  | ground (result : Except Failure Unit × κ)
  | solve (result : Except Failure Summary × κ)

def Stage.Entry.stage : Stage.Entry κ → Stage
  | .load _ => .load
  | .ground .. => .ground
  | .solve _ => .solve

def Stage.Exit.isOk : Stage.Exit κ → Bool
  | .load result => result.isOk
  | .ground (result, _) => result.isOk
  | .solve (result, _) => result.isOk

/-- What is noted in a state `ρ` when a stage is entered and when it is left. -/
structure Stage.Notes (κ ρ : Type) where
  enter : Entry κ → ρ → ρ := fun _ => id
  leave : Entry κ → Exit κ → ρ → ρ := fun _ _ => id

open Stage (Entry Exit Notes)

namespace Stage.Notes

def around (n : Notes κ ρ) (entry : Entry κ) (exit : α → Exit κ) (x : StateM (σ × ρ) α) :
    StateM (σ × ρ) α := do
  modify (Prod.map id (n.enter entry))
  let a ← x
  modify (Prod.map id (n.leave entry (exit a)))
  return a

/-- The notes of several middlewares. What is entered last is left first. -/
def all (ns : List (Notes κ ρ)) : Notes κ ρ where
  enter entry r := ns.foldl (fun r n => n.enter entry r) r
  leave entry exit r := ns.foldr (fun n r => n.leave entry exit r) r

def noted (n : Notes κ ρ) (entry : Entry κ) (exit : Exit κ) (r : ρ) : ρ :=
  n.leave entry exit (n.enter entry r)

variable {entry : Entry κ} {exit : α → Exit κ}

theorem around_leave (leave : Entry κ → Exit κ → ρ → ρ) (x : StateM (σ × ρ) α) :
    Notes.around { leave } entry exit x = (do
      let a ← x
      modify (Prod.map id (leave entry (exit a)))
      return a) := rfl

theorem around_all_cons (n : Notes κ ρ) (ns : List (Notes κ ρ)) (x : StateM (σ × ρ) α) :
    n.around entry exit ((all ns).around entry exit x) = (all (n :: ns)).around entry exit x :=
  rfl

theorem run_around (n : Notes κ ρ) (x : StateM (σ × ρ) α) (s : σ) (r : ρ) :
    (n.around entry exit x).run (s, r) =
      let result := x.run (s, n.enter entry r)
      (result.1, result.2.1, n.leave entry (exit result.1) result.2.2) := rfl

end Stage.Notes

def onFirst (ρ : Type) (x : StateM σ α) : StateM (σ × ρ) α :=
  modifyGet fun w => ((x.run w.1).1, (x.run w.1).2, w.2)

def Handler.onFirst (ρ : Type) (h : Handler σ) : Handler (σ × ρ) where
  call name args := AnswerSetTest.onFirst ρ (h.call name args)
  rule choice head body := AnswerSetTest.onFirst ρ (h.rule choice head body)
  output symbol a := AnswerSetTest.onFirst ρ (h.output symbol a)

def Beside (r : ρ) (w : σ × ρ) (s : σ) : Prop := w = (s, r)

theorem runsAlike_onFirst (r : ρ) (x : StateM σ α) : RunsAlike (Beside r) (onFirst ρ x) x := by
  rintro _ s rfl
  exact ⟨rfl, rfl⟩

theorem Handler.simulates_onFirst (r : ρ) (h : Handler σ) :
    (h.onFirst ρ).Simulates (Beside r) h where
  call name args := runsAlike_onFirst r (h.call name args)
  rule choice head body w s hw := (runsAlike_onFirst r (h.rule choice head body) w s hw).2
  output symbol a w s hw := (runsAlike_onFirst r (h.output symbol a) w s hw).2

theorem RunsAlike.run_eq {x : StateM (σ × ρ) α} {y : StateM σ α} {r : ρ}
    (h : RunsAlike (Beside r) x y) (s : σ) :
    x.run (s, r) = ((y.run s).1, (y.run s).2, r) := by
  obtain ⟨hvalue, hstate⟩ := h (s, r) s rfl
  exact Prod.ext hvalue hstate

/-- A middleware that takes notes and passes each stage on with what it is given. -/
structure Middleware.PassesOn (m : Middleware κ (σ × ρ)) (n : Notes κ ρ) : Prop where
  load : ∀ next program,
    m.load next program = n.around (.load program) .load (next program)
  ground : ∀ next handler parts control,
    m.ground next handler parts control =
      n.around (.ground parts control) .ground (next handler parts control)
  solve : ∀ next onModel control,
    m.solve next onModel control = n.around (.solve control) .solve (next onModel control)

namespace Middleware

def recorder (name : String) : Middleware κ (σ × List (String × Stage)) where
  name
  load next program := do
    modify (Prod.map id (· ++ [(name, .load)]))
    next program
  ground next handler parts control := do
    modify (Prod.map id (· ++ [(name, .ground)]))
    next handler parts control
  solve next onModel control := do
    modify (Prod.map id (· ++ [(name, .solve)]))
    next onModel control

theorem passesOn_default (name : String) : PassesOn ({ name } : Middleware κ (σ × ρ)) {} :=
  ⟨fun _ _ => rfl, fun _ _ _ _ => rfl, fun _ _ _ => rfl⟩

theorem passesOn_recorder (name : String) :
    (recorder name : Middleware κ (σ × List (String × Stage))).PassesOn
      { enter := fun entry log => log ++ [(name, entry.stage)] } :=
  ⟨fun _ _ => rfl, fun _ _ _ _ => rfl, fun _ _ _ => rfl⟩

theorem passesOn_stageTrace (record : Stage → ρ → ρ) :
    (stageTrace fun stage => Prod.map id (record stage) : Middleware κ (σ × ρ)).PassesOn
      { leave := fun entry exit => if exit.isOk then record entry.stage else id } where
  load next program := by
    rw [Notes.around_leave]
    apply bind_congr
    intro r
    cases h : r.isOk <;> simp only [Exit.isOk, h] <;> rfl
  ground next handler parts control := by
    rw [Notes.around_leave]
    apply bind_congr
    rintro ⟨r, control⟩
    cases h : r.isOk <;> simp only [Exit.isOk, h] <;> rfl
  solve next onModel control := by
    rw [Notes.around_leave]
    apply bind_congr
    rintro ⟨r, control⟩
    cases h : r.isOk <;> simp only [Exit.isOk, h] <;> rfl

section Chain

variable {β : Type} {ms : List (Middleware κ (σ × ρ))} {ns : List (Notes κ ρ)}
  {wrap : Middleware κ (σ × ρ) → β → β} {entry : Entry κ} {exit : α → Exit κ}
  (run : β → StateM (σ × ρ) α) (h : List.Forall₂ PassesOn ms ns)
  (hwrap : ∀ m n, PassesOn m n → ∀ next, run (wrap m next) = n.around entry exit (run next))

include h hwrap

/-- Middlewares that pass a stage on leave what they are put around as it is, but for the notes. -/
theorem foldr_passesOn (inner : β) :
    run (ms.foldr wrap inner) = (Notes.all ns).around entry exit (run inner) := by
  induction h with
  | nil => rfl
  | cons hm _ ih => rw [List.foldr_cons, hwrap _ _ hm, ih, Notes.around_all_cons]

theorem foldr_append_passesOn (m : Middleware κ (σ × ρ)) (later : List (Middleware κ (σ × ρ)))
    (inner : β) :
    run ((ms ++ m :: later).foldr wrap inner) =
      (Notes.all ns).around entry exit (run (wrap m (later.foldr wrap inner))) := by
  rw [List.foldr_append, List.foldr_cons]
  exact foldr_passesOn run h hwrap _

end Chain

end Middleware

namespace Pipeline

/-- Each stage is that of the solver, with what the pipeline is given, and with notes around it. -/
structure Surrounds (p : Pipeline κ (σ × ρ)) (n : Notes κ ρ) : Prop where
  load : ∀ program,
    p.load program = n.around (.load program) .load (return p.solver.load program)
  ground : ∀ handler parts control,
    p.ground handler parts control =
      n.around (.ground parts control) .ground (p.solver.ground handler parts control)
  solve : ∀ onModel control,
    p.solve onModel control = n.around (.solve control) .solve (p.solver.solve onModel control)

/-- Handlers and callbacks that know nothing of the notes end in the state in which the solver
itself leaves them, with the same result and the same control. -/
structure Invisible (p : Pipeline κ (σ × ρ)) (n : Notes κ ρ) : Prop where
  load : ∀ program s r, (p.load program).run (s, r) =
    (p.solver.load program, s, n.noted (.load program) (.load (p.solver.load program)) r)
  ground : ∀ (handler : Handler σ) parts control s r,
    (p.ground (handler.onFirst ρ) parts control).run (s, r) =
      let result := (p.solver.ground handler parts control).run s
      (result.1, result.2, n.noted (.ground parts control) (.ground result.1) r)
  solve : ∀ (onModel : Model → StateM σ Bool) control s r,
    (p.solve (fun m => onFirst ρ (onModel m)) control).run (s, r) =
      let result := (p.solver.solve onModel control).run s
      (result.1, result.2, n.noted (.solve control) (.solve result.1) r)

variable {p : Pipeline κ (σ × ρ)} {n : Notes κ ρ} {ns : List (Notes κ ρ)}

theorem surrounds (h : List.Forall₂ Middleware.PassesOn p.middlewares ns) :
    p.Surrounds (.all ns) where
  load program := Middleware.foldr_passesOn (fun stage => stage program) h
    (fun _ _ hm next => hm.load next program) _
  ground handler parts control :=
    Middleware.foldr_passesOn (fun stage => stage handler parts control) h
      (fun _ _ hm next => hm.ground next handler parts control) _
  solve onModel control := Middleware.foldr_passesOn (fun stage => stage onModel control) h
    (fun _ _ hm next => hm.solve next onModel control) _

theorem Surrounds.invisible (h : p.Surrounds n) (hp : p.solver.Uniform) : p.Invisible n where
  load program s r := by
    rw [h.load]
    rfl
  ground handler parts control s r := by
    have hrun := (hp.ground (handler.simulates_onFirst (n.enter (.ground parts control) r))
      parts control).run_eq s
    rw [h.ground, Notes.run_around, hrun]
    rfl
  solve onModel control s r := by
    have hrun := (hp.solve (fun m => runsAlike_onFirst (n.enter (.solve control) r) (onModel m))
      control).run_eq s
    rw [h.solve, Notes.run_around, hrun]
    rfl

theorem log_enter {ms : List (Middleware κ (σ × ρ))} {log : ρ → List String} {entry : Entry κ}
    (h : List.Forall₂ (fun m n => ∀ r, log (n.enter entry r) = log r ++ [m.name]) ms ns) (r : ρ) :
    log ((Notes.all ns).enter entry r) = log r ++ ms.map Middleware.name := by
  induction h generalizing r with
  | nil => simp [Notes.all]
  | @cons m n ms ns hm _ ih =>
    have hrest : log ((Notes.all ns).enter entry (n.enter entry r)) = _ := ih (n.enter entry r)
    rw [hm, List.append_assoc] at hrest
    exact hrest

/-- Behind middlewares that pass on, `m` gives each stage. Where it does not go on, so that its
outcome is the same whatever comes next, it is the outcome of the stage whatever middlewares are
behind it. -/
structure EndsWith (ns : List (Notes κ ρ)) (m : Middleware κ (σ × ρ)) (p : Pipeline κ (σ × ρ)) :
    Prop where
  load : ∀ program s r outcome,
    (∀ next, (m.load next program).run (s, (Notes.all ns).enter (.load program) r) = outcome) →
    (p.load program).run (s, r) = (outcome.1, outcome.2.1,
      (Notes.all ns).leave (.load program) (.load outcome.1) outcome.2.2)
  ground : ∀ handler parts control s r outcome,
    (∀ next, (m.ground next handler parts control).run
      (s, (Notes.all ns).enter (.ground parts control) r) = outcome) →
    (p.ground handler parts control).run (s, r) = (outcome.1, outcome.2.1,
      (Notes.all ns).leave (.ground parts control) (.ground outcome.1) outcome.2.2)
  solve : ∀ onModel control s r outcome,
    (∀ next, (m.solve next onModel control).run
      (s, (Notes.all ns).enter (.solve control) r) = outcome) →
    (p.solve onModel control).run (s, r) = (outcome.1, outcome.2.1,
      (Notes.all ns).leave (.solve control) (.solve outcome.1) outcome.2.2)

theorem endsWith (h : List.Forall₂ Middleware.PassesOn p.middlewares ns)
    (m : Middleware κ (σ × ρ)) (later : List (Middleware κ (σ × ρ))) :
    EndsWith ns m ⟨p.solver, p.middlewares ++ m :: later⟩ where
  load program s r outcome houtcome := by
    rw [load, Middleware.foldr_append_passesOn (fun stage => stage program) h
      (fun _ _ hm next => hm.load next program), Notes.run_around, houtcome]
  ground handler parts control s r outcome houtcome := by
    rw [ground, Middleware.foldr_append_passesOn (fun stage => stage handler parts control) h
      (fun _ _ hm next => hm.ground next handler parts control), Notes.run_around, houtcome]
  solve onModel control s r outcome houtcome := by
    rw [solve, Middleware.foldr_append_passesOn (fun stage => stage onModel control) h
      (fun _ _ hm next => hm.solve next onModel control), Notes.run_around, houtcome]

/-- Middlewares that pass on are invisible. Each stage is that of the solver, with what the pipeline
was given, behind the notes that the middlewares take on entering it, once each and in order. As the
solver does not look at the states of handlers and callbacks, it gives the same result and leaves
the same control as it does alone, and they end in the same states, which may hold all their events
and models. A middleware that does not go on is the last one that is entered: the outcome is its
own, whatever middlewares are behind it. -/
theorem passesOn_invisible (p : Pipeline κ (σ × ρ)) {ns : List (Notes κ ρ)}
    (h : List.Forall₂ Middleware.PassesOn p.middlewares ns) :
    p.Surrounds (.all ns) ∧
    (∀ (log : ρ → List String) entry, List.Forall₂ (fun m n =>
        ∀ r, log (n.enter entry r) = log r ++ [m.name]) p.middlewares ns →
      ∀ r, log ((Notes.all ns).enter entry r) = log r ++ p.names) ∧
    (p.solver.Uniform → p.Invisible (.all ns)) ∧
    ∀ m later, EndsWith ns m ⟨p.solver, p.middlewares ++ m :: later⟩ := by
  have hsurrounds := surrounds h
  exact ⟨hsurrounds, fun _ _ hlog => log_enter hlog, hsurrounds.invisible, endsWith h⟩

/-- Grounding and solving behind four middlewares, one of them with the default stages. Both models
are found, and a fifth middleware that skips the grounding keeps the sixth from being entered. -/
theorem passesOn_invisible_sample :
    let handler := (FunctionTable.empty.handler : Handler (List Model)).recorded
    let keep : Model → StateM (List Model × List Handler.Event) Bool :=
      fun m w => (true, w.1 ++ [m], w.2)
    let control := Control.load Control.defaultLimit Sample.Mixed.program
    let trace : Middleware Control ((List Model × List Handler.Event) × List (String × Stage)) :=
      .stageTrace fun stage => Prod.map id (· ++ [("trace", stage)])
    let skip : Middleware Control ((List Model × List Handler.Event) × List (String × Stage)) :=
      { name := "skip", ground := fun _ _ _ control => return (.ok (), control) }
    let p : Pipeline Control ((List Model × List Handler.Event) × List (String × Stage)) :=
      ⟨.exhaustive Control.defaultLimit,
        [{ name := "plain" }, .recorder "first", trace, .recorder "second"]⟩
    let log (stage : Stage) : List (String × Stage) :=
      [("first", stage), ("second", stage), ("trace", stage)]
    ∃ ns, List.Forall₂ Middleware.PassesOn p.middlewares ns ∧ p.solver.Uniform ∧
      ∃ c c' w, (Control.ground handler Sample.parts control).run ([], []) = ((.ok (), c), w) ∧
        (p.ground (handler.onFirst _) Sample.parts control).run (([], []), []) =
          ((.ok (), c), w, log .ground) ∧
        (p.solve (fun m => onFirst _ (keep m)) c).run (w, log .ground) =
          ((.ok ⟨2, true⟩, c'), (w.1 ++ Sample.Mixed.models, w.2), log .ground ++ log .solve) ∧
        ((Pipeline.mk p.solver (p.middlewares ++ skip :: [.recorder "third"])).ground
          (handler.onFirst _) Sample.parts control).run (([], []), []) =
            ((.ok (), control), ([], []), log .ground) := by
  intro handler keep control trace skip p log
  have hpass : List.Forall₂ Middleware.PassesOn p.middlewares _ :=
    .cons (Middleware.passesOn_default "plain") (.cons (Middleware.passesOn_recorder "first")
      (.cons (Middleware.passesOn_stageTrace fun stage => (· ++ [("trace", stage)]))
        (.cons (Middleware.passesOn_recorder "second") .nil)))
  have huniform : p.solver.Uniform := Solver.uniform_exhaustive _
  obtain ⟨-, -, hinvisible, hblocked⟩ := passesOn_invisible p hpass
  have hanswers : handler.AnswersBy Sample.unknown := fun _ _ _ => rfl
  obtain ⟨q, hok, hq⟩ := Sample.Mixed.exists_ground hanswers ([], [])
  let limit := min Control.defaultLimit Control.maxLimit
  have hsolver : (p.solver.ground handler Sample.parts control).run ([], []) = _ :=
    Control.ground_load_of_ok (Prod.ext hok rfl)
  have hground := (hinvisible huniform).ground handler Sample.parts control ([], []) []
  have hmodels : ∀ w, (p.solver.solve keep ⟨Sample.Mixed.program, limit, .grounded q⟩).run w =
      ((.ok ⟨2, true⟩, ⟨Sample.Mixed.program, limit, .spent q⟩),
        (w.1 ++ Sample.Mixed.models, w.2)) := by
    intro w
    have hkept : w.1 ++ Sample.Mixed.models = w.1 ++ _ ++ _ := (List.append_assoc _ [_] [_]).symm
    rw [hkept]
    exact Control.solve_of_grounds hq keep w
  have hsolve := (hinvisible huniform).solve keep
  have hskip := (hblocked skip [.recorder "third"]).ground (handler.onFirst _) Sample.parts
    control ([], []) [] _ fun _ => rfl
  refine ⟨_, hpass, huniform, _, ⟨Sample.Mixed.program, limit, .spent q⟩, _, hsolver, ?_, ?_, ?_⟩
  · rw [hground, hsolver]
    rfl
  · refine (hsolve _ _ _).trans ?_
    dsimp only
    rw [hmodels]
    rfl
  · rw [hskip]
    rfl

end Pipeline

end AnswerSetTest
