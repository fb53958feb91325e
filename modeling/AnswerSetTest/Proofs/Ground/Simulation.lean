import AnswerSetTest.Ground.Simplification
import AnswerSetTest.Proofs.Engine.Events
import AnswerSetTest.Proofs.Ground.Congruence
import AnswerSetTest.Proofs.Ground.Outcome

/-!
# Simulation

Grounding treats the state of its handler as a black box: with handlers that agree on related
states it gives the same result, and the states that it leaves are related again.
-/

namespace AnswerSetTest

def Agree {ε σ τ α : Type} (R : σ → τ → Prop) (x : ExceptT ε (StateM σ) α)
    (y : ExceptT ε (StateM τ) α) : Prop :=
  ∀ s t, R s t → (x s).1 = (y t).1 ∧ R (x s).2 (y t).2

theorem Agree.congruent {σ τ : Type} (R : σ → τ → Prop) : Congruent (Agree R) where
  of_pure _ _ _ h := ⟨rfl, h⟩
  of_throw _ _ _ h := ⟨rfl, h⟩
  bind {_ _ _ x y f g} hx hf s t h := by
    obtain ⟨hval, hstate⟩ := hx s t h
    change (ExceptT.bindCont f (x s).1 (x s).2).1 = (ExceptT.bindCont g (y t).1 (y t).2).1 ∧
      R (ExceptT.bindCont f (x s).1 (x s).2).2 (ExceptT.bindCont g (y t).1 (y t).2).2
    rw [hval]
    cases (y t).1 with
    | ok a => exact hf a _ _ hstate
    | error e => exact ⟨rfl, hstate⟩
  adapt {_ _ _ f x y} hxy s t h := by
    obtain ⟨hval, hstate⟩ := hxy s t h
    refine ⟨?_, hstate⟩
    change (x s).1.mapError f = (y t).1.mapError f
    rw [hval]

theorem Yields.of_agree {ε σ α : Type} {P : σ → Prop} {x : ExceptT ε (StateM σ) α}
    {y : ExceptT ε (StateM Unit) α} (h : Agree (fun s _ => P s) x y) :
    Yields P x (∃ a, (y ()).1 = .ok a) fun a => (y ()).1 = .ok a := by
  intro s hs
  obtain ⟨hval, hstate⟩ := h s () hs
  refine ⟨hstate, ?_⟩
  rw [← hval]
  cases (x s).1 with
  | ok a => exact ⟨⟨a, rfl⟩, rfl⟩
  | error e => exact fun ⟨a, ha⟩ => nomatch ha

def Scratch.Related {σ τ : Type} (R : σ → τ → Prop) (s : Scratch σ) (t : Scratch τ) : Prop :=
  R s.world t.world ∧ s.answers = t.answers

namespace Grounding

variable {σ τ : Type} {R : σ → τ → Prop} {h : Handler σ} {k : Handler τ}

theorem answerOnce_of_some {rule : Nat} {name : String} {args : List Symbol} {s : Scratch σ}
    {value : Symbol} (hs : s.answers[(⟨rule, name, args⟩ : CallKey)]? = some value) :
    answerOnce h rule name args s = (.ok value, s) := by
  rw [answerOnce, Returns.bind_eq_of_ok (x := get) (a := s) (t := s) rfl, hs]
  rfl

theorem answerOnce_of_none {rule : Nat} {name : String} {args : List Symbol} {s : Scratch σ}
    (hs : s.answers[(⟨rule, name, args⟩ : CallKey)]? = none) :
    answerOnce h rule name args s = (answer h name args >>= fun value => do
      modify fun scratch =>
        { scratch with answers := scratch.answers.insert ⟨rule, name, args⟩ value }
      return value) s := by
  rw [answerOnce, Returns.bind_eq_of_ok (x := get) (a := s) (t := s) rfl, hs]

theorem answer_of_ok {name : String} {args : List Symbol} {s : Scratch σ} {value : Symbol} {w : σ}
    (hrun : (h.call name args).run s.world = (.ok value, w)) :
    answer h name args s = (.ok value, { s with world := w }) := by
  rw [answer, hrun]

theorem answer_of_error {name message : String} {args : List Symbol} {s : Scratch σ} {w : σ}
    (hrun : (h.call name args).run s.world = (.error message, w)) :
    answer h name args s = (.error (.call name message), { s with world := w }) := by
  rw [answer, hrun]

theorem answers_answer (name : String) (args : List Symbol) (s : Scratch σ) :
    (answer h name args s).2.answers = s.answers := by
  cases hrun : (h.call name args).run s.world with
  | mk r w =>
    cases r with
    | ok value => rw [answer_of_ok hrun]
    | error message => rw [answer_of_error hrun]

/-- A call that is made once has an answer already, or is refused, or is answered and noted. -/
theorem answerOnce_cases (rule : Nat) (name : String) (args : List Symbol) (s : Scratch σ) :
    (∃ value, s.answers[(⟨rule, name, args⟩ : CallKey)]? = some value ∧
      answerOnce h rule name args s = (.ok value, s)) ∨
    s.answers[(⟨rule, name, args⟩ : CallKey)]? = none ∧
      ((∃ message w, (h.call name args).run s.world = (.error message, w) ∧
        answerOnce h rule name args s = (.error (.call name message), { s with world := w })) ∨
      ∃ value w, (h.call name args).run s.world = (.ok value, w) ∧
        answerOnce h rule name args s =
          (.ok value, ⟨w, s.answers.insert ⟨rule, name, args⟩ value⟩)) := by
  cases hs : s.answers[(⟨rule, name, args⟩ : CallKey)]? with
  | some value => exact .inl ⟨value, rfl, answerOnce_of_some hs⟩
  | none =>
    refine .inr ⟨rfl, ?_⟩
    rw [answerOnce_of_none hs]
    cases hrun : (h.call name args).run s.world with
    | mk r w =>
      cases r with
      | ok value => exact .inr ⟨value, w, rfl, Returns.bind_eq_of_ok (answer_of_ok hrun)⟩
      | error message =>
        exact .inl ⟨message, w, rfl, Returns.bind_eq_of_error (answer_of_error hrun)⟩

variable (hk : h.AnswersAlike R k)

include hk

theorem agree_answer (name : String) (args : List Symbol) :
    Agree (Scratch.Related R) (answer h name args) (answer k name args) := by
  rintro ⟨w, answers⟩ ⟨w', answers'⟩ ⟨hw, rfl : answers = answers'⟩
  obtain ⟨hval, hstate⟩ := hk name args w w' hw
  unfold answer
  dsimp only
  cases hx : (h.call name args).run w with
  | mk r v =>
    cases hy : (k.call name args).run w' with
    | mk r' v' =>
      rw [hx, hy] at hval hstate
      obtain rfl : r = r' := hval
      cases r with
      | ok value => exact ⟨rfl, hstate, rfl⟩
      | error message => exact ⟨rfl, hstate, rfl⟩

theorem agree_answerOnce (rule : Nat) (name : String) (args : List Symbol) :
    Agree (Scratch.Related R) (answerOnce h rule name args) (answerOnce k rule name args) := by
  intro s t hst
  have hanswers : s.answers = t.answers := hst.2
  cases hs : s.answers[(⟨rule, name, args⟩ : CallKey)]? with
  | some value =>
    rw [answerOnce_of_some hs, answerOnce_of_some (hanswers ▸ hs)]
    exact ⟨rfl, hst⟩
  | none =>
    rw [answerOnce_of_none hs, answerOnce_of_none (hanswers ▸ hs)]
    refine (Agree.congruent _).bind (agree_answer hk name args) (fun value => ?_) s t hst
    rintro ⟨w, answers⟩ ⟨w', answers'⟩ ⟨hw, rfl : answers = answers'⟩
    exact ⟨rfl, hw, rfl⟩

theorem agree_ofSelection (s : Selection) :
    Agree (Scratch.Related R) (ofSelection h s) (ofSelection k s) :=
  (Agree.congruent _).ofSelection (agree_answer hk) (agree_answerOnce hk) s

end Grounding

namespace GroundProgram

def events (p : GroundProgram) : List Handler.Event :=
  p.ruleEvents.map (fun e => .rule e.1 e.2.1 e.2.2) ++ p.outputEvents.map fun e => .output e.1 e.2

variable {σ τ : Type} {R : σ → τ → Prop} {h : Handler σ} {k : Handler τ}

theorem run_forM {α : Type} {f : α → StateM σ Unit} {e : α → Handler.Event}
    (hf : ∀ a s, (f a).run s = ((), h.handle s (e a))) (as : List α) (s : σ) :
    (as.forM f).run s = ((), h.handleAll s (as.map e)) := by
  induction as generalizing s with
  | nil => rfl
  | cons a as ih =>
    change (as.forM f).run ((f a).run s).2 = _
    rw [hf, ih]
    rfl

theorem run_report (p : GroundProgram) (s : σ) :
    (p.report h).run s = ((), h.handleAll s p.events) := by
  have hrules : ∀ s, (p.ruleEvents.forM fun e => h.rule e.1 e.2.1 e.2.2).run s =
      ((), h.handleAll s (p.ruleEvents.map fun e => .rule e.1 e.2.1 e.2.2)) := by
    intro s
    apply run_forM
    exact fun _ _ => rfl
  have houtputs : ∀ s, (p.outputEvents.forM fun e => h.output e.1 e.2).run s =
      ((), h.handleAll s (p.outputEvents.map fun e => .output e.1 e.2)) := by
    intro s
    apply run_forM
    exact fun _ _ => rfl
  change (p.outputEvents.forM fun e => h.output e.1 e.2).run
    ((p.ruleEvents.forM fun e => h.rule e.1 e.2.1 e.2.2).run s).2 = _
  rw [hrules, houtputs, events, Handler.handleAll_append]

variable (hk : h.Simulates R k)

include hk

theorem related_report (p : GroundProgram) {s : σ} {t : τ} (hst : R s t) :
    R ((p.report h).run s).2 ((p.report k).run t).2 := by
  rw [run_report, run_report]
  exact hk.handleAll p.events hst

/-- Grounding does not depend on the states of its handler. -/
theorem agree_ground (program : Program) (parts : List Part) :
    Agree R (ground h program parts) (ground k program parts) := by
  intro s t hst
  unfold ground
  cases program.select parts with
  | error fault => exact ⟨rfl, hst⟩
  | ok selection =>
    have hagree := Grounding.agree_ofSelection hk.call selection
    obtain ⟨hval, hstate, -⟩ := hagree ⟨s, ∅⟩ ⟨t, ∅⟩ ⟨hst, rfl⟩
    dsimp only
    cases hx : (Grounding.ofSelection h selection).run.run ⟨s, ∅⟩ with
    | mk r v =>
      cases hy : (Grounding.ofSelection k selection).run.run ⟨t, ∅⟩ with
      | mk r' v' =>
        have hx' : Grounding.ofSelection h selection ⟨s, ∅⟩ = (r, v) := hx
        have hy' : Grounding.ofSelection k selection ⟨t, ∅⟩ = (r', v') := hy
        rw [hx', hy'] at hval hstate
        obtain rfl : r = r' := hval
        cases r with
        | error fault => exact ⟨rfl, hstate⟩
        | ok result => exact ⟨rfl, related_report hk _ hstate⟩

end GroundProgram

end AnswerSetTest
