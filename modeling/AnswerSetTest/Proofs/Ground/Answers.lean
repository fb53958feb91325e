import Std.Data.HashMap.Lemmas
import AnswerSetTest.Proofs.Ground.Simulation
import AnswerSetTest.Proofs.Ground.Valuation

/-!
# Fixed answers

If the answers of a handler depend on name and arguments alone, matching and instantiation give
what they give with fixed answers, whatever the handler's state and whichever answers are kept.
-/

namespace AnswerSetTest

open Term (Evaluation)

variable {σ : Type} {handler : Handler σ} {answer : String → List Symbol → Except String Symbol}

/-- Answers a call without a handler. -/
def Term.fixed (answer : String → List Symbol → Except String Symbol) (name : String)
    (args : List Symbol) : Evaluation Unit Symbol :=
  fun _ => ((answer name args).mapError (.call name), ())

namespace Valuation

/-- The values that a term evaluates to with fixed answers. -/
def answered? (answer : String → List Symbol → Except String Symbol) (b : Binding) (t : Term) :
    Option (List Symbol) :=
  ((t.eval (Term.fixed answer) b ()).1).toOption

theorem answered?_eq_some {b : Binding} {t : Term} {vs : List Symbol} :
    answered? answer b t = some vs ↔ t.eval (Term.fixed answer) b () = (.ok vs, ()) := by
  rw [answered?, Prod.ext_iff]
  cases (t.eval (Term.fixed answer) b ()).1 with
  | ok ws => simp [Except.toOption]
  | error e => simp [Except.toOption]

def answered (answer : String → List Symbol → Except String Symbol) : Valuation where
  values := answered? answer
  values_variable b v := by
    rw [answered?, Term.eval]
    cases b.get? v with
    | some s => rfl
    | none => rfl
  mono {b c t vs} h ht := by
    have hfollows : Follows (t.eval (Term.fixed answer) b) (t.eval (Term.fixed answer) c) :=
      Term.follows_eval (P := fun _ => True) (fun v _ s hs => h v s hs) trivial t
        fun _ _ => trivial
    exact answered?_eq_some.2 (hfollows _ _ _ (answered?_eq_some.1 ht))
  of_le {b c t vs} h hc hb ht := by
    have hvalues : ∀ v, v ∈ t.vars ∨ v = "_" → ∀ s, c.get? v = some s → b.get? v = some s := by
      rintro v (hv | rfl) s hs
      · obtain ⟨u, hu⟩ := Option.isSome_iff_exists.1 (hb v hv)
        rwa [hu, ← h v u hu]
      · rw [hc] at hs
        cases hs
    have hfollows : Follows (t.eval (Term.fixed answer) c) (t.eval (Term.fixed answer) b) :=
      Term.follows_eval hvalues (.inr rfl) t fun _ hv => .inl hv
    exact answered?_eq_some.2 (hfollows _ _ _ (answered?_eq_some.1 ht))

theorem answered_gives (answer : String → List Symbol → Except String Symbol) (t : Term) :
    (answered answer).Gives (Term.fixed answer) t :=
  fun _ _ _ _ hrun => answered?_eq_some.2 hrun

end Valuation

/-- The answers that are kept are those that the handler gives. -/
def Scratch.Consistent (answer : String → List Symbol → Except String Symbol) (s : Scratch σ) :
    Prop :=
  ∀ (key : CallKey) value, s.answers[key]? = some value → answer key.name key.args = .ok value

theorem Scratch.consistent_empty (w : σ) : Scratch.Consistent answer ⟨w, ∅⟩ := by
  simp [Scratch.Consistent]

theorem Scratch.Consistent.insert {s : Scratch σ} (hs : s.Consistent answer) {key : CallKey}
    {value : Symbol} (hvalue : answer key.name key.args = .ok value) :
    Scratch.Consistent answer { s with answers := s.answers.insert key value } := by
  intro key' value' hkept
  rw [Std.HashMap.getElem?_insert] at hkept
  split at hkept
  · next hkey =>
    obtain rfl := eq_of_beq hkey
    obtain rfl := Option.some.inj hkept
    exact hvalue
  · exact hs key' value' hkept

namespace Grounding

theorem agree_answer_fixed (h : handler.AnswersBy answer) (name : String) (args : List Symbol) :
    Agree (fun (s : Scratch σ) (_ : Unit) => s.Consistent answer)
      (Grounding.answer handler name args) (Term.fixed answer name args) := by
  intro s t hs
  have hvalue := h name args s.world
  cases hrun : (handler.call name args).run s.world with
  | mk r w =>
    rw [hrun] at hvalue
    cases r with
    | ok value =>
      rw [answer_of_ok hrun, Term.fixed, ← hvalue]
      exact ⟨rfl, hs⟩
    | error message =>
      rw [answer_of_error hrun, Term.fixed, ← hvalue]
      exact ⟨rfl, hs⟩

theorem agree_answerOnce_fixed (h : handler.AnswersBy answer) (rule : Nat) (name : String)
    (args : List Symbol) :
    Agree (fun (s : Scratch σ) (_ : Unit) => s.Consistent answer)
      (answerOnce handler rule name args) (Term.fixed answer name args) := by
  intro s t hs
  have hvalue := h name args s.world
  obtain ⟨value, hkept, hrun⟩ | ⟨-, ⟨message, w, hcall, hrun⟩ | ⟨value, w, hcall, hrun⟩⟩ :=
    answerOnce_cases (h := handler) rule name args s
  · have hanswer : answer name args = .ok value := hs _ value hkept
    rw [hrun, Term.fixed, hanswer]
    exact ⟨rfl, hs⟩
  · rw [hcall] at hvalue
    rw [hrun, Term.fixed, ← hvalue]
    exact ⟨rfl, hs⟩
  · rw [hcall] at hvalue
    rw [hrun, Term.fixed, ← hvalue]
    exact ⟨rfl, Scratch.Consistent.insert hs hvalue.symm⟩

end Grounding

end AnswerSetTest
