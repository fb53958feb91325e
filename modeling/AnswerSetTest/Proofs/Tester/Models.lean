import AnswerSetTest.Tester
import AnswerSetTest.Proofs.AssertionIndex

/-!
# Testers and models

What one model does to a tester that has not failed, and what is known of all models so far as long
as it does not fail.
-/

namespace AnswerSetTest

/-- An atom of a constraint predicate with one or two arguments. -/
def IsConstraint (constraints : List String) (s : Symbol) : Prop :=
  ∃ name ∈ constraints, ∃ args, s = .function name args ∧ (args.length = 1 ∨ args.length = 2)

theorem Symbol.hasSignature_iff {s : Symbol} {name : String} {arity : Nat} :
    s.hasSignature name arity ↔ ∃ args, s = .function name args ∧ args.length = arity := by
  cases s <;> simp [hasSignature]

theorem Model.mem_withSignature {m : Model} {name : String} {arity : Nat} {s : Symbol} :
    s ∈ m.withSignature name arity ↔
      s ∈ m.atoms ∧ ∃ args, s = .function name args ∧ args.length = arity := by
  rw [withSignature, List.mem_filter, Symbol.hasSignature_iff]

namespace Tester

variable {t : Tester} {m : Model} {s : Symbol}

theorem mem_forbidden {constraints : List String} :
    s ∈ forbidden constraints m ↔ s ∈ m.atoms ∧ IsConstraint constraints s := by
  simp only [forbidden, List.mem_flatMap, List.mem_append, Model.mem_withSignature, IsConstraint]
  grind

theorem mem_ensured : s ∈ ensured m ↔ .function "ensure" [s] ∈ m.atoms := by
  simp only [ensured, List.mem_filterMap, Model.mem_withSignature]
  constructor
  · rintro ⟨_, ⟨hm, args, rfl, hlen⟩, hs⟩
    obtain ⟨x, rfl⟩ := List.length_eq_one_iff.1 hlen
    obtain rfl : x = s := Option.some.inj hs
    exact hm
  · intro hm
    exact ⟨_, ⟨hm, [s], rfl, rfl⟩, rfl⟩

theorem mem_foldl_insert {x : AssertionIndex} {ss : List Symbol} :
    s ∈ (ss.foldl AssertionIndex.insert x).assertions ↔ s ∈ x.assertions ∨ s ∈ ss := by
  induction ss generalizing x with
  | nil => simp
  | cons u ss ih => simp [ih, AssertionIndex.insert, or_assoc, or_left_comm]

theorem pairwise_foldl_insert {x : AssertionIndex} {ss : List Symbol}
    (h : x.assertions.Pairwise (· < ·)) :
    (ss.foldl AssertionIndex.insert x).assertions.Pairwise (· < ·) := by
  induction ss generalizing x with
  | nil => exact h
  | cons u ss ih => exact ih (Atoms.pairwise_insert h)

theorem bodies_foldl_insert {x : AssertionIndex} {ss : List Symbol} :
    (ss.foldl AssertionIndex.insert x).bodies = x.bodies := by
  induction ss generalizing x with
  | nil => rfl
  | cons u ss ih => exact ih

theorem outputs_foldl_insert {x : AssertionIndex} {ss : List Symbol} :
    (ss.foldl AssertionIndex.insert x).outputs = x.outputs := by
  induction ss generalizing x with
  | nil => rfl
  | cons u ss ih => exact ih

def accept (t : Tester) (m : Model) : Tester := (t.countModel m).absorb m

def failures (t : Tester) (m : Model) : List Symbol :=
  (t.accept m).index.missingFrom m ++ forbidden t.options.constraints m

theorem mem_accept_assertions :
    s ∈ (t.accept m).index.assertions ↔ s ∈ t.index.assertions ∨ s ∈ ensured m :=
  mem_foldl_insert

theorem mem_accept_pending : s ∈ (t.accept m).pending ↔ s ∈ t.pending ∧ s ∉ m.atoms := by
  simp [accept, absorb, countModel, Model.contains]

theorem mem_failures : s ∈ t.failures m ↔
    (s ∈ t.index.assertions ∨ s ∈ ensured m) ∧ s ∉ m.atoms ∨
      s ∈ m.atoms ∧ IsConstraint t.options.constraints s := by
  rw [failures, List.mem_append, AssertionIndex.mem_missingFrom, mem_accept_assertions,
    mem_forbidden]

section Step

theorem addModel_of_failed (h : t.hasFailed) : t.addModel m = t := if_pos h

variable (hf : ¬ t.hasFailed)

include hf

theorem addModel_of_ambiguous (h : t.index.ambiguous? = some s) :
    t.addModel m = (t.countModel m).fail (.ambiguous t.unit s) := by
  have hcount : (t.countModel m).index.ambiguous? = some s := h
  rw [addModel, if_neg hf]
  dsimp only
  rw [hcount]
  rfl

theorem addModel_of_clear (h : t.index.ambiguous? = none) :
    t.addModel m = (t.countModel m).checkModel m := by
  have hcount : (t.countModel m).index.ambiguous? = none := h
  rw [addModel, if_neg hf]
  dsimp only
  rw [hcount]

theorem addModel_of_accepted (h : t.index.ambiguous? = none) (hm : t.failures m = []) :
    t.addModel m = t.accept m := by
  have hfailures : ((t.countModel m).absorb m).index.missingFrom m ++
      forbidden ((t.countModel m).absorb m).options.constraints m = [] := hm
  rw [addModel_of_clear hf h, checkModel, hfailures]
  rfl

theorem addModel_of_rejected (h : t.index.ambiguous? = none) (hm : t.failures m ≠ []) :
    ∃ message, t.addModel m =
      (t.accept m).fail (.assertion t.unit t.file (t.failures m) message) := by
  rw [addModel_of_clear hf h, checkModel]
  split
  · next hnil => exact absurd hnil hm
  · exact ⟨_, rfl⟩

theorem addModel_cases :
    (t.index.ambiguous? = none ∧ t.failures m = [] ∧ t.addModel m = t.accept m) ∨
    (∃ s, t.index.ambiguous? = some s ∧
      t.addModel m = (t.countModel m).fail (.ambiguous t.unit s)) ∨
    (t.failures m ≠ [] ∧ ∃ message, t.addModel m =
      (t.accept m).fail (.assertion t.unit t.file (t.failures m) message)) := by
  cases h : t.index.ambiguous? with
  | some s => exact .inr (.inl ⟨s, rfl, addModel_of_ambiguous hf h⟩)
  | none =>
    by_cases hm : t.failures m = []
    · exact .inl ⟨rfl, hm, addModel_of_accepted hf h hm⟩
    · exact .inr (.inr ⟨hm, addModel_of_rejected hf h hm⟩)

end Step

/-- A tester ignores a model, accepts it, or fails at it. -/
theorem addModel_induction {P : Tester → Prop} (ignored : P t) (accepted : P (t.accept m))
    (ambiguous : ∀ f, P ((t.countModel m).fail f)) (rejected : ∀ f, P ((t.accept m).fail f)) :
    P (t.addModel m) := by
  by_cases hf : t.hasFailed
  · rwa [addModel_of_failed hf]
  rcases addModel_cases hf (m := m) with ⟨-, -, heq⟩ | ⟨s, -, heq⟩ | ⟨-, message, heq⟩
  · rwa [heq]
  · rw [heq]
    exact ambiguous _
  · rw [heq]
    exact rejected _

@[simp] theorem hasFailed_fail (t : Tester) (f : Failure) : (t.fail f).hasFailed := rfl

@[simp] theorem hasFailed_accept (t : Tester) (m : Model) : ¬ (t.accept m).hasFailed := nofun

theorem foldl_addModel_of_failed (h : t.hasFailed) (ms : List Model) : ms.foldl addModel t = t := by
  induction ms with
  | nil => rfl
  | cons m ms ih => rw [List.foldl_cons, addModel_of_failed h, ih]

theorem ground_addModel (t : Tester) (m : Model) :
    (t.addModel m).index.bodies = t.index.bodies ∧
      (t.addModel m).index.outputs = t.index.outputs := by
  have haccept : (t.accept m).index.bodies = t.index.bodies ∧
      (t.accept m).index.outputs = t.index.outputs := ⟨bodies_foldl_insert, outputs_foldl_insert⟩
  exact addModel_induction (P := fun u => u.index.bodies = t.index.bodies ∧
    u.index.outputs = t.index.outputs) ⟨rfl, rfl⟩ haccept (fun _ => ⟨rfl, rfl⟩) fun _ => haccept

theorem ground_foldl_addModel (t : Tester) (ms : List Model) :
    (ms.foldl addModel t).index.bodies = t.index.bodies ∧
      (ms.foldl addModel t).index.outputs = t.index.outputs := by
  induction ms generalizing t with
  | nil => exact ⟨rfl, rfl⟩
  | cons m ms ih =>
    obtain ⟨hbodies, houtputs⟩ := ih (t.addModel m)
    exact ⟨hbodies.trans (ground_addModel t m).1, houtputs.trans (ground_addModel t m).2⟩

/-- A model that passes has all assertions and no constraint atom. -/
theorem failures_eq_nil_iff : t.failures m = [] ↔
    (∀ s ∈ t.index.assertions, s ∈ m.atoms) ∧ (∀ s ∈ ensured m, s ∈ m.atoms) ∧
      ∀ s ∈ m.atoms, ¬ IsConstraint t.options.constraints s := by
  simp only [List.eq_nil_iff_forall_not_mem, mem_failures]
  grind

structure Passed (t : Tester) (ms : List Model) (r : Tester) : Prop where
  clear : ms ≠ [] → t.index.ambiguous? = none
  assertions : ∀ s ∈ t.index.assertions, ∀ m ∈ ms, s ∈ m.atoms
  allowed : ∀ m ∈ ms, ∀ s ∈ m.atoms, ¬ IsConstraint t.options.constraints s
  mem_assertions : ∀ s, s ∈ r.index.assertions ↔
    s ∈ t.index.assertions ∨ ∃ m ∈ ms, s ∈ ensured m
  assertions_ascending : t.index.assertions.Pairwise (· < ·) →
    r.index.assertions.Pairwise (· < ·)
  mem_pending : ∀ s, s ∈ r.pending ↔ s ∈ t.pending ∧ ∀ m ∈ ms, s ∉ m.atoms
  seen : r.seen = t.seen + ms.length
  unit : r.unit = t.unit
  file : r.file = t.file
  options : r.options = t.options

theorem passed_nil (t : Tester) : Passed t [] t where
  clear h := absurd rfl h
  assertions := nofun
  allowed := nofun
  mem_assertions := by simp
  assertions_ascending := id
  mem_pending := by simp
  seen := rfl
  unit := rfl
  file := rfl
  options := rfl

theorem Passed.cons {ms : List Model} {r : Tester} (h : Passed (t.accept m) ms r)
    (hclear : t.index.ambiguous? = none) (hm : t.failures m = []) : Passed t (m :: ms) r := by
  obtain ⟨hassertions, -, hallowed⟩ := failures_eq_nil_iff.1 hm
  have hsub : ∀ s ∈ t.index.assertions, s ∈ (t.accept m).index.assertions :=
    fun s hs => mem_accept_assertions.2 (.inl hs)
  exact {
    clear := fun _ => hclear
    assertions := fun s hs n hn => by
      rcases List.mem_cons.1 hn with rfl | hn
      · exact hassertions s hs
      · exact h.assertions s (hsub s hs) n hn
    allowed := fun n hn => by
      rcases List.mem_cons.1 hn with rfl | hn
      · exact hallowed
      · exact h.allowed n hn
    mem_assertions := fun s => by
      rw [h.mem_assertions, mem_accept_assertions]
      simp [or_assoc]
    assertions_ascending := fun ha => h.assertions_ascending (pairwise_foldl_insert ha)
    mem_pending := fun s => by
      rw [h.mem_pending, mem_accept_pending]
      simp [and_assoc]
    seen := by
      have hseen : (t.accept m).seen = t.seen + 1 := rfl
      rw [h.seen, hseen, List.length_cons]
      omega
    unit := h.unit
    file := h.file
    options := h.options }

theorem accepted_of_not_failed {ms : List Model} (h : ¬ ((m :: ms).foldl addModel t).hasFailed) :
    t.index.ambiguous? = none ∧ t.failures m = [] ∧ t.addModel m = t.accept m := by
  rw [List.foldl_cons] at h
  by_cases hf : t.hasFailed
  · rw [addModel_of_failed hf, foldl_addModel_of_failed hf] at h
    exact absurd hf h
  rcases addModel_cases hf (m := m) with haccepted | ⟨s, -, heq⟩ | ⟨-, message, heq⟩
  · exact haccepted
  · rw [heq, foldl_addModel_of_failed (hasFailed_fail _ _)] at h
    exact absurd (hasFailed_fail _ _) h
  · rw [heq, foldl_addModel_of_failed (hasFailed_fail _ _)] at h
    exact absurd (hasFailed_fail _ _) h

theorem not_failed_of_append {ms ns : List Model}
    (h : ¬ ((ms ++ ns).foldl addModel t).hasFailed) : ¬ (ms.foldl addModel t).hasFailed := by
  intro hf
  rw [List.foldl_append, foldl_addModel_of_failed hf] at h
  exact h hf

/-- As long as the tester does not fail, all models have passed. -/
theorem passed_of_not_failed {ms : List Model} (h : ¬ (ms.foldl addModel t).hasFailed) :
    Passed t ms (ms.foldl addModel t) := by
  induction ms generalizing t with
  | nil => exact passed_nil t
  | cons m ms ih =>
    obtain ⟨hclear, hm, heq⟩ := accepted_of_not_failed h
    rw [List.foldl_cons, heq] at h ⊢
    exact (ih h).cons hclear hm

end Tester

end AnswerSetTest
