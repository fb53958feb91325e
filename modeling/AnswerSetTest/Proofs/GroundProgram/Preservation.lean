import AnswerSetTest.Proofs.AnswerSet.Representation
import AnswerSetTest.Proofs.GroundProgram.Simplification

/-!
# Preservation

A ground program that is made of instances has their answer sets, whatever the counts of the
instances are, and all its facts are in each of them. Only the atoms of heads and of positive
literals have to be known: a negated atom that is not known is in no answer set.
-/

namespace AnswerSetTest

namespace GroundProgram

variable {symbols : List Symbol} {instances : List Instance} {shown : Option (List Signature)}
  {A : Finset Symbol}

theorem subset_of_isAnswerSetBy {counts : PendingCount → Finset Symbol → Prop}
    (hknown : ∀ i ∈ instances, i.Known symbols)
    (hA : Instance.IsAnswerSetBy counts {i | i ∈ instances} A) : ∀ s ∈ A, s ∈ symbols := by
  intro s hs
  obtain ⟨i, hi, -, -, hhead⟩ := hA.exists_head hs
  exact (hknown i hi).head s hhead

/-- The answer sets of the ground program are those of the instances, if each count, once it is
resolved, holds where `counts` says. -/
theorem exists_isAnswerSet_iff {counts : PendingCount → Finset Symbol → Prop}
    (hp : symbols.Pairwise (· < ·)) (hknown : ∀ i ∈ instances, i.Known symbols)
    (hcounts : ∀ I B, Represents symbols I B →
      ∀ i ∈ instances, ∀ c ∈ i.counts, (c.resolve symbols).Holds I ↔ counts c B) :
    (∃ I, (ofInstances symbols instances shown).IsAnswerSet I ∧
      (ofInstances symbols instances shown).trueSymbols I = A) ↔
      Instance.IsAnswerSetBy counts {i | i ∈ instances} A := by
  have hwf : (ofInstances symbols instances shown).WellFormed := wellFormed_ofInstances hp
  constructor
  · rintro ⟨I, hI, rfl⟩
    have hrep := Represents.trueSymbols hwf hI.known
    have hrules := (stable_ofInstances_iff hp).1 hI.stable
    exact (stable_rulesOf_iff hrep hp hknown (hcounts _ _ hrep)).1 hrules
  · intro hA
    have hrep := Represents.ofSymbols (subset_of_isAnswerSetBy hknown hA)
    have hstable := (stable_rulesOf_iff hrep hp hknown (hcounts _ _ hrep)).2 hA
    refine ⟨_, ⟨hrep.known, (stable_ofInstances_iff hp).2 hstable⟩, ?_⟩
    exact (hrep.eq_iff (Represents.trueSymbols hwf hrep.known)).1 rfl

theorem fact_mem_trueSymbols (hp : symbols.Pairwise (· < ·)) {I : Interpretation}
    (hI : (ofInstances symbols instances shown).IsAnswerSet I) {s : Symbol} {a : AtomId}
    (hs : Numbered symbols s a) (ha : (ofInstances symbols instances shown).isFact a) :
    s ∈ (ofInstances symbols instances shown).trueSymbols I := by
  have hwf : (ofInstances symbols instances shown).WellFormed := wellFormed_ofInstances hp
  have hrep := Represents.trueSymbols hwf hI.known
  exact (hrep.iff_mem s a hs).1 (hwf.isFact_imp hI.stable.holds ha)

/-- Making a ground program of instances keeps their answer sets: the sets of symbols that satisfy
the instances as they are, each count by the number of atoms that an element of it matches. The
atoms that are marked as facts are known, and they are in every answer set. -/
theorem ofInstances_answerSets (hp : symbols.Pairwise (· < ·))
    (hknown : ∀ i ∈ instances, i.Known symbols) :
    let p := ofInstances symbols instances shown
    (∀ A : Finset Symbol, (∃ I, p.IsAnswerSet I ∧ p.trueSymbols I = A) ↔
      Instance.IsAnswerSetBy PendingCount.HoldsAmong {i | i ∈ instances} A) ∧
    ∀ a, p.isFact a → ∃ s, Numbered symbols s a ∧
      ∀ A, Instance.IsAnswerSetBy PendingCount.HoldsAmong {i | i ∈ instances} A → s ∈ A := by
  intro p
  have hwf : p.WellFormed := wellFormed_ofInstances hp
  have hiff : ∀ A : Finset Symbol, (∃ I, p.IsAnswerSet I ∧ p.trueSymbols I = A) ↔
      Instance.IsAnswerSetBy PendingCount.HoldsAmong {i | i ∈ instances} A := fun A =>
    exists_isAnswerSet_iff hp hknown fun I B hrep i _ c _ =>
      PendingCount.holds_resolve_iff_holdsAmong hrep hp
  refine ⟨hiff, fun a ha => ?_⟩
  obtain ⟨hone, hle⟩ := hwf.fact_le ha
  obtain ⟨s, hs⟩ := Numbered.exists_of_le hone hle
  refine ⟨s, hs, fun A hA => ?_⟩
  obtain ⟨I, hI, rfl⟩ := (hiff A).2 hA
  exact fact_mem_trueSymbols hp hI hs ha

end GroundProgram

/-!
The rules `a` and `{ b } :- a, not c, { a } >= 1`, where `c` is not known.
-/

namespace Sample

def known : List Symbol := [.constant "a", .constant "b"]

def countOfFact : PendingCount := ⟨[.constant "a"], .empty, .ge, .number 1⟩

def factRule : Instance := ⟨.normal, [.constant "a"], [], [], []⟩

def choiceRule : Instance :=
  ⟨.choice, [.constant "b"], [.constant "a"], [.constant "c"], [countOfFact]⟩

theorem isAnswerSetBy_both :
    Instance.IsAnswerSetBy PendingCount.HoldsAmong {i | i ∈ [factRule, choiceRule]}
      {.constant "a", .constant "b"} where
  holds i hi := by
    obtain rfl | rfl : i = factRule ∨ i = choiceRule := by simpa using hi
    · exact fun _ _ s hs => by simp [List.mem_singleton.1 hs]
    · exact fun _ _ s _ hA => hA
  minimal J hJ hred := by
    have ha : .constant "a" ∈ J := hred factRule (by simp) (by simp [factRule])
      ⟨by simp [factRule], by simp [factRule]⟩ _ (List.mem_singleton_self _)
    have hsurvives : choiceRule.SurvivesBy PendingCount.HoldsAmong
        {.constant "a", .constant "b"} := by
      refine ⟨by decide, fun c hc => ?_⟩
      obtain rfl := List.mem_singleton.1 hc
      decide
    have hb : .constant "b" ∈ J := hred choiceRule (by simp) (by simpa [choiceRule] using ha)
      hsurvives _ (List.mem_singleton_self _) (by simp)
    exact Finset.Subset.antisymm hJ (by simp [Finset.insert_subset_iff, ha, hb])

end Sample

namespace GroundProgram

theorem ofInstances_answerSets_sample :
    Sample.known.Pairwise (· < ·) ∧
    (∀ i ∈ [Sample.factRule, Sample.choiceRule], i.Known Sample.known) ∧
    let p := ofInstances Sample.known [Sample.factRule, Sample.choiceRule] none
    ∃ I, p.IsAnswerSet I ∧ p.trueSymbols I = {.constant "a", .constant "b"} := by
  have hp : Sample.known.Pairwise (· < ·) := by decide
  have hknown : ∀ i ∈ [Sample.factRule, Sample.choiceRule], i.Known Sample.known := by
    simp only [List.forall_mem_cons, List.not_mem_nil, false_imp_iff, implies_true, and_true]
    exact ⟨⟨by decide, by decide⟩, by decide, by decide⟩
  exact ⟨hp, hknown, ((ofInstances_answerSets hp hknown).1 _).2 Sample.isAnswerSetBy_both⟩

end GroundProgram

end AnswerSetTest
