import AnswerSetTest.Proofs.GroundProgram.WellFormed
import AnswerSetTest.Proofs.Symbol.Comparison

/-!
# Reducts

One relation says what a rule asks of a subset `J` of a candidate `I`: with `J = I` it is that the
candidate satisfies the rule, and for smaller `J` that `J` satisfies the rule in the reduct. In
these terms an answer set satisfies all rules and no proper subset of it does, it contains every
fact, and all its atoms are head atoms.
-/

namespace AnswerSetTest

/-- Compares the number of atoms that are true with the bound, as symbols. -/
def CountAtom.Holds (c : CountAtom) (I : Interpretation) : Prop :=
  c.op.Compares (.number (Int64.ofNat (c.atoms.countP I))) c.bound

namespace GroundRule

def Survives (r : GroundRule) (I : Interpretation) : Prop :=
  (∀ a ∈ r.negatives, ¬ I a) ∧ ∀ c ∈ r.counts, c.Holds I

/-- What the head of a rule asks of `J` once the body holds. -/
def HeadHolds (r : GroundRule) (I J : Interpretation) : Prop :=
  match r.kind with
  | .normal | .disjunction => ∃ a ∈ r.head, J a
  | .choice => ∀ a ∈ r.head, I a → J a
  | .falsity => False

/-- Negative literals and counts are judged by `I`, all other atoms by `J`. -/
def HoldsWithin (r : GroundRule) (I J : Interpretation) : Prop :=
  (∀ a ∈ r.positives, J a) → r.Survives I → r.HeadHolds I J

theorem survives_iff {r : GroundRule} {I : Interpretation} : r.survives I ↔ r.Survives I := by
  simp [survives, Survives, CountAtom.holds, CountAtom.Holds, Comparison.holds_iff]

theorem isSatisfied_iff {r : GroundRule} {I : Interpretation} :
    r.isSatisfied I ↔ r.HoldsWithin I I := by
  rw [isSatisfied, bodyHolds, HoldsWithin, HeadHolds, ← survives_iff]
  cases r.kind <;> cases hs : r.survives I <;> simp [imp_iff_not_or]

theorem HeadHolds.of_normal {r : GroundRule} {I J : Interpretation} {a : AtomId}
    (h : r.HeadHolds I J) (hn : ∃ b, r.head = [b]) (hk : r.kind = .normal) (ha : a ∈ r.head) :
    J a := by
  obtain ⟨b, hb⟩ := hn
  rw [HeadHolds, hk, hb] at h
  obtain ⟨d, hd, hJd⟩ := h
  rw [hb] at ha
  rwa [List.mem_singleton.1 ha, ← List.mem_singleton.1 hd]

theorem isSatisfiedWithin_iff {r : GroundRule} {I J : Interpretation} (hk : r.kind ≠ .falsity)
    (hs : r.survives I) : r.isSatisfiedWithin I J ↔ r.HoldsWithin I J := by
  rw [isSatisfiedWithin, HoldsWithin, HeadHolds, ← survives_iff]
  cases h : r.kind <;> simp_all [imp_iff_not_or]

/-- A rule that `I` satisfies and that is not in the reduct asks nothing of the subsets of `I`. -/
theorem HoldsWithin.of_falsity {r : GroundRule} {I J : Interpretation} (h : r.HoldsWithin I I)
    (hk : r.kind = .falsity) (hJ : ∀ a, J a → I a) : r.HoldsWithin I J := by
  intro hpos hs
  have hfalse := h (fun a ha => hJ a (hpos a ha)) hs
  rw [HeadHolds, hk] at hfalse
  exact hfalse.elim

/-- A candidate that satisfies all rules and of which no proper subset satisfies the reduct. -/
structure Stable (rules : List GroundRule) (I : Interpretation) : Prop where
  holds : ∀ r ∈ rules, r.HoldsWithin I I
  minimal : ∀ J : Interpretation, (∀ a, J a → I a) → (∀ r ∈ rules, r.HoldsWithin I J) → J = I

theorem fact_holdsWithin_iff {a : AtomId} {I J : Interpretation} :
    (fact a).HoldsWithin I J ↔ J a := by
  simp [HoldsWithin, HeadHolds, fact, Survives]

namespace Stable

variable {rules : List GroundRule} {I : Interpretation}

theorem head_of_mem (h : Stable rules I) {a : AtomId} (ha : I a) : ∃ r ∈ rules, a ∈ r.head := by
  let J : Interpretation := fun b => I b && rules.any fun r => r.head.contains b
  have hJ : ∀ b, J b ↔ I b ∧ ∃ r ∈ rules, b ∈ r.head := by simp [J]
  have hsub : ∀ b, J b → I b := fun b hb => ((hJ b).1 hb).1
  have hred : ∀ r ∈ rules, r.HoldsWithin I J := by
    intro r hr hpos hs
    have hhead := h.holds r hr (fun b hb => hsub b (hpos b hb)) hs
    unfold HeadHolds at hhead ⊢
    cases hk : r.kind with
    | normal | disjunction =>
      rw [hk] at hhead
      obtain ⟨b, hb, hIb⟩ := hhead
      exact ⟨b, hb, (hJ b).2 ⟨hIb, r, hr, hb⟩⟩
    | choice => exact fun b hb hIb => (hJ b).2 ⟨hIb, r, hr, hb⟩
    | falsity =>
      rw [hk] at hhead
      exact hhead.elim
  have heq := h.minimal J hsub hred
  exact ((hJ a).1 (heq ▸ ha)).2

end Stable

end GroundRule

namespace GroundProgram

/-- A stable interpretation of the known atoms. -/
structure IsAnswerSet (p : GroundProgram) (I : Interpretation) : Prop where
  known : ∀ a, I a → 1 ≤ a ∧ a ≤ p.symbols.length
  stable : GroundRule.Stable p.rules I

variable {p : GroundProgram} {I : Interpretation}

theorem isModel_iff : p.isModel I ↔ ∀ r ∈ p.rules, r.HoldsWithin I I := by
  simp [isModel, GroundRule.isSatisfied_iff]

theorem satisfiesReduct_iff {J : Interpretation} (hI : ∀ r ∈ p.rules, r.HoldsWithin I I)
    (hJ : ∀ a, J a → I a) : p.satisfiesReduct I J ↔ ∀ r ∈ p.rules, r.HoldsWithin I J := by
  simp only [satisfiesReduct, reduct, List.all_filter, List.all_eq_true]
  refine forall₂_congr fun r hr => ?_
  by_cases hk : r.kind = .falsity
  · simpa [hk] using (hI r hr).of_falsity hk hJ
  · by_cases hs : r.survives I
    · simpa [hk, hs] using GroundRule.isSatisfiedWithin_iff hk hs
    · simp [hk, hs, GroundRule.HoldsWithin, ← GroundRule.survives_iff]

theorem WellFormed.isFact_imp {J : Interpretation} (hp : p.WellFormed)
    (hred : ∀ r ∈ p.rules, r.HoldsWithin I J) {a : AtomId} (ha : p.isFact a) : J a :=
  GroundRule.fact_holdsWithin_iff.1 (hred _ (hp.fact_mem a ha))

end GroundProgram

end AnswerSetTest
