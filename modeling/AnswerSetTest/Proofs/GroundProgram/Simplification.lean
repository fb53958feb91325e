import AnswerSetTest.Proofs.AnswerSet.Reduct

/-!
# Simplification

Taking facts out of bodies, dropping rules with a negated fact and dropping repeated rules changes
no answer sets: whatever satisfies the rules contains the facts, before and after.
-/

namespace AnswerSetTest

namespace GroundRule

variable {isFact : AtomId → Bool} {r : GroundRule} {I J : Interpretation}

@[simp] theorem mem_sortIds {a : AtomId} {ids : List AtomId} : a ∈ sortIds ids ↔ a ∈ ids :=
  mem_ascending

/-- What is left of a rule asks the same of an interpretation with the facts. -/
theorem simplified_holdsWithin_iff (hJ : ∀ a, isFact a → J a) :
    HoldsWithin { r with
      positives := sortIds (r.positives.filter fun a => !isFact a)
      negatives := sortIds r.negatives } I J ↔ r.HoldsWithin I J := by
  have hpos : (∀ a ∈ r.positives.filter fun a => !isFact a, J a) ↔ ∀ a ∈ r.positives, J a := by
    constructor
    · intro h a ha
      cases hf : isFact a with
      | true => exact hJ a hf
      | false => exact h a (by simp [ha, hf])
    · exact fun h a ha => h a (List.mem_filter.1 ha).1
  simp only [HoldsWithin, Survives, mem_sortIds, hpos]
  exact Iff.rfl

theorem simplify?_holdsWithin_iff (hI : ∀ a, isFact a → I a) (hJ : ∀ a, isFact a → J a) :
    (∀ r', r.simplify? isFact = some r' → r'.HoldsWithin I J) ↔ r.HoldsWithin I J := by
  simp only [simplify?_eq_some]
  by_cases hneg : ∀ a ∈ r.negatives, ¬ isFact a
  · rw [← simplified_holdsWithin_iff hJ]
    exact ⟨fun h => h _ ⟨hneg, rfl⟩, fun h r' hr' => hr'.2 ▸ h⟩
  · refine ⟨fun _ _ hs => ?_, fun _ r' hr' => absurd hr'.1 hneg⟩
    -- the candidate contains a fact that the rule negates
    exact absurd (fun a ha hf => hs.1 a ha (hI a hf)) hneg

end GroundRule

namespace GroundProgram

variable {symbols : List Symbol} {instances : List Instance} {shown : Option (List Signature)}
  {I J : Interpretation}

theorem isFact_imp_of_rulesOf (hI : ∀ r ∈ rulesOf symbols instances, r.HoldsWithin I J) {a : AtomId}
    (ha : (ofInstances symbols instances shown).isFact a) : J a := by
  refine Clause.leastModel_le (fun c hc hbody => ?_) ha
  obtain ⟨r, hr, hrc⟩ := List.mem_filterMap.1 hc
  obtain rfl := GroundRule.clause?_eq_some.1 hrc
  obtain ⟨b, hb, hJb⟩ := hI _ hr hbody ⟨by simp, by simp⟩
  exact List.mem_singleton.1 hb ▸ hJb

theorem holdsWithin_ofInstances_iff
    (hI : ∀ a, (ofInstances symbols instances shown).isFact a → I a)
    (hJ : ∀ a, (ofInstances symbols instances shown).isFact a → J a) :
    (∀ r ∈ (ofInstances symbols instances shown).rules, r.HoldsWithin I J) ↔
      ∀ r ∈ rulesOf symbols instances, r.HoldsWithin I J := by
  constructor
  · intro h r hr
    refine (GroundRule.simplify?_holdsWithin_iff hI hJ).1 fun r' hr' => ?_
    exact h r' (mem_rules_ofInstances.2 ⟨r, hr, hr'⟩)
  · intro h r' hr'
    obtain ⟨r, hr, hs⟩ := mem_rules_ofInstances.1 hr'
    exact (GroundRule.simplify?_holdsWithin_iff hI hJ).2 (h r hr) r' hs

theorem stable_ofInstances_iff (hp : symbols.Pairwise (· < ·)) :
    GroundRule.Stable (ofInstances symbols instances shown).rules I ↔
      GroundRule.Stable (rulesOf symbols instances) I := by
  let p := ofInstances symbols instances shown
  have hwf : p.WellFormed := wellFormed_ofInstances hp
  constructor
  · intro h
    have hI : ∀ a, p.isFact a → I a := fun a ha => hwf.isFact_imp h.holds ha
    refine ⟨(holdsWithin_ofInstances_iff hI hI).1 h.holds, fun J hJ hred => h.minimal J hJ ?_⟩
    exact (holdsWithin_ofInstances_iff hI fun a ha => isFact_imp_of_rulesOf hred ha).2 hred
  · intro h
    have hI : ∀ a, p.isFact a → I a := fun a ha => isFact_imp_of_rulesOf h.holds ha
    refine ⟨(holdsWithin_ofInstances_iff hI hI).2 h.holds, fun J hJ hred => h.minimal J hJ ?_⟩
    exact (holdsWithin_ofInstances_iff hI fun a ha => hwf.isFact_imp hred ha).1 hred

end GroundProgram

end AnswerSetTest
