import AnswerSetTest.Proofs.AnswerSet.Reduct
import AnswerSetTest.Proofs.Search.Mask

/-!
# Stability tests

Both tests of a candidate that satisfies all rules, the one by its consequences and the one by its
subsets, succeed just if no proper subset satisfies the reduct. Every answer set is a candidate,
so the search misses none.
-/

namespace AnswerSetTest.GroundProgram

open Interpretation (ofArray ofMask)

/-- The facts with any of the undetermined atoms. -/
structure Candidate (p : GroundProgram) (I : Interpretation) : Prop where
  facts : ∀ a, p.isFact a → I a
  chosen : ∀ a, I a → p.isFact a ∨ a ∈ p.undetermined

def Minimal (p : GroundProgram) (I : Interpretation) : Prop :=
  ∀ J : Interpretation, (∀ a, J a → I a) → (∀ r ∈ p.rules, r.HoldsWithin I J) → J = I

variable {p : GroundProgram} {I : Interpretation}

theorem mem_undetermined {a : AtomId} :
    a ∈ p.undetermined ↔ (∃ r ∈ p.rules, a ∈ r.head) ∧ ¬ p.isFact a := by
  simp [undetermined]

theorem undetermined_ascending (p : GroundProgram) : p.undetermined.Pairwise (· < ·) :=
  pairwise_lt_ascending _

theorem WellFormed.lt_size_of_mem_undetermined (hp : p.WellFormed) {a : Nat}
    (ha : a ∈ p.undetermined) : a < p.facts.size := by
  obtain ⟨⟨r, hr, hhead⟩, -⟩ := mem_undetermined.1 ha
  rw [hp.size_facts]
  exact Nat.lt_succ_of_le (hp.head_le r hr a hhead).2

theorem WellFormed.length_undetermined_le (hp : p.WellFormed) :
    p.undetermined.length ≤ p.symbols.length := by
  have hnodup : p.undetermined.Nodup := (undetermined_ascending p).imp fun h => Nat.ne_of_lt h
  have hsub : p.undetermined ⊆ List.range' 1 p.symbols.length := by
    intro a ha
    obtain ⟨⟨r, hr, hhead⟩, -⟩ := mem_undetermined.1 ha
    obtain ⟨hone, hle⟩ := hp.head_le r hr a hhead
    exact List.mem_range'_1.2 ⟨hone, Nat.lt_one_add_iff.2 hle⟩
  calc p.undetermined.length ≤ (List.range' 1 p.symbols.length).length :=
        (hnodup.subperm hsub).length_le
    _ = p.symbols.length := List.length_range'

theorem WellFormed.fact_le (hp : p.WellFormed) {a : Nat} (ha : p.isFact a) :
    1 ≤ a ∧ a ≤ p.symbols.length :=
  hp.head_le _ (hp.fact_mem a ha) a (List.mem_singleton.2 rfl)

theorem Candidate.known (hp : p.WellFormed) (hI : p.Candidate I) {a : Nat} (ha : I a) :
    1 ≤ a ∧ a ≤ p.symbols.length := by
  rcases hI.chosen a ha with hf | hu
  · exact hp.fact_le hf
  · obtain ⟨⟨r, hr, hhead⟩, -⟩ := mem_undetermined.1 hu
    exact hp.head_le r hr a hhead

theorem candidate_of_isAnswerSet (hp : p.WellFormed) (h : p.IsAnswerSet I) : p.Candidate I := by
  refine ⟨fun a ha => hp.isFact_imp h.stable.holds ha, fun a ha => ?_⟩
  by_cases hf : p.isFact a
  · exact .inl hf
  · exact .inr (mem_undetermined.2 ⟨h.stable.head_of_mem ha, hf⟩)

section Subsets

theorem chosen_ascending (p : GroundProgram) (I : Interpretation) :
    (p.undetermined.filter I).Pairwise (· < ·) :=
  (undetermined_ascending p).filter I

theorem WellFormed.lt_size_of_mem_chosen (hp : p.WellFormed) :
    ∀ a ∈ p.undetermined.filter I, a < p.facts.size :=
  fun _ ha => hp.lt_size_of_mem_undetermined (List.mem_filter.1 ha).1

theorem not_fact_of_mem_chosen : ∀ a ∈ p.undetermined.filter I, ¬ ofArray p.facts a :=
  fun _ ha => (mem_undetermined.1 (List.mem_filter.1 ha).1).2

theorem ofMask_full (hp : p.WellFormed) (hI : p.Candidate I) :
    ofMask p.facts (places p.facts.size (p.undetermined.filter I))
      (2 ^ (p.undetermined.filter I).length - 1) = I := by
  have hn : (p.undetermined.filter I).Nodup := (chosen_ascending p I).imp fun h => Nat.ne_of_lt h
  funext a
  rw [Bool.eq_iff_iff, ofMask_iff hn hp.lt_size_of_mem_chosen]
  constructor
  · rintro (hf | ⟨i, hi, -⟩)
    · exact hI.facts a hf
    · exact (List.mem_filter.1 (List.mem_of_getElem? hi)).2
  · intro ha
    rcases hI.chosen a ha with hf | hu
    · exact .inl hf
    · obtain ⟨i, hi⟩ := List.mem_iff_getElem?.1 (List.mem_filter.2 ⟨hu, ha⟩)
      have hlt := (List.getElem?_eq_some_iff.1 hi).1
      exact .inr ⟨i, hi, by simpa using hlt⟩

theorem ofMask_subset (hp : p.WellFormed) (hI : p.Candidate I) {mask a : Nat}
    (ha : ofMask p.facts (places p.facts.size (p.undetermined.filter I)) mask a) : I a := by
  have hn : (p.undetermined.filter I).Nodup := (chosen_ascending p I).imp fun h => Nat.ne_of_lt h
  rcases (ofMask_iff hn hp.lt_size_of_mem_chosen).1 ha with hf | ⟨i, hi, -⟩
  · exact hI.facts a hf
  · exact (List.mem_filter.1 (List.mem_of_getElem? hi)).2

/-- The test by subsets leaves out the mask of the candidate itself, and it may leave out subsets
that lack a fact because none of them satisfies the reduct. -/
theorem isMinimal_iff (hp : p.WellFormed) (hI : p.Candidate I)
    (hmodel : ∀ r ∈ p.rules, r.HoldsWithin I I) :
    p.isMinimal p.undetermined I ↔ p.Minimal I := by
  have hn : (p.undetermined.filter I).Nodup := (chosen_ascending p I).imp fun h => Nat.ne_of_lt h
  have hpos : 0 < 2 ^ (p.undetermined.filter I).length := Nat.two_pow_pos _
  rw [isMinimal, Bool.not_eq_true', ← Bool.not_eq_true, anyFrom_iff]
  constructor
  · intro hnone J hJ hred
    obtain ⟨mask, hlt, hmask⟩ := exists_mask hn hp.lt_size_of_mem_chosen
      (fun a ha => hp.isFact_imp hred ha)
      (fun a ha => (hI.chosen a (hJ a ha)).imp_right fun hu => List.mem_filter.2 ⟨hu, hJ a ha⟩)
    by_contra hne
    have hfull : mask ≠ 2 ^ (p.undetermined.filter I).length - 1 := by
      rintro rfl
      exact hne (hmask.symm.trans (ofMask_full hp hI))
    have hsat : p.satisfiesReduct I J := (satisfiesReduct_iff hmodel hJ).2 hred
    refine hnone ⟨mask, Nat.zero_le _, ?_, by rwa [hmask]⟩
    change mask < 0 + (2 ^ (p.undetermined.filter I).length - 1)
    omega
  · rintro hmin ⟨mask, -, hlt, hsat⟩
    have hsub : ∀ a, Interpretation.ofMask p.facts
        (places p.facts.size (p.undetermined.filter I)) mask a → I a :=
      fun _ => ofMask_subset hp hI
    have heq := hmin _ hsub ((satisfiesReduct_iff hmodel hsub).1 hsat)
    have hmask : mask < 2 ^ (p.undetermined.filter I).length - 1 := by
      change mask < 0 + (2 ^ (p.undetermined.filter I).length - 1) at hlt
      omega
    obtain ⟨a, -, hm, hfull, -⟩ := exists_atom_of_mask_lt (chosen_ascending p I)
      hp.lt_size_of_mem_chosen not_fact_of_mem_chosen hmask (by omega)
    rw [heq] at hm
    rw [ofMask_full hp hI] at hfull
    exact hm hfull

end Subsets

section Consequences

theorem kind_ne_disjunction (hd : ¬ p.isDisjunctive) : ∀ r ∈ p.rules, r.kind ≠ .disjunction := by
  intro r hr hk
  exact hd (List.any_eq_true.2 ⟨r, hr, decide_eq_true hk⟩)

theorem mem_clausesWithin {r : GroundRule} {c : Clause} : c ∈ r.clausesWithin I ↔
    ∃ a ∈ r.head, (r.kind = .normal ∨ I a) ∧ c = ⟨a, r.positives⟩ := by
  simp only [GroundRule.clausesWithin, List.mem_map, List.mem_filter, Bool.or_eq_true,
    decide_eq_true_eq, and_assoc, @eq_comm _ c]

/-- Without disjunctions the reduct of a model says the same as its clauses. -/
theorem closed_clausesWithin_iff (hp : p.WellFormed) (hd : ¬ p.isDisjunctive)
    (hmodel : ∀ r ∈ p.rules, r.HoldsWithin I I) {J : Interpretation} (hJ : ∀ a, J a → I a) :
    Clause.Closed ((p.reduct I).flatMap (GroundRule.clausesWithin I)) J ↔
      ∀ r ∈ p.rules, r.HoldsWithin I J := by
  constructor
  · intro hcl r hr hpos hs
    have hclause : ∀ a ∈ r.head, r.kind ≠ .falsity → (r.kind = .normal ∨ I a) → J a := by
      intro a ha hk hIa
      refine hcl ⟨a, r.positives⟩ (List.mem_flatMap.2 ⟨r, ?_, ?_⟩) hpos
      · exact List.mem_filter.2 ⟨hr, by simp [hk, GroundRule.survives_iff.2 hs]⟩
      · exact mem_clausesWithin.2 ⟨a, ha, hIa, rfl⟩
    rw [GroundRule.HeadHolds]
    cases hk : r.kind with
    | normal =>
      obtain ⟨a, ha⟩ := hp.normal_head r hr hk
      exact ⟨a, by simp [ha], hclause a (by simp [ha]) (by simp [hk]) (.inl hk)⟩
    | disjunction => exact absurd hk (kind_ne_disjunction hd r hr)
    | choice => exact fun a ha hIa => hclause a ha (by simp [hk]) (.inr hIa)
    | falsity =>
      have hfalse := (hmodel r hr).of_falsity hk hJ hpos hs
      rw [GroundRule.HeadHolds, hk] at hfalse
      exact hfalse
  · intro hred c hc hbody
    obtain ⟨r, hr, hrc⟩ := List.mem_flatMap.1 hc
    obtain ⟨hr, hsurv⟩ := List.mem_filter.1 hr
    obtain ⟨a, ha, hIa, rfl⟩ := mem_clausesWithin.1 hrc
    have hs : r.Survives I := by
      rw [Bool.and_eq_true] at hsurv
      exact GroundRule.survives_iff.1 hsurv.2
    have hhead := hred r hr hbody hs
    cases hk : r.kind with
    | normal => exact hhead.of_normal (hp.normal_head r hr hk) hk ha
    | disjunction => exact absurd hk (kind_ne_disjunction hd r hr)
    | choice =>
      rw [GroundRule.HeadHolds, hk] at hhead
      exact hhead a ha (hIa.resolve_left (by simp [hk]))
    | falsity =>
      rw [GroundRule.HeadHolds, hk] at hhead
      exact hhead.elim

theorem WellFormed.head_of_mem_reduct (hp : p.WellFormed) {c : Clause}
    (hc : c ∈ (p.reduct I).flatMap (GroundRule.clausesWithin I)) :
    1 ≤ c.head ∧ c.head < p.facts.size := by
  obtain ⟨r, hr, hrc⟩ := List.mem_flatMap.1 hc
  obtain ⟨a, ha, -, rfl⟩ := mem_clausesWithin.1 hrc
  obtain ⟨hone, hle⟩ := hp.head_le r (List.mem_filter.1 hr).1 a ha
  rw [hp.size_facts]
  exact ⟨hone, Nat.lt_succ_of_le hle⟩

theorem isFounded_iff (hp : p.WellFormed) (hd : ¬ p.isDisjunctive) (hI : p.Candidate I)
    (hmodel : ∀ r ∈ p.rules, r.HoldsWithin I I) : p.isFounded I ↔ p.Minimal I := by
  have hsub : ∀ a, ofArray (p.consequences I) a → I a := fun a ha =>
    Clause.leastModel_le ((closed_clausesWithin_iff hp hd hmodel fun _ h => h).2 hmodel) ha
  have hfounded : p.isFounded I ↔ ofArray (p.consequences I) = I := by
    simp only [isFounded, List.all_eq_true, List.mem_range, beq_iff_eq]
    refine ⟨fun h => funext fun a => ?_, fun h a _ => congrFun h a⟩
    by_cases ha : a < (p.consequences I).size
    · exact h a ha
    · have hnc : ¬ ofArray (p.consequences I) a := fun hc => ha (Clause.lt_size_of_ofArray hc)
      have hnI : ¬ I a := by
        intro hIa
        have hle := (hI.known hp hIa).2
        rw [consequences, Clause.size_leastModel, hp.size_facts] at ha
        exact ha (Nat.lt_succ_of_le hle)
      rw [Bool.eq_iff_iff]
      exact ⟨fun h => absurd h hnc, fun h => absurd h hnI⟩
  rw [hfounded]
  constructor
  · intro heq J hJ hred
    have hcl := (closed_clausesWithin_iff hp hd hmodel hJ).2 hred
    funext a
    rw [Bool.eq_iff_iff]
    refine ⟨hJ a, fun ha => ?_⟩
    have hc : ofArray (p.consequences I) a := by rwa [heq]
    exact Clause.leastModel_le hcl hc
  · intro hmin
    exact hmin _ hsub ((closed_clausesWithin_iff hp hd hmodel hsub).1
      (Clause.closed_leastModel fun c hc => (hp.head_of_mem_reduct hc).2))

end Consequences

/-- The test of the search accepts just the answer sets among its candidates. -/
theorem isModel_and_isStable_iff (hp : p.WellFormed) (hI : p.Candidate I) :
    (p.isModel I && p.isStable p.undetermined I) ↔ p.IsAnswerSet I := by
  rw [Bool.and_eq_true, isModel_iff]
  have hstable : (∀ r ∈ p.rules, r.HoldsWithin I I) →
      (p.isStable p.undetermined I ↔ p.Minimal I) := by
    intro hmodel
    rw [isStable]
    split
    · exact isMinimal_iff hp hI hmodel
    · next hd => exact isFounded_iff hp hd hI hmodel
  constructor
  · rintro ⟨hmodel, hs⟩
    exact ⟨fun a ha => hI.known hp ha, ⟨hmodel, (hstable hmodel).1 hs⟩⟩
  · intro h
    exact ⟨h.stable.holds, (hstable h.stable.holds).2 h.stable.minimal⟩

end AnswerSetTest.GroundProgram
