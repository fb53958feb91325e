import AnswerSetTest.Proofs.Search.Enumeration

/-!
# Foundedness

Consequences are collected until a turn over the clauses changes nothing. Atom zero, which no rule
derives, leaves a turn to spare: this always happens within the limit of `Clause.leastModel`. What
is collected decides stability as the test by subsets does.
-/

namespace AnswerSetTest

namespace Clause

open Interpretation (ofArray)

/-- The turns over the clauses without a limit: the last turn is the one that changes nothing. -/
inductive Runs (clauses : List Clause) : (turns : Nat) → Array Bool → Array Bool → Prop
  | stop {xs ys : Array Bool} (h : clauses.foldl apply (xs, false) = (ys, false)) :
      Runs clauses 1 xs ys
  | turn {turns : Nat} {xs ys zs : Array Bool}
      (h : clauses.foldl apply (xs, false) = (ys, true)) (rest : Runs clauses turns ys zs) :
      Runs clauses (turns + 1) xs zs

variable {clauses : List Clause} {atoms : Array Bool} {a : AtomId}

theorem count_lt_size_of_not_ofArray (ha : a < atoms.size) (hna : ¬ ofArray atoms a) :
    atoms.count true < atoms.size := by
  refine lt_of_le_of_ne Array.count_le_size fun heq => hna ?_
  have hget := Array.count_eq_size.1 heq atoms[a] (Array.getElem_mem ha)
  simp [ofArray, ha, ← hget]

/-- Every turn but the last adds an atom, and `a` is never added. -/
theorem runs_saturate {limit : Nat} (hlt : ∀ c ∈ clauses, c.head < atoms.size)
    (ha : a < atoms.size) (hhead : ∀ c ∈ clauses, c.head ≠ a) (hna : ¬ ofArray atoms a)
    (hlimit : atoms.size ≤ limit + atoms.count true) :
    ∃ turns ≤ limit, Runs clauses turns atoms (saturate clauses limit atoms) := by
  induction limit generalizing atoms with
  | zero =>
    have hcount := count_lt_size_of_not_ofArray ha hna
    omega
  | succ limit ih =>
    have hturn := derives_foldl clauses (fun _ h => h) (atoms, false)
    rw [saturate]
    rcases foldl_apply_changed clauses atoms false hlt with ⟨heq, -⟩ | ⟨hch, hgrow⟩
    · rw [heq]
      exact ⟨1, by omega, .stop heq⟩
    · generalize hys : clauses.foldl apply (atoms, false) = s at *
      obtain ⟨ys, changed⟩ := s
      obtain rfl : changed = true := hch
      have hsize : ys.size = atoms.size := hturn.size
      have hcount : atoms.count true < ys.count true := hgrow
      have hnys : ¬ ofArray ys a := by
        intro hy
        rcases hturn.supported a hy with hx | ⟨c, hc, hca, -⟩
        · exact hna hx
        · exact hhead c hc hca
      obtain ⟨turns, hle, hruns⟩ := ih (by rwa [hsize]) (by rwa [hsize]) hnys (by omega)
      exact ⟨turns + 1, by omega, .turn hys hruns⟩

theorem runs_leastModel {size : Nat} (hlt : ∀ c ∈ clauses, c.head < size) (ha : a < size)
    (hhead : ∀ c ∈ clauses, c.head ≠ a) :
    ∃ turns ≤ size, Runs clauses turns (Array.replicate size false) (leastModel size clauses) :=
  runs_saturate (by simpa using hlt) (by simpa using ha) hhead (not_ofArray_replicate size a)
    (by simp)

end Clause

namespace GroundProgram

variable {p : GroundProgram} {I : Interpretation}

theorem WellFormed.runs_consequences (hp : p.WellFormed) (I : Interpretation) :
    ∃ turns ≤ p.facts.size, Clause.Runs ((p.reduct I).flatMap (GroundRule.clausesWithin I)) turns
      (Array.replicate p.facts.size false) (p.consequences I) := by
  have hpos : 0 < p.facts.size := by
    rw [hp.size_facts]
    exact Nat.succ_pos _
  exact Clause.runs_leastModel (fun c hc => (hp.head_of_mem_reduct hc).2) hpos
    fun c hc => Nat.ne_of_gt (hp.head_of_mem_reduct hc).1

variable {symbols : List Symbol} {instances : List Instance} {shown : Option (List Signature)}

/-- Of a program without disjunctions, the two tests judge a candidate that satisfies all rules
alike, and the consequences that the faster one looks at are those of the loop without a limit. -/
theorem isStable_eq_isMinimal (hs : symbols.Pairwise (· < ·))
    (hd : ¬ (ofInstances symbols instances shown).isDisjunctive)
    (hI : (ofInstances symbols instances shown).Candidate I)
    (hmodel : (ofInstances symbols instances shown).isModel I) :
    let p := ofInstances symbols instances shown
    (∃ turns ≤ p.facts.size,
      Clause.Runs ((p.reduct I).flatMap (GroundRule.clausesWithin I)) turns
        (Array.replicate p.facts.size false) (p.consequences I)) ∧
    p.isStable p.undetermined I = p.isMinimal p.undetermined I := by
  intro p
  have hp : p.WellFormed := wellFormed_ofInstances hs
  have hrules := isModel_iff.1 hmodel
  refine ⟨hp.runs_consequences I, ?_⟩
  rw [Bool.eq_iff_iff, isStable, if_neg hd, isFounded_iff hp hd hI hrules,
    isMinimal_iff hp hI hrules]

theorem isStable_eq_isMinimal_sample :
    Sample.grounded.Candidate (Sample.grounded.candidate 1) ∧
    Sample.grounded.isModel (Sample.grounded.candidate 1) ∧
    Sample.grounded.isStable Sample.grounded.undetermined (Sample.grounded.candidate 1) =
      Sample.grounded.isMinimal Sample.grounded.undetermined (Sample.grounded.candidate 1) := by
  have hs : [Sample.atom].Pairwise (· < ·) := List.pairwise_singleton _ _
  have hrule : ∀ r ∈ Sample.grounded.rules, r.kind = .choice := by
    intro r hr
    obtain ⟨r₀, hr₀, hsimp⟩ := mem_rules_ofInstances.1 hr
    obtain ⟨-, rfl⟩ := GroundRule.simplify?_eq_some.1 hsimp
    obtain rfl := List.mem_singleton.1 hr₀
    rfl
  have hd : ¬ Sample.grounded.isDisjunctive := by
    simp +contextual [isDisjunctive, hrule]
  have hp : Sample.grounded.WellFormed := wellFormed_ofInstances hs
  have hI := candidate_candidate hp 1
  have hmodel : Sample.grounded.isModel (Sample.grounded.candidate 1) := by
    refine List.all_eq_true.2 fun r hr => ?_
    simp [GroundRule.isSatisfied, hrule r hr]
  exact ⟨hI, hmodel, (isStable_eq_isMinimal hs hd hI hmodel).2⟩

end GroundProgram

end AnswerSetTest
