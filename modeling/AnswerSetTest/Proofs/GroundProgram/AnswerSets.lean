import AnswerSetTest.Proofs.AnswerSet.FullInstantiation
import AnswerSetTest.Proofs.Ground.Instantiation
import AnswerSetTest.Proofs.GroundProgram.Rounds

/-!
# Answer sets of ground programs

Grounding keeps the answer sets of the full instantiation, in which every rule has an instance for
each assignment of symbols to its variables, although there are infinitely many of them.
-/

namespace AnswerSetTest

namespace Instantiated

variable {rules : List Rule} {known : List Symbol} {instances : List Instance}

theorem known_of_mem (h : Instantiated rules known instances) : ∀ i ∈ instances, i.Known known := by
  intro i hi
  exact ⟨h.head_known i hi, ((h.mem_iff i).1 hi).2⟩

theorem elements_pattern (h : Instantiated rules known instances) (hplain : ∀ r ∈ rules, r.Plain) :
    ∀ i ∈ instances, ∀ c ∈ i.counts, ∀ t ∈ c.elements, t.Pattern := by
  intro i hi
  obtain ⟨⟨r, hr, b, hinst⟩, -⟩ := (h.mem_iff i).1 hi
  exact hinst.elements (hplain r hr)

theorem isAnswerSet_iff (h : Instantiated rules known instances) {A : Finset Symbol} :
    Instance.IsAnswerSet (Rule.fullInstantiation rules) A ↔
      Instance.IsAnswerSet {i | i ∈ instances} A := by
  let all : Set Instance := {i | ∃ r ∈ rules, ∃ b, r.Instantiates b i}
  have hmem : ∀ i, i ∈ instances ↔ i ∈ all ∧ ∀ s ∈ i.positives, s ∈ known := h.mem_iff
  have hclosed : ∀ i ∈ all, (∀ s ∈ i.positives, s ∈ {s | s ∈ known}) →
      ∀ s ∈ i.head, s ∈ {s | s ∈ known} :=
    fun i hi hpos => h.head_known i ((hmem i).2 ⟨hi, hpos⟩)
  have hsame : {i ∈ all | ∀ s ∈ i.positives, s ∈ {s | s ∈ known}} = {i | i ∈ instances} :=
    Set.ext fun i => (hmem i).symm
  rw [← Instance.isAnswerSet_congr (Rule.paired_fullInstantiation rules),
    Instance.isAnswerSet_iff_of_closed hclosed, hsame]

end Instantiated

namespace GroundProgram

variable {rules : List Rule} {symbols : List Symbol} {instances : List Instance}
  {shown : Option (List Signature)}

/-- The answer sets of the ground program are those of the full instantiation. -/
theorem exists_answerSet_iff {p : GroundProgram} (h : Instantiated rules symbols instances)
    (hp : symbols.Pairwise (· < ·)) (hplain : ∀ r ∈ rules, r.Plain)
    (hof : p = ofInstances symbols instances shown) (A : Finset Symbol) :
    (∃ I, p.IsAnswerSet I ∧ p.trueSymbols I = A) ↔
      Instance.IsAnswerSet (Rule.fullInstantiation rules) A := by
  subst hof
  rw [h.isAnswerSet_iff, Instance.isAnswerSet_iff_by]
  refine exists_isAnswerSet_iff hp h.known_of_mem fun I B hrep i hi c hc => ?_
  exact PendingCount.holds_resolve_iff hrep hp h.length_le (h.elements_pattern hplain i hi c hc)

end GroundProgram

namespace GroundProgram

variable {σ : Type} {handler : Handler σ} {program : Program} {parts : List Part} {s : Selection}
  {w w' : σ} {p : GroundProgram}

/-- Grounding keeps the answer sets of the full instantiation of the selected rules, which may be
any rules without calls (`Program.select_plain`). Every atom of an answer set is in the head of an
instance whose body holds, so externals that no rule derives are false. -/
theorem ground_answerSets (hselect : program.select parts = .ok s)
    (hplain : ∀ r ∈ s.rules, r.Plain) (h : ground handler program parts w = (.ok p, w')) :
    (∀ A : Finset Symbol, (∃ I, p.IsAnswerSet I ∧ p.trueSymbols I = A) ↔
      Instance.IsAnswerSet (Rule.fullInstantiation s.rules) A) ∧
    ∀ I, p.IsAnswerSet I → ∀ a ∈ p.trueSymbols I, ∃ i ∈ Rule.fullInstantiation s.rules,
      a ∈ i.head ∧ (∀ t ∈ i.positives, t ∈ p.trueSymbols I) ∧ i.Survives (p.trueSymbols I) := by
  obtain ⟨s', symbols, instances, scratch, hselect', hrun, hof, -⟩ := ground_eq_ok h
  rw [hselect, Except.ok.injEq] at hselect'
  subst hselect'
  obtain ⟨hascending, hinstantiated⟩ := Grounding.returns_ofSelection hplain _ _ _ hrun
  have hiff := exists_answerSet_iff hinstantiated hascending hplain hof
  refine ⟨hiff, fun I hI a ha => ?_⟩
  obtain ⟨i, hi, hpositives, hsurvives, hhead⟩ := ((hiff _).1 ⟨I, hI, rfl⟩).exists_head ha
  exact ⟨i, hi, hhead, hpositives, hsurvives⟩

/-- A program with an external, negation, a comparison, a disjunction and a count has the answer
sets of its full instantiation, two sets of symbols. -/
theorem ground_answerSets_sample :
    let h : Handler Unit := FunctionTable.empty.handler
    let s := Sample.Mixed.selection
    Sample.Mixed.program.select Sample.parts = .ok s ∧ (∀ r ∈ s.rules, r.Plain) ∧
    ∃ p w', ground h Sample.Mixed.program Sample.parts () = (.ok p, w') ∧
      ∀ A, Instance.IsAnswerSet (Rule.fullInstantiation s.rules) A ↔
        A = {Sample.Mixed.low, Sample.Mixed.one, Sample.Mixed.two} ∨
        A = {.constant "a", .constant "c", Sample.Mixed.one, Sample.Mixed.two} := by
  intro h s
  have hanswers : h.AnswersBy Sample.unknown := fun _ _ _ => rfl
  obtain ⟨p, hok, hp⟩ := Sample.Mixed.exists_ground hanswers ()
  have hground : ground h Sample.Mixed.program Sample.parts () = (.ok p, _) := Prod.ext hok rfl
  obtain ⟨hiff, -⟩ := ground_answerSets Sample.Mixed.select_eq Sample.Mixed.plain hground
  refine ⟨Sample.Mixed.select_eq, Sample.Mixed.plain, p, _, hground, fun A => ?_⟩
  rw [← hiff A, hp.answerSets A]

end GroundProgram

end AnswerSetTest
