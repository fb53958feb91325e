import AnswerSetTest.Proofs.Search.Stability

/-!
# Enumeration

The search of a ground program hands its answer sets to the callback, each once, numbered from one
and in binary order, up to the first for which the callback answers `false`.
-/

namespace AnswerSetTest

/-- Binary order with later symbols more significant: of two models, the one with the last atom on
which they differ comes later. -/
def Model.Precedes (m n : Model) : Prop :=
  ∃ s, s ∉ m.atoms ∧ s ∈ n.atoms ∧ ∀ t, s < t → (t ∈ m.atoms ↔ t ∈ n.atoms)

/-- The models that a callback is given, whether it answers `true` to all of them, and the state
that it leaves. -/
structure Handover (ω : Type) where
  given : List Model
  exhausted : Bool
  state : ω

/-- Gives models to a callback, up to the first for which it answers `false`. -/
def handOver {ω : Type} (onModel : Model → StateM ω Bool) : List Model → ω → Handover ω
  | [], o => ⟨[], true, o⟩
  | m :: ms, o =>
    match (onModel m).run o with
    | (true, o) =>
      let r := handOver onModel ms o
      ⟨m :: r.given, r.exhausted, r.state⟩
    | (false, o) => ⟨[m], false, o⟩

theorem Model.Precedes.asymm {m n : Model} (h : m.Precedes n) : ¬ n.Precedes m := by
  obtain ⟨s, hs, hs', habove⟩ := h
  rintro ⟨t, ht, ht', habove'⟩
  rcases Symbol.lt_trichotomy s t with hlt | rfl | hlt
  · exact ht ((habove t hlt).1 ht')
  · exact hs ht'
  · exact hs ((habove' s hlt).1 hs')

namespace GroundProgram

variable {p : GroundProgram}

theorem mem_model_atoms {number : Nat} {I : Interpretation} {s : Symbol} :
    s ∈ (p.model number I).atoms ↔ ∃ a, Numbered p.symbols s a ∧ I a := by
  simp only [model, List.mem_filterMap, Option.ite_none_right_eq_some, Option.some.injEq,
    Prod.exists]
  constructor
  · rintro ⟨t, a, hmem, ha, rfl⟩
    exact ⟨a, hmem, ha⟩
  · rintro ⟨a, hmem, ha⟩
    exact ⟨s, a, hmem, ha, rfl⟩

theorem mem_model_atoms_iff (hp : p.WellFormed) {number : Nat} {I : Interpretation} {s : Symbol}
    {a : AtomId} (h : Numbered p.symbols s a) : s ∈ (p.model number I).atoms ↔ I a := by
  rw [mem_model_atoms]
  refine ⟨?_, fun ha => ⟨a, h, ha⟩⟩
  rintro ⟨b, hb, hI⟩
  rwa [h.number_unique hp.ascending hb]

def candidate (p : GroundProgram) (mask : Nat) : Interpretation :=
  .ofMask p.facts (places p.facts.size p.undetermined) mask

/-- The answer sets among the candidates of `count` masks from `first` on. -/
def answerSetsFrom (p : GroundProgram) (count first : Nat) : List Interpretation :=
  ((List.range' first count).map p.candidate).filter fun I =>
    p.isModel I && p.isStable p.undetermined I

def answerSets (p : GroundProgram) : List Interpretation :=
  p.answerSetsFrom (Nat.pow 2 p.undetermined.length) 0

def modelsFrom (p : GroundProgram) (first : Nat) (sets : List Interpretation) : List Model :=
  (sets.zipIdx first).map fun e => p.model e.2 e.1

theorem undetermined_nodup (p : GroundProgram) : p.undetermined.Nodup :=
  (undetermined_ascending p).imp fun h => Nat.ne_of_lt h

theorem candidate_iff (hp : p.WellFormed) {mask a : Nat} : p.candidate mask a ↔
    p.isFact a ∨ ∃ i, p.undetermined[i]? = some a ∧ mask.testBit i :=
  ofMask_iff (undetermined_nodup p) fun _ => hp.lt_size_of_mem_undetermined

theorem candidate_candidate (hp : p.WellFormed) (mask : Nat) : p.Candidate (p.candidate mask) where
  facts _ ha := (candidate_iff hp).2 (.inl ha)
  chosen _ ha := ((candidate_iff hp).1 ha).imp_right fun ⟨_, hi, _⟩ => List.mem_of_getElem? hi

theorem Candidate.exists_mask (hp : p.WellFormed) {I : Interpretation} (hI : p.Candidate I) :
    ∃ mask < 2 ^ p.undetermined.length, p.candidate mask = I :=
  AnswerSetTest.exists_mask (undetermined_nodup p) (fun _ => hp.lt_size_of_mem_undetermined)
    hI.facts hI.chosen

theorem mem_answerSets (hp : p.WellFormed) {I : Interpretation} :
    I ∈ p.answerSets ↔ p.IsAnswerSet I := by
  rw [answerSets, answerSetsFrom, List.mem_filter, List.mem_map]
  constructor
  · rintro ⟨⟨mask, -, rfl⟩, htest⟩
    exact (isModel_and_isStable_iff hp (candidate_candidate hp mask)).1 htest
  · intro h
    have hc := candidate_of_isAnswerSet hp h
    obtain ⟨mask, hlt, rfl⟩ := hc.exists_mask hp
    exact ⟨⟨mask, List.mem_range'_1.2 ⟨Nat.zero_le _, by rwa [Nat.zero_add]⟩, rfl⟩,
      (isModel_and_isStable_iff hp hc).2 h⟩

/-- Of two candidates, the model of the smaller mask precedes that of the larger. -/
theorem precedes_of_mask_lt (hp : p.WellFormed) {m n : Nat} (h : m < n)
    (hn : n < 2 ^ p.undetermined.length) (k l : Nat) :
    (p.model k (p.candidate m)).Precedes (p.model l (p.candidate n)) := by
  obtain ⟨a, ha, hma, hna, habove⟩ := exists_atom_of_mask_lt (undetermined_ascending p)
    (fun _ => hp.lt_size_of_mem_undetermined) (fun b hb => (mem_undetermined.1 hb).2) h hn
  obtain ⟨⟨r, hr, hhead⟩, -⟩ := mem_undetermined.1 ha
  obtain ⟨hone, hle⟩ := hp.head_le r hr a hhead
  obtain ⟨s, hs⟩ := Numbered.exists_of_le hone hle
  refine ⟨s, ?_, ?_, fun t hst => ?_⟩
  · rwa [mem_model_atoms_iff hp hs]
  · rwa [mem_model_atoms_iff hp hs]
  · rw [mem_model_atoms, mem_model_atoms]
    refine exists_congr fun b => and_congr_right fun hb => ?_
    have hab := (hs.lt_iff hp.ascending hb).1 hst
    exact Bool.eq_iff_iff.1 (habove b hab)

theorem pairwise_answerSetsFrom (hp : p.WellFormed) {count first : Nat}
    (hle : first + count ≤ 2 ^ p.undetermined.length) :
    (p.answerSetsFrom count first).Pairwise fun I J =>
      ∀ k l, (p.model k I).Precedes (p.model l J) := by
  have hmasks : (List.range' first count).Pairwise fun m n =>
      ∀ k l, (p.model k (p.candidate m)).Precedes (p.model l (p.candidate n)) := by
    refine (List.pairwise_lt_range' 1).imp_of_mem fun {m n} _ hn h => ?_
    have hlt := (List.mem_range'_1.1 hn).2
    exact precedes_of_mask_lt hp h (by omega)
  exact (List.pairwise_map.2 hmasks).filter _

theorem pairwise_answerSets (hp : p.WellFormed) :
    p.answerSets.Pairwise fun I J => ∀ k l, (p.model k I).Precedes (p.model l J) :=
  pairwise_answerSetsFrom hp (Nat.le_of_eq (Nat.zero_add _))

theorem nodup_answerSets (hp : p.WellFormed) : p.answerSets.Nodup := by
  refine (pairwise_answerSets hp).imp ?_
  rintro I _ h rfl
  exact (h 1 1).asymm (h 1 1)

theorem pairwise_modelsFrom (hp : p.WellFormed) (first : Nat) :
    (p.modelsFrom first p.answerSets).Pairwise Model.Precedes := by
  have hfst : ((p.answerSets.zipIdx first).map Prod.fst).Pairwise fun I J =>
      ∀ k l, (p.model k I).Precedes (p.model l J) := by
    rw [List.zipIdx_map_fst]
    exact pairwise_answerSets hp
  rw [modelsFrom, List.pairwise_map]
  exact (List.pairwise_map.1 hfst).imp fun h => h _ _

variable {ω : Type} (onModel : Model → StateM ω Bool)

theorem searchFrom_eq_handOver (count mask found : Nat) (o : ω) :
    p.searchFrom p.undetermined (places p.facts.size p.undetermined) onModel count mask found o =
      let r := handOver onModel (p.modelsFrom (found + 1) (p.answerSetsFrom count mask)) o
      (⟨found + r.given.length, r.exhausted⟩, r.state) := by
  induction count generalizing mask found o with
  | zero => rfl
  | succ count ih =>
    have hsets : p.answerSetsFrom (count + 1) mask =
        if p.isModel (p.candidate mask) && p.isStable p.undetermined (p.candidate mask) then
          p.candidate mask :: p.answerSetsFrom count (mask + 1)
        else p.answerSetsFrom count (mask + 1) := by
      simp only [answerSetsFrom, List.range'_succ, List.map_cons, List.filter_cons]
    rw [searchFrom, hsets, ← candidate]
    split
    · have hmodels : p.modelsFrom (found + 1)
          (p.candidate mask :: p.answerSetsFrom count (mask + 1)) =
          p.model (found + 1) (p.candidate mask) ::
            p.modelsFrom (found + 1 + 1) (p.answerSetsFrom count (mask + 1)) := rfl
      rw [hmodels, handOver]
      cases (onModel (p.model (found + 1) (p.candidate mask))).run o with
      | mk b o' =>
        cases b with
        | true =>
          have h := ih (mask + 1) (found + 1) o'
          simp only [h, List.length_cons, Nat.add_assoc, Nat.add_comm 1]
        | false => rfl
    · exact ih (mask + 1) found o

theorem search_eq_handOver (o : ω) : (p.search onModel).run o =
    let r := handOver onModel (p.modelsFrom 1 p.answerSets) o
    (⟨r.given.length, r.exhausted⟩, r.state) := by
  have h := searchFrom_eq_handOver (p := p) onModel (Nat.pow 2 p.undetermined.length) 0 0 o
  simp only [Nat.zero_add] at h
  exact h

end GroundProgram

end AnswerSetTest
