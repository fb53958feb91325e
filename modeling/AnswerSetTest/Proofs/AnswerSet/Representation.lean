import AnswerSetTest.Proofs.AnswerSet.Instances
import AnswerSetTest.Proofs.Search.Enumeration

/-!
# Representation

An interpretation of numbered atoms represents the finite set of the symbols whose numbers are
true. Under this correspondence the rules of instances have the same answer sets as the instances.
-/

namespace AnswerSetTest

structure Represents (symbols : List Symbol) (I : Interpretation) (A : Finset Symbol) : Prop where
  known : ∀ a, I a → 1 ≤ a ∧ a ≤ symbols.length
  subset : ∀ s ∈ A, s ∈ symbols
  iff_mem : ∀ s a, Numbered symbols s a → (I a ↔ s ∈ A)

def GroundProgram.trueSymbols (p : GroundProgram) (I : Interpretation) : Finset Symbol :=
  (p.model 1 I).atoms.toFinset

def Interpretation.ofSymbols (symbols : List Symbol) (A : Finset Symbol) : Interpretation :=
  fun a => (symbols.zipIdx 1).any fun e => e.2 = a && e.1 ∈ A

namespace Represents

variable {symbols : List Symbol} {I J : Interpretation} {A B : Finset Symbol}

theorem ofSymbols (hA : ∀ s ∈ A, s ∈ symbols) :
    Represents symbols (.ofSymbols symbols A) A := by
  have hiff : ∀ a, Interpretation.ofSymbols symbols A a ↔ ∃ s, Numbered symbols s a ∧ s ∈ A := by
    intro a
    simp [Interpretation.ofSymbols, Numbered]
  refine ⟨fun a ha => ?_, hA, fun s a hs => ?_⟩
  · obtain ⟨s, hs, -⟩ := (hiff a).1 ha
    exact ⟨hs.one_le, hs.le_length⟩
  · rw [hiff]
    refine ⟨?_, fun h => ⟨s, hs, h⟩⟩
    rintro ⟨t, ht, hA⟩
    rwa [hs.symbol_unique ht]

theorem trueSymbols {p : GroundProgram} (hp : p.WellFormed)
    (hI : ∀ a, I a → 1 ≤ a ∧ a ≤ p.symbols.length) :
    Represents p.symbols I (p.trueSymbols I) where
  known := hI
  subset s hs := by
    obtain ⟨a, ha, -⟩ := GroundProgram.mem_model_atoms.1 (List.mem_toFinset.1 hs)
    exact ha.mem
  iff_mem s a ha := by
    rw [GroundProgram.trueSymbols, List.mem_toFinset, GroundProgram.mem_model_atoms_iff hp ha]

theorem le_iff (hI : Represents symbols I A) (hJ : Represents symbols J B) :
    (∀ a, J a → I a) ↔ B ⊆ A := by
  constructor
  · intro h s hs
    obtain ⟨a, ha⟩ := Numbered.exists_of_mem (hJ.subset s hs)
    exact (hI.iff_mem s a ha).1 (h a ((hJ.iff_mem s a ha).2 hs))
  · intro h a ha
    obtain ⟨hone, hle⟩ := hJ.known a ha
    obtain ⟨s, hs⟩ := Numbered.exists_of_le hone hle
    exact (hI.iff_mem s a hs).2 (h ((hJ.iff_mem s a hs).1 ha))

theorem eq_iff (hI : Represents symbols I A) (hJ : Represents symbols J B) : J = I ↔ B = A := by
  constructor
  · rintro rfl
    exact Finset.Subset.antisymm ((hI.le_iff hJ).1 fun _ h => h) ((hJ.le_iff hI).1 fun _ h => h)
  · rintro rfl
    funext a
    exact Bool.eq_iff_iff.2 ⟨(hI.le_iff hJ).2 (Finset.Subset.refl _) a,
      (hJ.le_iff hI).2 (Finset.Subset.refl _) a⟩

theorem exists_of_le (hI : Represents symbols I A) (h : ∀ a, J a → I a)
    (hp : symbols.Pairwise (· < ·)) : ∃ B, Represents symbols J B := by
  classical
  refine ⟨A.filter fun s => ∃ a, Numbered symbols s a ∧ J a, fun a ha => hI.known a (h a ha),
    fun s hs => hI.subset s (Finset.mem_filter.1 hs).1, fun s a ha => ?_⟩
  rw [Finset.mem_filter]
  constructor
  · exact fun hJ => ⟨(hI.iff_mem s a ha).1 (h a hJ), a, ha, hJ⟩
  · rintro ⟨-, b, hb, hJ⟩
    rwa [ha.number_unique hp hb]

theorem forall_numbers_iff (hI : Represents symbols I A) (hp : symbols.Pairwise (· < ·))
    {ss : List Symbol} (hss : ∀ s ∈ ss, s ∈ symbols) :
    (∀ a ∈ (Numbering.ofSymbols symbols).numbers ss, I a) ↔ ∀ s ∈ ss, s ∈ A := by
  simp only [Numbering.mem_numbers hp]
  constructor
  · intro h s hs
    obtain ⟨a, ha⟩ := Numbered.exists_of_mem (hss s hs)
    exact (hI.iff_mem s a ha).1 (h a ⟨s, hs, ha⟩)
  · rintro h a ⟨s, hs, ha⟩
    exact (hI.iff_mem s a ha).2 (h s hs)

theorem exists_numbers_iff (hI : Represents symbols I A) (hp : symbols.Pairwise (· < ·))
    (ss : List Symbol) :
    (∃ a ∈ (Numbering.ofSymbols symbols).numbers ss, I a) ↔ ∃ s ∈ ss, s ∈ A := by
  simp only [Numbering.mem_numbers hp]
  constructor
  · rintro ⟨a, ⟨s, hs, ha⟩, hIa⟩
    exact ⟨s, hs, (hI.iff_mem s a ha).1 hIa⟩
  · rintro ⟨s, hs, hA⟩
    obtain ⟨a, ha⟩ := Numbered.exists_of_mem (hI.subset s hA)
    exact ⟨a, ⟨s, hs, ha⟩, (hI.iff_mem s a ha).2 hA⟩

theorem forall_numbers_imp_iff (hI : Represents symbols I A) (hJ : Represents symbols J B)
    (hp : symbols.Pairwise (· < ·)) (ss : List Symbol) :
    (∀ a ∈ (Numbering.ofSymbols symbols).numbers ss, I a → J a) ↔ ∀ s ∈ ss, s ∈ A → s ∈ B := by
  simp only [Numbering.mem_numbers hp]
  constructor
  · intro h s hs hA
    obtain ⟨a, ha⟩ := Numbered.exists_of_mem (hI.subset s hA)
    exact (hJ.iff_mem s a ha).1 (h a ⟨s, hs, ha⟩ ((hI.iff_mem s a ha).2 hA))
  · rintro h a ⟨s, hs, ha⟩ hIa
    exact (hJ.iff_mem s a ha).2 (h s hs ((hI.iff_mem s a ha).1 hIa))

end Represents

namespace PendingCount

variable {symbols : List Symbol} {I : Interpretation} {A : Finset Symbol} {c : PendingCount}

/-- The atoms of a resolved count that are true are the atoms of the set that are matched. -/
theorem countP_resolve (hI : Represents symbols I A) (hp : symbols.Pairwise (· < ·)) :
    (c.resolve symbols).atoms.countP I = (A.filter fun s => c.picks s).card := by
  let counted : Symbol × AtomId → Bool := fun e => c.picks e.1 && I e.2
  have hcount : (c.resolve symbols).atoms.countP I =
      ((symbols.zipIdx 1).filter counted).length := by
    rw [resolve, List.countP_filterMap, ← List.countP_eq_length_filter]
    refine List.countP_congr fun e _ => ?_
    obtain ⟨s, a⟩ := e
    dsimp only [counted, picks]
    split
    · next h => simp [h]
    · next h => simp [h]
  have hfst : (((symbols.zipIdx 1).filter counted).map Prod.fst).toFinset =
      A.filter fun s => c.picks s := by
    ext s
    simp only [List.mem_toFinset, List.mem_map, List.mem_filter, Finset.mem_filter]
    constructor
    · rintro ⟨⟨t, a⟩, ⟨ha, hcount⟩, rfl⟩
      obtain ⟨ht, hIa⟩ := Bool.and_eq_true_iff.1 hcount
      exact ⟨(hI.iff_mem t a ha).1 hIa, ht⟩
    · rintro ⟨hA, hs⟩
      obtain ⟨a, ha⟩ := Numbered.exists_of_mem (hI.subset s hA)
      exact ⟨(s, a), ⟨ha, Bool.and_eq_true_iff.2 ⟨hs, (hI.iff_mem s a ha).2 hA⟩⟩, rfl⟩
  have hnodup : (((symbols.zipIdx 1).filter counted).map Prod.fst).Nodup := by
    have hsymbols : ((symbols.zipIdx 1).map Prod.fst).Nodup := by
      rw [List.zipIdx_map_fst]
      exact Symbol.nodup_of_ascending hp
    exact hsymbols.sublist (List.filter_sublist.map Prod.fst)
  rw [hcount, ← hfst, List.toFinset_card_of_nodup hnodup, List.length_map]

theorem holds_resolve_iff_holdsAmong (hI : Represents symbols I A)
    (hp : symbols.Pairwise (· < ·)) : (c.resolve symbols).Holds I ↔ c.HoldsAmong A := by
  rw [CountAtom.Holds, countP_resolve hI hp, HoldsAmong]
  exact Iff.rfl

theorem holds_resolve_iff (hI : Represents symbols I A) (hp : symbols.Pairwise (· < ·))
    (hlength : symbols.length ≤ maxAtoms) (hc : ∀ t ∈ c.elements, t.Pattern) :
    (c.resolve symbols).Holds I ↔ c.HoldsIn A := by
  have hsub : A ⊆ symbols.toFinset := fun s hs => List.mem_toFinset.2 (hI.subset s hs)
  have hle : A.card ≤ maxAtoms :=
    calc A.card ≤ symbols.toFinset.card := Finset.card_le_card hsub
      _ ≤ symbols.length := symbols.toFinset_card_le
      _ ≤ maxAtoms := hlength
  have hlt : A.card < 2 ^ 63 := Nat.lt_of_le_of_lt hle (by decide)
  rw [holds_resolve_iff_holdsAmong hI hp, holdsAmong_iff_holdsIn hc hlt]

end PendingCount

/-- Binary order of sets with later symbols more significant. -/
def SetPrecedes (A B : Finset Symbol) : Prop :=
  ∃ s ∈ B, s ∉ A ∧ ∀ t ∈ A ∪ B, s < t → (t ∈ A ↔ t ∈ B)

instance : DecidableRel SetPrecedes := fun _ _ => inferInstanceAs (Decidable (∃ _ ∈ _, _))

theorem Model.precedes_iff {m n : Model} :
    m.Precedes n ↔ SetPrecedes m.atoms.toFinset n.atoms.toFinset := by
  constructor
  · rintro ⟨s, hs, hs', habove⟩
    exact ⟨s, List.mem_toFinset.2 hs', mt List.mem_toFinset.1 hs,
      fun t _ hst => by simpa using habove t hst⟩
  · rintro ⟨s, hs', hs, habove⟩
    refine ⟨s, mt List.mem_toFinset.2 hs, List.mem_toFinset.1 hs', fun t hst => ?_⟩
    simp only [Finset.mem_union, List.mem_toFinset] at habove
    by_cases ht : t ∈ m.atoms ∨ t ∈ n.atoms
    · exact habove t ht hst
    · exact iff_of_false (fun h => ht (.inl h)) fun h => ht (.inr h)

theorem SetPrecedes.asymm {A B : Finset Symbol} (h : SetPrecedes A B) : ¬ SetPrecedes B A := by
  have hiff : ∀ A B : Finset Symbol,
      Model.Precedes ⟨0, A.toList, []⟩ ⟨0, B.toList, []⟩ ↔ SetPrecedes A B := by
    intro A B
    rw [Model.precedes_iff, Finset.toList_toFinset, Finset.toList_toFinset]
  exact mt (hiff B A).2 ((hiff A B).2 h).asymm

namespace GroundProgram

variable {p : GroundProgram} {I : Interpretation}

theorem model_atoms_eq (hp : p.WellFormed) (number : Nat) :
    (p.model number I).atoms = p.symbols.filter (· ∈ p.trueSymbols I) := by
  have hsymbols : (p.symbols.zipIdx 1).Pairwise fun e f => e.1 < f.1 := by
    have hfst : ((p.symbols.zipIdx 1).map Prod.fst).Pairwise (· < ·) := by
      rw [List.zipIdx_map_fst]
      exact hp.ascending
    exact List.pairwise_map.1 hfst
  have hatoms : (p.model number I).atoms.Pairwise (· < ·) := by
    refine List.pairwise_filterMap.2 (hsymbols.imp fun {e f} hlt s hs t ht => ?_)
    obtain ⟨-, hs⟩ := Option.ite_none_right_eq_some.1 hs
    obtain ⟨-, ht⟩ := Option.ite_none_right_eq_some.1 ht
    cases hs
    cases ht
    exact hlt
  refine eq_of_pairwise (fun _ _ => Symbol.lt_asymm) hatoms (hp.ascending.filter _) fun s => ?_
  rw [List.mem_filter, decide_eq_true_eq, trueSymbols, List.mem_toFinset, mem_model_atoms,
    mem_model_atoms]
  refine ⟨fun h => ⟨?_, h⟩, fun h => h.2⟩
  obtain ⟨a, ha, -⟩ := h
  exact ha.mem

/-- The models of a list of interpretations in binary order are those of the sets of symbols that
they make true, if all atoms are shown. -/
theorem modelsFrom_eq_of_sets (hp : p.WellFormed) (hshown : p.shown = none)
    {sets : List Interpretation} {As : List (Finset Symbol)}
    (hmem : ∀ A, A ∈ As ↔ ∃ I ∈ sets, p.trueSymbols I = A)
    (hsets : (p.modelsFrom 1 sets).Pairwise Model.Precedes) (hAs : As.Pairwise SetPrecedes) :
    p.modelsFrom 1 sets = (As.zipIdx 1).map fun e =>
      ⟨e.2, p.symbols.filter (· ∈ e.1), p.symbols.filter (· ∈ e.1)⟩ := by
  have hmodel : ∀ number I, p.model number I =
      ⟨number, p.symbols.filter (· ∈ p.trueSymbols I), p.symbols.filter (· ∈ p.trueSymbols I)⟩ := by
    intro number I
    rw [← model_atoms_eq hp number, model, hshown]
  have htrue : As = sets.map p.trueSymbols := by
    have hprecedes : (sets.zipIdx 1).Pairwise fun e f =>
        SetPrecedes (p.trueSymbols e.1) (p.trueSymbols f.1) :=
      (List.pairwise_map.1 hsets).imp Model.precedes_iff.1
    have hsorted : (sets.map p.trueSymbols).Pairwise SetPrecedes := by
      rw [← List.zipIdx_map_fst 1 sets, List.map_map, List.pairwise_map]
      exact hprecedes
    exact eq_of_pairwise (fun _ _ => SetPrecedes.asymm) hAs hsorted fun A => by
      rw [hmem, List.mem_map]
  rw [htrue, List.zipIdx_map, List.map_map, modelsFrom]
  exact List.map_congr_left fun e _ => hmodel e.2 e.1

end GroundProgram

/-- An instance whose head and positive literals are known. -/
structure Instance.Known (symbols : List Symbol) (i : Instance) : Prop where
  head : ∀ s ∈ i.head, s ∈ symbols
  positives : ∀ s ∈ i.positives, s ∈ symbols

namespace GroundRule

def ofInstanceBody (symbols : List Symbol) (ids : Numbering) (i : Instance) (head : List AtomId) :
    GroundRule :=
  ⟨i.kind, head, ids.numbers i.positives, ids.numbers i.negatives,
    i.counts.map (PendingCount.resolve symbols)⟩

section

variable {symbols : List Symbol} {ids : Numbering} {i : Instance}

theorem ofInstance_normal (hk : i.kind = .normal) : ofInstance symbols ids i =
    (ids.numbers i.head).map fun a => ofInstanceBody symbols ids i [a] := if_pos hk

theorem ofInstance_of_ne (hk : i.kind ≠ .normal) : ofInstance symbols ids i =
    [ofInstanceBody symbols ids i (ids.numbers i.head)] := if_neg hk

end

variable {symbols : List Symbol} {I J : Interpretation} {A B : Finset Symbol} {i : Instance}
  {head : List AtomId} {counts : PendingCount → Finset Symbol → Prop}

theorem survives_ofInstanceBody (hI : Represents symbols I A) (hp : symbols.Pairwise (· < ·))
    (hcounts : ∀ c ∈ i.counts, (c.resolve symbols).Holds I ↔ counts c A) :
    (ofInstanceBody symbols (.ofSymbols symbols) i head).Survives I ↔ i.SurvivesBy counts A := by
  have hnegatives : (∀ a ∈ (Numbering.ofSymbols symbols).numbers i.negatives, ¬ I a) ↔
      ∀ s ∈ i.negatives, s ∉ A := by
    have h := not_congr (hI.exists_numbers_iff hp i.negatives)
    simpa only [not_exists, not_and] using h
  have hresolved : (∀ c ∈ i.counts.map (PendingCount.resolve symbols), c.Holds I) ↔
      ∀ c ∈ i.counts, counts c A := by
    rw [List.forall_mem_map]
    exact forall₂_congr hcounts
  exact and_congr hnegatives hresolved

theorem ofInstanceBody_holdsWithin (hI : Represents symbols I A) (hJ : Represents symbols J B)
    (hp : symbols.Pairwise (· < ·)) (hi : i.Known symbols)
    (hcounts : ∀ c ∈ i.counts, (c.resolve symbols).Holds I ↔ counts c A) :
    (ofInstanceBody symbols (.ofSymbols symbols) i head).HoldsWithin I J ↔
      ((∀ s ∈ i.positives, s ∈ B) → i.SurvivesBy counts A →
        (ofInstanceBody symbols (.ofSymbols symbols) i head).HeadHolds I J) := by
  rw [HoldsWithin, survives_ofInstanceBody hI hp hcounts]
  exact imp_congr_left (hJ.forall_numbers_iff hp hi.positives)

theorem ofInstance_holdsWithin_iff (hI : Represents symbols I A) (hJ : Represents symbols J B)
    (hp : symbols.Pairwise (· < ·)) (hi : i.Known symbols)
    (hcounts : ∀ c ∈ i.counts, (c.resolve symbols).Holds I ↔ counts c A) :
    (∀ r ∈ ofInstance symbols (.ofSymbols symbols) i, r.HoldsWithin I J) ↔
      i.HoldsWithinBy counts A B := by
  by_cases hk : i.kind = .normal
  · have hhead : ∀ a, (ofInstanceBody symbols (.ofSymbols symbols) i [a]).HeadHolds I J ↔ J a := by
      intro a
      rw [HeadHolds, ofInstanceBody, hk]
      simp
    rw [ofInstance_normal hk, List.forall_mem_map, Instance.HoldsWithinBy, Instance.HeadHolds, hk]
    simp only [ofInstanceBody_holdsWithin hI hJ hp hi hcounts, hhead]
    rw [← hJ.forall_numbers_iff hp hi.head]
    exact ⟨fun h hpos hs a ha => h a ha hpos hs, fun h a ha hpos hs => h hpos hs a ha⟩
  · rw [ofInstance_of_ne hk, List.forall_mem_singleton,
      ofInstanceBody_holdsWithin hI hJ hp hi hcounts, Instance.HoldsWithinBy]
    refine imp_congr_right fun _ => imp_congr_right fun _ => ?_
    rw [HeadHolds, Instance.HeadHolds, ofInstanceBody]
    cases hkind : i.kind with
    | normal => exact absurd hkind hk
    | disjunction => exact hJ.exists_numbers_iff hp i.head
    | choice => exact hI.forall_numbers_imp_iff hJ hp i.head
    | falsity => exact Iff.rfl

end GroundRule

/-- The rules of instances have the answer sets of the instances. -/
theorem stable_rulesOf_iff {symbols : List Symbol} {I : Interpretation} {A : Finset Symbol}
    {instances : List Instance} {counts : PendingCount → Finset Symbol → Prop}
    (hI : Represents symbols I A) (hp : symbols.Pairwise (· < ·))
    (hknown : ∀ i ∈ instances, i.Known symbols)
    (hcounts : ∀ i ∈ instances, ∀ c ∈ i.counts, (c.resolve symbols).Holds I ↔ counts c A) :
    GroundRule.Stable (GroundProgram.rulesOf symbols instances) I ↔
      Instance.IsAnswerSetBy counts {i | i ∈ instances} A := by
  have hwithin : ∀ {J B}, Represents symbols J B →
      ((∀ r ∈ GroundProgram.rulesOf symbols instances, r.HoldsWithin I J) ↔
        ∀ i ∈ instances, i.HoldsWithinBy counts A B) := by
    intro J B hJ
    rw [GroundProgram.rulesOf, List.forall_mem_flatMap]
    exact forall₂_congr fun i hi =>
      GroundRule.ofInstance_holdsWithin_iff hI hJ hp (hknown i hi) (hcounts i hi)
  constructor
  · intro h
    refine ⟨(hwithin hI).1 h.holds, fun B hB hred => ?_⟩
    have hJ := Represents.ofSymbols fun s hs => hI.subset s (hB hs)
    exact (hI.eq_iff hJ).1 (h.minimal _ ((hI.le_iff hJ).2 hB) ((hwithin hJ).2 hred))
  · intro h
    refine ⟨(hwithin hI).2 h.holds, fun J hJI hred => ?_⟩
    obtain ⟨B, hJ⟩ := hI.exists_of_le hJI hp
    exact (hI.eq_iff hJ).2 (h.minimal B ((hI.le_iff hJ).1 hJI) ((hwithin hJ).1 hred))

end AnswerSetTest
