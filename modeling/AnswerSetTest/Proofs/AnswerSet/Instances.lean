import Mathlib.Data.Finset.Card
import Mathlib.Data.Finset.Powerset
import AnswerSetTest.Proofs.Ground.Instance

/-!
# Answer sets of instances

Instances have answer sets of their own, before atoms are numbered and rules are simplified: the
finite sets of symbols that satisfy all instances and no proper subset of which does when negation
and counts are judged by the set itself. There may be infinitely many instances, but only those
matter whose positive literals are in a set that contains the heads of them.

What a count asks of a set is a parameter of the definitions that end in `By`: it can be said by
values of variables (`HoldsIn`) and by matching (`HoldsAmong`), which agree on patterns.
-/

namespace AnswerSetTest

namespace PendingCount

/-- Some element stands for the atom under some values of its own variables. -/
def Counts (c : PendingCount) (s : Symbol) : Prop :=
  ∃ t ∈ c.elements, ∃ b, c.binding ≤ b ∧ t.Matches b s

open Classical in
/-- Compares the number of atoms of a set that are counted with the bound. -/
def HoldsIn (c : PendingCount) (A : Finset Symbol) : Prop :=
  c.op.RelatesTo (A.filter c.Counts).card c.bound

/-- Some element matches the atom under the binding. -/
def picks (c : PendingCount) (s : Symbol) : Bool :=
  c.elements.any fun t => (t.matchSymbol c.binding s).isSome

/-- Compares the number of atoms of a set that are matched with the bound, as symbols. -/
def HoldsAmong (c : PendingCount) (A : Finset Symbol) : Prop :=
  c.op.Compares (.number (Int64.ofNat (A.filter fun s => c.picks s).card)) c.bound

instance (c : PendingCount) (A : Finset Symbol) : Decidable (c.HoldsAmong A) :=
  inferInstanceAs (Decidable (c.op.Compares _ _))

variable {c : PendingCount} {A : Finset Symbol}

theorem picks_iff_counts (hc : ∀ t ∈ c.elements, t.Pattern) {s : Symbol} :
    c.picks s ↔ c.Counts s := by
  rw [picks, List.any_eq_true]
  exact exists_congr fun t => and_congr_right fun ht => Term.isSome_matchSymbol (hc t ht)

theorem holdsAmong_iff_holdsIn (hc : ∀ t ∈ c.elements, t.Pattern) (hA : A.card < 2 ^ 63) :
    c.HoldsAmong A ↔ c.HoldsIn A := by
  classical
  have hsame : (A.filter fun s => c.picks s) = A.filter c.Counts :=
    Finset.filter_congr fun s _ => picks_iff_counts hc
  have hlt : (A.filter c.Counts).card < 2 ^ 63 :=
    Nat.lt_of_le_of_lt (Finset.card_filter_le A _) hA
  rw [HoldsAmong, hsame, HoldsIn, Comparison.compares_ofNat hlt]

end PendingCount

namespace Instance

def Survives (i : Instance) (A : Finset Symbol) : Prop :=
  (∀ s ∈ i.negatives, s ∉ A) ∧ ∀ c ∈ i.counts, c.HoldsIn A

/-- What the head of an instance asks of `J` once the body holds. A choice only asks for those of
its atoms that are in `A`. -/
def HeadHolds (i : Instance) (A J : Finset Symbol) : Prop :=
  match i.kind with
  | .normal => ∀ s ∈ i.head, s ∈ J
  | .disjunction => ∃ s ∈ i.head, s ∈ J
  | .choice => ∀ s ∈ i.head, s ∈ A → s ∈ J
  | .falsity => False

/-- Negative literals and counts are judged by `A`, all other atoms by `J`. -/
def HoldsWithin (i : Instance) (A J : Finset Symbol) : Prop :=
  (∀ s ∈ i.positives, s ∈ J) → i.Survives A → i.HeadHolds A J

/-- A finite set that satisfies all instances, and no proper subset of which does when negation and
counts are judged by the set itself. -/
structure IsAnswerSet (instances : Set Instance) (A : Finset Symbol) : Prop where
  holds : ∀ i ∈ instances, i.HoldsWithin A A
  minimal : ∀ J ⊆ A, (∀ i ∈ instances, i.HoldsWithin A J) → J = A

section By

variable (counts : PendingCount → Finset Symbol → Prop)

def SurvivesBy (i : Instance) (A : Finset Symbol) : Prop :=
  (∀ s ∈ i.negatives, s ∉ A) ∧ ∀ c ∈ i.counts, counts c A

def HoldsWithinBy (i : Instance) (A J : Finset Symbol) : Prop :=
  (∀ s ∈ i.positives, s ∈ J) → i.SurvivesBy counts A → i.HeadHolds A J

/-- An answer set of instances whose counts hold in the sets that `counts` says. -/
structure IsAnswerSetBy (instances : Set Instance) (A : Finset Symbol) : Prop where
  holds : ∀ i ∈ instances, i.HoldsWithinBy counts A A
  minimal : ∀ J ⊆ A, (∀ i ∈ instances, i.HoldsWithinBy counts A J) → J = A

instance : (i : Instance) → (A J : Finset Symbol) → Decidable (i.HeadHolds A J)
  | ⟨.normal, head, _, _, _⟩, _, J => inferInstanceAs (Decidable (∀ s ∈ head, s ∈ J))
  | ⟨.disjunction, head, _, _, _⟩, _, J => inferInstanceAs (Decidable (∃ s ∈ head, s ∈ J))
  | ⟨.choice, head, _, _, _⟩, A, J => inferInstanceAs (Decidable (∀ s ∈ head, s ∈ A → s ∈ J))
  | ⟨.falsity, _, _, _, _⟩, _, _ => inferInstanceAs (Decidable False)

variable [∀ c A, Decidable (counts c A)]

instance (i : Instance) (A J : Finset Symbol) : Decidable (i.HoldsWithinBy counts A J) :=
  inferInstanceAs (Decidable ((∀ s ∈ i.positives, s ∈ J) →
    ((∀ s ∈ i.negatives, s ∉ A) ∧ ∀ c ∈ i.counts, counts c A) → i.HeadHolds A J))

/-- Whether a set is an answer set of finitely many instances is decided by its subsets. -/
instance (is : List Instance) (A : Finset Symbol) :
    Decidable (IsAnswerSetBy counts {i | i ∈ is} A) :=
  decidable_of_iff ((∀ i ∈ is, i.HoldsWithinBy counts A A) ∧
      ∀ J ∈ A.powerset, (∀ i ∈ is, i.HoldsWithinBy counts A J) → J = A)
    ⟨fun h => ⟨h.1, fun J hJ => h.2 J (Finset.mem_powerset.2 hJ)⟩,
      fun h => ⟨h.holds, fun J hJ => h.minimal J (Finset.mem_powerset.1 hJ)⟩⟩

end By

variable {instances : Set Instance} {i : Instance} {A J J' : Finset Symbol} {K : Set Symbol}
  {counts : PendingCount → Finset Symbol → Prop}

theorem isAnswerSet_iff_by :
    IsAnswerSet instances A ↔ IsAnswerSetBy PendingCount.HoldsIn instances A :=
  ⟨fun h => ⟨h.holds, h.minimal⟩, fun h => ⟨h.holds, h.minimal⟩⟩

theorem HeadHolds.mono (h : i.HeadHolds A J) (hJ : ∀ s ∈ i.head, s ∈ J → s ∈ J') :
    i.HeadHolds A J' := by
  unfold HeadHolds at h ⊢
  cases hk : i.kind with
  | normal =>
    rw [hk] at h
    exact fun s hs => hJ s hs (h s hs)
  | disjunction =>
    rw [hk] at h
    obtain ⟨s, hs, hJs⟩ := h
    exact ⟨s, hs, hJ s hs hJs⟩
  | choice =>
    rw [hk] at h
    exact fun s hs hA => hJ s hs (h s hs hA)
  | falsity =>
    rw [hk] at h
    exact h

namespace IsAnswerSetBy

/-- An answer set is within every set that contains the heads of those instances whose bodies hold
and have their positive literals in it. -/
theorem subset_of_closed (h : IsAnswerSetBy counts instances A)
    (hK : ∀ i ∈ instances, (∀ s ∈ i.positives, s ∈ A ∧ s ∈ K) → i.SurvivesBy counts A →
      ∀ s ∈ i.head, s ∈ K) : ∀ s ∈ A, s ∈ K := by
  classical
  have hred : ∀ i ∈ instances, i.HoldsWithinBy counts A (A.filter (· ∈ K)) := by
    intro i hi hpos hs
    have hpos' : ∀ s ∈ i.positives, s ∈ A ∧ s ∈ K := fun s hs => Finset.mem_filter.1 (hpos s hs)
    have hhead := h.holds i hi (fun s hs => (hpos' s hs).1) hs
    exact hhead.mono fun s hsi hsA => Finset.mem_filter.2 ⟨hsA, hK i hi hpos' hs s hsi⟩
  have heq := h.minimal _ (Finset.filter_subset _ A) hred
  intro s hs
  rw [← heq] at hs
  exact (Finset.mem_filter.1 hs).2

theorem exists_head (h : IsAnswerSetBy counts instances A) {s : Symbol} (hs : s ∈ A) :
    ∃ i ∈ instances, (∀ t ∈ i.positives, t ∈ A) ∧ i.SurvivesBy counts A ∧ s ∈ i.head := by
  let K : Set Symbol :=
    {s | ∃ i ∈ instances, (∀ t ∈ i.positives, t ∈ A) ∧ i.SurvivesBy counts A ∧ s ∈ i.head}
  have hK : ∀ s ∈ A, s ∈ K := h.subset_of_closed fun i hi hpos hsurvives t ht =>
    ⟨i, hi, fun u hu => (hpos u hu).1, hsurvives, ht⟩
  exact hK s hs

end IsAnswerSetBy

theorem IsAnswerSet.exists_head (h : IsAnswerSet instances A) {s : Symbol} (hs : s ∈ A) :
    ∃ i ∈ instances, (∀ t ∈ i.positives, t ∈ A) ∧ i.Survives A ∧ s ∈ i.head :=
  (isAnswerSet_iff_by.1 h).exists_head hs

/-- Only the instances whose positive literals are in `K` matter, if `K` contains their heads. -/
theorem isAnswerSet_iff_of_closed
    (hK : ∀ i ∈ instances, (∀ s ∈ i.positives, s ∈ K) → ∀ s ∈ i.head, s ∈ K) :
    IsAnswerSet instances A ↔ IsAnswerSet {i ∈ instances | ∀ s ∈ i.positives, s ∈ K} A := by
  constructor
  · intro h
    have hA : ∀ s ∈ A, s ∈ K := (isAnswerSet_iff_by.1 h).subset_of_closed fun i hi hpos _ =>
      hK i hi fun s hs => (hpos s hs).2
    refine ⟨fun i hi => h.holds i hi.1, fun J hJ hred => h.minimal J hJ fun i hi hpos => ?_⟩
    exact hred i ⟨hi, fun s hs => hA s (hJ (hpos s hs))⟩ hpos
  · intro h
    have hA : ∀ s ∈ A, s ∈ K :=
      (isAnswerSet_iff_by.1 h).subset_of_closed fun i hi _ _ => hK i hi.1 hi.2
    refine ⟨fun i hi hpos => ?_, fun J hJ hred => h.minimal J hJ fun i hi => hred i hi.1⟩
    exact h.holds i ⟨hi, fun s hs => hA s (hpos s hs)⟩ hpos

end Instance

end AnswerSetTest
