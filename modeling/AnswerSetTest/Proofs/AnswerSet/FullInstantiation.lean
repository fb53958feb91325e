import AnswerSetTest.Proofs.AnswerSet.Instances
import AnswerSetTest.Proofs.Ground.Evaluable
import AnswerSetTest.Proofs.Paired

/-!
# Full instantiation

The instances of rules under all assignments of symbols to their variables, said of the rules
themselves: head atoms and negated atoms are the values of terms, in any order, and the kind of an
instance is that of the head of its rule. The instances that are made of lists of values ask the
same of all sets of atoms.
-/

namespace AnswerSetTest

namespace Instance

/-- Instances that ask the same of all sets. -/
def Equivalent (i j : Instance) : Prop :=
  ∀ A J, i.HoldsWithin A J ↔ j.HoldsWithin A J

variable {i j : Instance} {S T : Set Instance} {A : Finset Symbol}

theorem headHolds_iff {J : Finset Symbol} (hkind : i.kind = j.kind)
    (hhead : ∀ s, s ∈ i.head ↔ s ∈ j.head) : i.HeadHolds A J ↔ j.HeadHolds A J := by
  unfold HeadHolds
  rw [hkind]
  cases j.kind <;> simp only [hhead]

theorem equivalent_of_headHolds (hpositives : i.positives = j.positives)
    (hnegatives : ∀ s, s ∈ i.negatives ↔ s ∈ j.negatives) (hcounts : i.counts = j.counts)
    (hhead : ∀ A J, i.HeadHolds A J ↔ j.HeadHolds A J) : i.Equivalent j := by
  intro A J
  simp only [HoldsWithin, Survives, hpositives, hnegatives, hcounts, hhead]

theorem isAnswerSet_congr (h : Paired Equivalent S T) : IsAnswerSet S A ↔ IsAnswerSet T A := by
  have hall : ∀ J, (∀ i ∈ S, i.HoldsWithin A J) ↔ ∀ j ∈ T, j.HoldsWithin A J := by
    intro J
    constructor
    · intro hS j hj
      obtain ⟨i, hi, hij⟩ := h.right j hj
      exact (hij A J).1 (hS i hi)
    · intro hT i hi
      obtain ⟨j, hj, hij⟩ := h.left i hi
      exact (hij A J).2 (hT j hj)
  constructor
  · intro hA
    exact ⟨(hall A).1 hA.holds, fun J hJ hred => hA.minimal J hJ ((hall J).2 hred)⟩
  · intro hA
    exact ⟨(hall A).2 hA.holds, fun J hJ hred => hA.minimal J hJ ((hall J).1 hred)⟩

end Instance

namespace Head

/-- The kind of the instances of a head. A disjunction stays one if its terms have one value. -/
inductive HasKind : Head → HeadKind → Prop
  | atom (t : Term) : HasKind (.atom t) .normal
  | disjunction (ts : List Term) : HasKind (.disjunction ts) .disjunction
  | choice (ts : List Term) : HasKind (.choice ts) .choice
  | falsity : HasKind .falsity .falsity

variable {h : Head} {b : Binding} {kind kind' : HeadKind} {ss : List Symbol}

theorem HasKind.unique (hkind : h.HasKind kind) (hkind' : h.HasKind kind') : kind = kind' := by
  cases hkind <;> cases hkind' <;> rfl

theorem exists_hasKind (h : Head) : ∃ kind, h.HasKind kind := by
  cases h with
  | atom t => exact ⟨_, .atom t⟩
  | disjunction ts => exact ⟨_, .disjunction ts⟩
  | choice ts => exact ⟨_, .choice ts⟩
  | falsity => exact ⟨_, .falsity⟩

/-- A disjunction of one atom asks for it, as a normal head does. -/
theorem Evaluates.headHolds_iff {i j : Instance} (hi : h.Evaluates b i.kind i.head)
    (hj : h.HasKind j.kind) (hhead : i.head = j.head) (A J : Finset Symbol) :
    i.HeadHolds A J ↔ j.HeadHolds A J := by
  obtain ⟨kind, head, positives, negatives, counts⟩ := i
  obtain ⟨kind', head', positives', negatives', counts'⟩ := j
  obtain rfl : head = head' := hhead
  cases hi with
  | single _ _ =>
    cases hj
    simp [Instance.HeadHolds]
  | atom | disjunction | choice | falsity =>
    cases hj
    exact Iff.rfl

theorem Evaluates.evaluable (hss : h.Evaluates b kind ss) {t : Term} (ht : h.HasTerm t) :
    t.Evaluable b := by
  obtain ⟨rows, hrows, -, -⟩ := evaluates_iff.1 hss
  exact Term.evaluable_iff.2 (Term.exists_under?_of_mem hrows (mem_atoms.2 ht))

theorem Evaluates.mem_iff (hss : h.Evaluates b kind ss) {s : Symbol} :
    s ∈ ss ↔ ∃ t, h.HasTerm t ∧ t.Denotes b s := by
  obtain ⟨rows, hrows, rfl, -⟩ := evaluates_iff.1 hss
  rw [List.mem_eraseDups, Term.mem_flatten_of_allUnder? hrows]
  exact exists_congr fun t => and_congr_left fun _ => mem_atoms

end Head

/-- Evaluation of the terms of a literal succeeds. Positive literals are matched instead. -/
def Literal.Evaluable (b : Binding) : Literal → Prop
  | .atom false _ => True
  | .atom true t => t.Evaluable b
  | .comparison left _ right => left.Evaluable b ∧ right.Evaluable b
  | .count _ _ bound => bound.Evaluable b

inductive Count.HasInstance (b : Binding) : Count → PendingCount → Prop
  | intro {c : Count} {s : Symbol} (h : ∀ x, c.bound.Denotes b x ↔ x = s) :
    HasInstance b c ⟨c.elements, b, c.op, s⟩

theorem Count.HasInstance.unique {b : Binding} : Relator.RightUnique (Count.HasInstance b) := by
  rintro c p q ⟨hp⟩ ⟨hq⟩
  obtain rfl := (hq _).1 ((hp _).2 rfl)
  rfl

namespace Rule

/-- The instances of a rule under an assignment of symbols to the named variables outside its
count elements, for which comparisons hold and evaluation succeeds. There is one, up to order, for
each choice of atoms that the positive literals stand for. -/
structure HasInstance (r : Rule) (b : Binding) (i : Instance) : Prop where
  assigned : ∀ v, (b.get? v).isSome ↔ ∃ t, r.HasOuterTerm t ∧ t.HasVariable v ∧ v ≠ "_"
  evaluableHead : ∀ t, r.head.HasTerm t → t.Evaluable b
  evaluableBody : ∀ l ∈ r.body, l.Evaluable b
  comparisons : ∀ left op right, .comparison left op right ∈ r.body →
    ∃ x y, left.Denotes b x ∧ right.Denotes b y ∧ op.Compares x y
  kind : r.head.HasKind i.kind
  head : ∀ s, s ∈ i.head ↔ ∃ t, r.head.HasTerm t ∧ t.Denotes b s
  isAtom : ∀ s ∈ i.head, ∃ name args, name ≠ "" ∧ s = .function name args
  positives : List.Forall₂ (Term.Matches b) (r.body.filterMap Literal.positive?) i.positives
  negatives : ∀ s, s ∈ i.negatives ↔ ∃ t, .atom true t ∈ r.body ∧ t.Denotes b s
  counts : List.Forall₂ (Count.HasInstance b) (r.body.filterMap Literal.count?) i.counts

/-- The instances of rules under all assignments of symbols to their variables. -/
def fullInstantiation (rules : List Rule) : Set Instance :=
  {i | ∃ r ∈ rules, ∃ b, r.HasInstance b i}

variable {r : Rule} {rules : List Rule} {b : Binding} {i j : Instance}

theorem HasInstance.equivalent (hi : r.HasInstance b i) (hj : r.HasInstance b j)
    (hpositives : i.positives = j.positives) : i.Equivalent j := by
  have hhead : ∀ s, s ∈ i.head ↔ s ∈ j.head := fun s => (hi.head s).trans (hj.head s).symm
  have hcounts : i.counts = j.counts :=
    Count.HasInstance.unique.forall₂ hi.counts hj.counts
  refine Instance.equivalent_of_headHolds hpositives
    (fun s => (hi.negatives s).trans (hj.negatives s).symm) hcounts fun A J => ?_
  exact Instance.headHolds_iff (hi.kind.unique hj.kind) hhead

theorem Instantiates.exists_hasInstance (hi : r.Instantiates b i) :
    ∃ j, r.HasInstance b j ∧ j.positives = i.positives ∧ i.Equivalent j := by
  obtain ⟨rows, hrows, hnegatives⟩ := hi.negatives
  obtain ⟨kind, hkind⟩ := r.head.exists_hasKind
  refine ⟨{ i with kind }, ?_, rfl, ?_⟩
  · refine
      { assigned := fun v => by simp only [hi.isSome_iff v, Term.mem_vars_iff]
        evaluableHead := fun t ht => hi.head.evaluable ht
        evaluableBody := fun l hl => ?_
        comparisons := fun left op right hc => ?_
        kind := hkind
        head := fun s => hi.head.mem_iff
        isAtom := fun s hs => ?_
        positives := hi.positives
        negatives := fun s => ?_
        counts := hi.counts.imp fun c p hp => ?_ }
    · cases l with
      | atom negated t =>
        cases negated with
        | false => trivial
        | true => exact Term.evaluable_iff.2 (Term.exists_under?_of_mem hrows (mem_negatives.2 hl))
      | comparison left op right =>
        obtain ⟨ls, rs, hls, hrs, -⟩ := hi.comparisons ⟨left, op, right⟩ hl
        exact ⟨Term.evaluable_iff.2 ⟨ls, hls⟩, Term.evaluable_iff.2 ⟨rs, hrs⟩⟩
      | count elements op bound =>
        obtain ⟨p, -, ⟨hbound⟩⟩ := (exists_mem_of_forall₂ hi.counts).1 ⟨elements, op, bound⟩
          (mem_counts.2 hl)
        exact Term.evaluable_iff.2 ⟨_, hbound⟩
    · obtain ⟨ls, rs, hls, hrs, x, hx, y, hy, hcompares⟩ := hi.comparisons ⟨left, op, right⟩ hc
      exact ⟨x, y, (Term.mem_under?_iff_denotes hls).1 hx,
        (Term.mem_under?_iff_denotes hrs).1 hy, hcompares⟩
    · have hatom := hi.isAtom s hs
      cases s with
      | number | text => cases hatom
      | function name args => exact ⟨name, args, by simpa [Symbol.isAtom] using hatom, rfl⟩
    · change s ∈ i.negatives ↔ _
      rw [hnegatives, Term.mem_flatten_of_allUnder? hrows]
      exact exists_congr fun t => and_congr_left fun _ => mem_negatives
    · obtain ⟨hbound⟩ := hp
      exact ⟨(Term.under?_eq_singleton_iff.1 hbound).2⟩
  · exact Instance.equivalent_of_headHolds rfl (fun _ => Iff.rfl) rfl
      (hi.head.headHolds_iff hkind rfl)

theorem HasInstance.exists_instantiates (hj : r.HasInstance b j) :
    ∃ i, r.Instantiates b i ∧ i.positives = j.positives := by
  obtain ⟨rows, hrows⟩ := Term.exists_allUnder? fun t ht =>
    Term.evaluable_iff.1 (hj.evaluableHead t (Head.mem_atoms.1 ht))
  obtain ⟨negatives, hnegatives⟩ := Term.exists_allUnder? fun t ht =>
    Term.evaluable_iff.1 (hj.evaluableBody _ (mem_negatives.1 ht))
  have hhead := Head.evaluates_kindOf hrows
  have hcounts : List.Forall₂ (Count.Resolves b) r.counts j.counts := by
    have hboth := (List.forall₂_and_left r.counts j.counts).2 ⟨fun _ hc => hc, hj.counts⟩
    refine hboth.imp fun c p hp => ?_
    obtain ⟨hc, ⟨hbound⟩⟩ := hp
    have hevaluable := hj.evaluableBody _ (mem_counts.1 hc)
    exact ⟨Term.under?_eq_singleton_iff.2 ⟨hevaluable, hbound⟩⟩
  refine ⟨⟨Instance.kindOf r.head rows.flatten.eraseDups, rows.flatten.eraseDups, j.positives,
    negatives.flatten, j.counts⟩, ?_, rfl⟩
  refine
    { head := hhead
      isAtom := fun s hs => ?_
      negatives := ⟨negatives, hnegatives, rfl⟩
      counts := hcounts
      isSome_iff := fun v => by simp only [hj.assigned v, Term.mem_vars_iff]
      positives := hj.positives
      comparisons := fun c hc => ?_ }
  · obtain ⟨name, args, hname, rfl⟩ := hj.isAtom s ((hj.head s).2 (hhead.mem_iff.1 hs))
    simpa [Symbol.isAtom] using hname
  · obtain ⟨hleft, hright⟩ := hj.evaluableBody _ hc
    obtain ⟨ls, hls⟩ := Term.evaluable_iff.1 hleft
    obtain ⟨rs, hrs⟩ := Term.evaluable_iff.1 hright
    obtain ⟨x, y, hx, hy, hcompares⟩ := hj.comparisons _ _ _ hc
    exact ⟨ls, rs, hls, hrs, x, (Term.mem_under?_iff_denotes hls).2 hx, y,
      (Term.mem_under?_iff_denotes hrs).2 hy, hcompares⟩

theorem paired_fullInstantiation (rules : List Rule) : Paired Instance.Equivalent
    {i | ∃ r ∈ rules, ∃ b, r.Instantiates b i} (fullInstantiation rules) where
  left i hi := by
    obtain ⟨r, hr, b, hi⟩ := hi
    obtain ⟨j, hj, -, hij⟩ := hi.exists_hasInstance
    exact ⟨j, ⟨r, hr, b, hj⟩, hij⟩
  right j hj := by
    obtain ⟨r, hr, b, hj⟩ := hj
    obtain ⟨i, hi, hpositives⟩ := hj.exists_instantiates
    obtain ⟨j', hj', hpositives', hij'⟩ := hi.exists_hasInstance
    have hjj' := hj'.equivalent hj (hpositives'.trans hpositives)
    exact ⟨i, ⟨r, hr, b, hi⟩, fun A J => (hij' A J).trans (hjj' A J)⟩

end Rule

end AnswerSetTest
