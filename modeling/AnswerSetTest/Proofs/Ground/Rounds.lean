import AnswerSetTest.Proofs.Ground.Answers
import AnswerSetTest.Proofs.GroundProgram.WellFormed

/-!
# Rounds

With fixed answers the rounds of instantiation only depend on the set of rules: a round makes the
instances of all rules over the known atoms, the next one also knows their heads, and the matches
that are left out because they were seen make no other instances.
-/

namespace AnswerSetTest

section

variable (answer : String → List Symbol → Except String Symbol)

def Rule.matchesBy (known : List Symbol) (r : Rule) : Except RuleFault (List Match) :=
  (r.findMatches (Term.fixed answer) known ()).1

def Instance.ofMatchBy (r : Rule) (x : Match) : Except RuleFault Instance :=
  (ofMatch (Term.fixed answer) (Term.fixed answer) r x ()).1

def Term.atomsBy (t : Term) : Except RuleFault (List Symbol) :=
  ((do
    let values ← t.eval (Term.fixed answer) .empty
    requireAtoms values
    return values : Term.Evaluation Unit (List Symbol)) ()).1

def Rule.madeFrom (r : Rule) (xs : List Match) : Set Instance :=
  {i | ∃ x ∈ xs, Instance.ofMatchBy answer r x = .ok i}

def Rule.Makes (known : List Symbol) (r : Rule) (i : Instance) : Prop :=
  ∃ found, r.matchesBy answer known = .ok found ∧ i ∈ r.madeFrom answer found

/-- A rule of which every match over known atoms has an instance. -/
def Rule.Succeeds (known : List Symbol) (r : Rule) : Prop :=
  ∃ found, r.matchesBy answer known = .ok found ∧
    ∀ x ∈ found, ∃ i, Instance.ofMatchBy answer r x = .ok i

def Rule.allMade (rules : List Rule) (known : List Symbol) : Set Instance :=
  {i | ∃ r ∈ rules, r.Makes answer known i}

/-- The known atoms with the heads of the instances over them. -/
structure Learns (rules : List Rule) (known known' : List Symbol) : Prop where
  ascending : known'.Pairwise (· < ·)
  mem_iff : ∀ s, s ∈ known' ↔ s ∈ known ∨ ∃ i ∈ Rule.allMade answer rules known, s ∈ i.head

/-- A round that succeeds, with the atoms that are known after it. -/
structure Round (rules : List Rule) (known known' : List Symbol) : Prop extends
    Learns answer rules known known' where
  succeeds : ∀ r ∈ rules, r.Succeeds answer known
  length_le : known'.length ≤ maxAtoms

/-- The rounds from known atoms on: the atoms known at the end, and the instances that they make. -/
inductive Expands (rules : List Rule) : Nat → List Symbol → List Symbol → Set Instance → Prop
  | last {limit : Nat} {known : List Symbol} (h : Round answer rules known known) :
    Expands rules (limit + 1) known known (Rule.allMade answer rules known)
  | next {limit : Nat} {known known' symbols : List Symbol} {made : Set Instance}
    (h : Round answer rules known known') (hne : known'.length ≠ known.length)
    (hrest : Expands rules limit known' symbols made) :
    Expands rules (limit + 1) known symbols (Rule.allMade answer rules known ∪ made)

structure Declares (es : List (Term × Span)) (known : List Symbol) : Prop where
  succeeds : ∀ e ∈ es, ∃ values, e.1.atomsBy answer = .ok values
  ascending : known.Pairwise (· < ·)
  mem_iff : ∀ s, s ∈ known ↔ ∃ e ∈ es, ∃ values, e.1.atomsBy answer = .ok values ∧ s ∈ values

def Selection.Expands (s : Selection) (symbols : List Symbol) (made : Set Instance) : Prop :=
  ∃ known, Declares answer s.externals known ∧
    AnswerSetTest.Expands answer s.rules (maxAtoms + 1) known symbols made

end

section

variable {answer : String → List Symbol → Except String Symbol} {rules : List Rule}
  {known known' known'' : List Symbol}

theorem Rule.makes_iff {r : Rule} {found : List Match} {i : Instance}
    (hfound : r.matchesBy answer known = .ok found) :
    r.Makes answer known i ↔ i ∈ r.madeFrom answer found := by
  constructor
  · rintro ⟨found', hfound', hi⟩
    rw [hfound, Except.ok.injEq] at hfound'
    exact hfound' ▸ hi
  · exact fun hi => ⟨found, hfound, hi⟩

theorem Rule.succeeds_iff {r : Rule} {found : List Match}
    (hfound : r.matchesBy answer known = .ok found) :
    r.Succeeds answer known ↔ ∀ x ∈ found, ∃ i, Instance.ofMatchBy answer r x = .ok i := by
  constructor
  · rintro ⟨found', hfound', hall⟩
    rw [hfound, Except.ok.injEq] at hfound'
    exact hfound' ▸ hall
  · exact fun hall => ⟨found, hfound, hall⟩

theorem Learns.unique (h : Learns answer rules known known')
    (h' : Learns answer rules known known'') : known' = known'' :=
  eq_of_pairwise (fun _ _ => Symbol.lt_asymm) h.ascending h'.ascending
    fun s => (h.mem_iff s).trans (h'.mem_iff s).symm

theorem Learns.eq_of_length (hknown : known.Pairwise (· < ·))
    (h : Learns answer rules known known') (hlength : known'.length = known.length) :
    known' = known := by
  have hsub : known ⊆ known' := fun s hs => (h.mem_iff s).2 (.inl hs)
  have hsub' := Symbol.subset_of_length hknown hsub hlength
  exact eq_of_pairwise (fun _ _ => Symbol.lt_asymm) h.ascending hknown
    fun s => ⟨fun hs => hsub' hs, fun hs => hsub hs⟩

theorem Declares.unique {es : List (Term × Span)} (h : Declares answer es known)
    (h' : Declares answer es known') : known = known' :=
  eq_of_pairwise (fun _ _ => Symbol.lt_asymm) h.ascending h'.ascending
    fun s => (h.mem_iff s).trans (h'.mem_iff s).symm

end

namespace Grounding

variable {σ : Type} {handler : Handler σ} {answer : String → List Symbol → Except String Symbol}
  {rules : List Rule} {known : List Symbol} {made : Set Instance} {p : Progress}

theorem madeFrom_nil (r : Rule) : r.madeFrom answer [] = ∅ :=
  Set.eq_empty_of_forall_notMem fun _ ⟨_, hx, _⟩ => List.not_mem_nil hx

theorem madeFrom_cons {r : Rule} {x : Match} {i : Instance}
    (hx : Instance.ofMatchBy answer r x = .ok i) (xs : List Match) :
    r.madeFrom answer (x :: xs) = {i} ∪ r.madeFrom answer xs := by
  refine Set.ext fun j => (List.exists_mem_cons_iff _ x xs).trans (or_congr_left ?_)
  rw [hx, Except.ok.injEq, Set.mem_singleton_iff, eq_comm]

/-- The progress that has made a set of instances, in the middle of a round. -/
structure Progress.Records (answer : String → List Symbol → Except String Symbol)
    (rules : List Rule) (known : List Symbol) (made : Set Instance) (p : Progress) : Prop where
  mem_iff : ∀ i, i ∈ p.instances ↔ i ∈ made
  seen : ∀ k x, (k, x) ∈ p.seen → ∃ r, (r, k) ∈ rules.zipIdx ∧
    ∃ i ∈ made, Instance.ofMatchBy answer r x = .ok i
  head : ∀ i ∈ made, ∀ s ∈ i.head, s ∈ known ∨ s ∈ p.derived
  derived : ∀ s ∈ p.derived, ∃ i ∈ made, s ∈ i.head

theorem Progress.records_empty : Progress.empty.Records answer rules known ∅ where
  mem_iff i := by simp [Progress.empty]
  seen k x hx := by simp [Progress.empty] at hx
  head i hi := absurd hi (Set.notMem_empty i)
  derived s hs := by simp [Progress.empty] at hs

theorem Progress.Records.push (hp : p.Records answer rules known made) {r : Rule} {k : Nat}
    (hr : (r, k) ∈ rules.zipIdx) {x : Match} {i : Instance}
    (hi : Instance.ofMatchBy answer r x = .ok i) :
    Progress.Records answer rules known (made ∪ {i})
      ⟨p.seen.insert (k, x), p.instances.push i, i.head ++ p.derived⟩ where
  mem_iff j := by
    rw [Array.mem_push, hp.mem_iff, Set.mem_union, Set.mem_singleton_iff]
  seen k' y hy := by
    rcases Std.HashSet.mem_insert.1 hy with heq | hy
    · obtain ⟨rfl, rfl⟩ := Prod.mk.inj (eq_of_beq heq)
      exact ⟨r, hr, i, .inr rfl, hi⟩
    · obtain ⟨r', hr', j, hj, hj'⟩ := hp.seen k' y hy
      exact ⟨r', hr', j, .inl hj, hj'⟩
  head j hj s hs := by
    rcases hj with hj | rfl
    · exact (hp.head j hj s hs).imp_right (List.mem_append_right _)
    · exact .inr (List.mem_append_left _ hs)
  derived s hs := by
    rcases List.mem_append.1 hs with hs | hs
    · exact ⟨i, .inr rfl, hs⟩
    · obtain ⟨j, hj, hs⟩ := hp.derived s hs
      exact ⟨j, .inl hj, hs⟩

theorem Progress.Records.of_seen (hp : p.Records answer rules known made) {r : Rule} {k : Nat}
    (hr : (r, k) ∈ rules.zipIdx) {x : Match} (hx : (k, x) ∈ p.seen) :
    ∃ i ∈ made, Instance.ofMatchBy answer r x = .ok i := by
  obtain ⟨r', hr', i, hi, hmatch⟩ := hp.seen k x hx
  have hsame := List.mk_mem_zipIdx_iff_getElem?.1 hr'
  rw [List.mk_mem_zipIdx_iff_getElem?.1 hr, Option.some.injEq] at hsame
  exact ⟨i, hi, hsame ▸ hmatch⟩

variable (h : handler.AnswersBy answer)

include h

theorem yields_ofMatch (r : Rule) (k : Nat) (x : Match) :
    Yields (Scratch.Consistent answer) (Instance.ofMatch (Grounding.answer handler)
      (answerOnce handler k) r x) (∃ i, Instance.ofMatchBy answer r x = .ok i)
      fun i => Instance.ofMatchBy answer r x = .ok i :=
  .of_agree ((Agree.congruent _).ofMatch (agree_answer_fixed h) (agree_answerOnce_fixed h k) r x)

theorem yields_findMatches (r : Rule) (k : Nat) (known : List Symbol) :
    Yields (Scratch.Consistent answer) (r.findMatches (answerOnce handler k) known)
      (∃ found, r.matchesBy answer known = .ok found)
      fun found => r.matchesBy answer known = .ok found :=
  .of_agree ((Agree.congruent _).findMatches (agree_answerOnce_fixed h k) known r)

theorem yields_instantiateMatches {r : Rule} {k : Nat} (hr : (r, k) ∈ rules.zipIdx)
    (hp : p.Records answer rules known made) (xs : List Match) :
    Yields (Scratch.Consistent answer) (instantiateMatches handler r k p xs)
      (∀ x ∈ xs, ∃ i, Instance.ofMatchBy answer r x = .ok i)
      (Progress.Records answer rules known (made ∪ r.madeFrom answer xs)) := by
  induction xs generalizing p made with
  | nil =>
    rw [instantiateMatches, madeFrom_nil, Set.union_empty]
    exact .of_pure (by simp) hp
  | cons x xs ih =>
    rw [instantiateMatches]
    split
    · next hseen =>
      obtain ⟨i, hi, hx⟩ := hp.of_seen hr hseen
      have hsame : made ∪ r.madeFrom answer (x :: xs) = made ∪ r.madeFrom answer xs := by
        rw [madeFrom_cons hx, ← Set.union_assoc,
          Set.union_eq_self_of_subset_right (Set.singleton_subset_iff.2 hi)]
      rw [hsame]
      exact (ih hp).congr (by simp [hx]) fun _ h => h
    · refine (yields_ofMatch h r k x).locate.bind (fun i _ hx => ?_) fun hall =>
        hall x List.mem_cons_self
      rw [madeFrom_cons hx, ← Set.union_assoc]
      exact (ih (hp.push hr hx)).congr (by simp [hx]) fun _ h => h

theorem yields_instantiateRule {q : Rule × Nat} (hq : q ∈ rules.zipIdx)
    (hp : p.Records answer rules known made) :
    Yields (Scratch.Consistent answer) (instantiateRule handler known p q)
      (q.1.Succeeds answer known)
      (Progress.Records answer rules known (made ∪ {i | q.1.Makes answer known i})) := by
  obtain ⟨r, k⟩ := q
  rw [instantiateRule]
  refine (yields_findMatches h r k known).locate.bind (fun found _ hfound => ?_) fun hok => ?_
  · have hmakes : {i | r.Makes answer known i} = r.madeFrom answer found :=
      Set.ext fun i => Rule.makes_iff hfound
    rw [hmakes]
    exact (yields_instantiateMatches h hq hp found).congr (Rule.succeeds_iff hfound).symm
      fun _ h => h
  · obtain ⟨found, hfound, -⟩ := hok
    exact ⟨found, hfound⟩

theorem yields_foldlM {qs : List (Rule × Nat)} (hqs : ∀ q ∈ qs, q ∈ rules.zipIdx)
    (hp : p.Records answer rules known made) :
    Yields (Scratch.Consistent answer) (qs.foldlM (instantiateRule handler known) p)
      (∀ q ∈ qs, q.1.Succeeds answer known)
      (Progress.Records answer rules known (made ∪ {i | ∃ q ∈ qs, q.1.Makes answer known i})) := by
  induction qs generalizing p made with
  | nil =>
    rw [List.foldlM_nil]
    exact .of_pure (by simp) (by simpa)
  | cons q qs ih =>
    obtain ⟨hq, hqs⟩ := List.forall_mem_cons.1 hqs
    have hmade : {i | ∃ q' ∈ q :: qs, q'.1.Makes answer known i} =
        {i | q.1.Makes answer known i} ∪ {i | ∃ q ∈ qs, q.1.Makes answer known i} :=
      Set.ext fun i => List.exists_mem_cons_iff _ q qs
    rw [List.foldlM_cons, hmade, ← Set.union_assoc]
    refine (yields_instantiateRule h hq hp).bind (fun p' hok hp' => ?_) fun hall =>
      hall q List.mem_cons_self
    exact (ih hqs hp').congr (by simp [hok]) fun _ h => h

omit h in
theorem exists_mem_zipIdx {P : Rule → Prop} :
    (∃ q ∈ rules.zipIdx, P q.1) ↔ ∃ r ∈ rules, P r := by
  constructor
  · rintro ⟨q, hq, hP⟩
    exact ⟨q.1, List.fst_mem_of_mem_zipIdx hq, hP⟩
  · rintro ⟨r, hr, hP⟩
    obtain ⟨k, hk⟩ := List.mem_iff_getElem?.1 hr
    exact ⟨(r, k), List.mk_mem_zipIdx_iff_getElem?.2 hk, hP⟩

theorem yields_round (hp : Progress.Records answer rules known made { p with derived := [] }) :
    Yields (Scratch.Consistent answer) (Grounding.round handler rules known p)
      (∀ r ∈ rules, r.Succeeds answer known)
      (Progress.Records answer rules known (made ∪ Rule.allMade answer rules known)) := by
  have hmade : {i | ∃ q ∈ rules.zipIdx, q.1.Makes answer known i} =
      Rule.allMade answer rules known :=
    Set.ext fun i => exists_mem_zipIdx (P := fun r => r.Makes answer known i)
  have hok : (∀ q ∈ rules.zipIdx, q.1.Succeeds answer known) ↔
      ∀ r ∈ rules, r.Succeeds answer known := by
    have hfails : (∃ q ∈ rules.zipIdx, ¬ q.1.Succeeds answer known) ↔
        ∃ r ∈ rules, ¬ r.Succeeds answer known :=
      exists_mem_zipIdx (P := fun r => ¬ r.Succeeds answer known)
    simpa using not_congr hfails
  rw [Grounding.round, ← hmade]
  exact (yields_foldlM h (fun _ hq => hq) hp).congr hok fun _ h => h

omit h in
theorem Progress.Records.learns {p' : Progress} (hknown : known.Pairwise (· < ·))
    (hp : Progress.Records answer rules known made { p with derived := [] })
    (hp' : p'.Records answer rules known (made ∪ Rule.allMade answer rules known)) :
    Learns answer rules known (Atoms.union known (Atoms.ofList p'.derived)) where
  ascending := Atoms.pairwise_union hknown (Atoms.pairwise_ofList _)
  mem_iff s := by
    rw [Atoms.mem_union, Atoms.mem_ofList]
    constructor
    · rintro (hs | hs)
      · exact .inl hs
      · obtain ⟨i, hi | hi, hs⟩ := hp'.derived s hs
        · exact (hp.head i hi s hs).imp_right fun hs => absurd hs List.not_mem_nil
        · exact .inr ⟨i, hi, hs⟩
    · rintro (hs | ⟨i, hi, hs⟩)
      · exact .inl hs
      · exact hp'.head i (.inr hi) s hs

omit h in
theorem Progress.Records.restart {known' : List Symbol} (hp : p.Records answer rules known made)
    (hknown : ∀ s, s ∈ known ∨ s ∈ p.derived → s ∈ known') :
    Progress.Records answer rules known' made { p with derived := [] } where
  mem_iff := hp.mem_iff
  seen := hp.seen
  head i hi s hs := .inl (hknown s (hp.head i hi s hs))
  derived _ hs := absurd hs List.not_mem_nil

theorem yields_instantiateUpTo
    (hp : Progress.Records answer rules known made { p with derived := [] })
    (hknown : known.Pairwise (· < ·)) (limit : Nat) :
    Yields (Scratch.Consistent answer) (instantiateUpTo handler rules known p limit)
      (∃ symbols later, Expands answer rules limit known symbols later)
      fun result => ∃ later, Expands answer rules limit known result.1 later ∧
        ∀ i, i ∈ result.2 ↔ i ∈ made ∪ later := by
  induction limit generalizing known p made with
  | zero =>
    rw [instantiateUpTo]
    refine .of_throw ?_
    rintro ⟨symbols, later, hexpands⟩
    cases hexpands
  | succ limit ih =>
    rw [instantiateUpTo]
    refine (yields_round h hp).bind (fun p' hok hp' => ?_) ?_
    · have hlearns := hp.learns hknown hp'
      have hrestart : ∀ s, s ∈ known ∨ s ∈ p'.derived →
          s ∈ Atoms.union known (Atoms.ofList p'.derived) := by simp
      dsimp only
      generalize Atoms.union known (Atoms.ofList p'.derived) = all at hlearns hrestart ⊢
      split
      · next hmax =>
        refine .of_throw ?_
        rintro ⟨symbols, later, hexpands⟩
        cases hexpands with
        | last hround =>
          obtain rfl := hround.unique hlearns
          exact absurd hround.length_le (Nat.not_le_of_gt hmax)
        | next hround =>
          obtain rfl := hround.unique hlearns
          exact absurd hround.length_le (Nat.not_le_of_gt hmax)
      · next hmax =>
        have hround : Round answer rules known all := ⟨hlearns, hok, Nat.le_of_not_gt hmax⟩
        split
        · next hlength =>
          obtain rfl := hlearns.eq_of_length hknown hlength
          have hlast : Expands answer rules (limit + 1) _ _ _ := .last hround
          exact .of_pure ⟨_, _, hlast⟩ ⟨_, hlast, hp'.mem_iff⟩
        · next hlength =>
          refine (ih (hp'.restart hrestart) hlearns.ascending).congr ?_ ?_
          · constructor
            · rintro ⟨symbols, later, hexpands⟩
              exact ⟨symbols, _, .next hround hlength hexpands⟩
            · rintro ⟨symbols, later, hexpands⟩
              cases hexpands with
              | last hround' => exact absurd (hround'.unique hlearns ▸ rfl) hlength
              | next hround' _ hrest =>
                exact ⟨symbols, _, hlearns.unique hround'.toLearns ▸ hrest⟩
          · rintro result ⟨later, hexpands, hmem⟩
            refine ⟨_, .next hround hlength hexpands, ?_⟩
            rwa [← Set.union_assoc]
    · rintro ⟨symbols, later, hexpands⟩
      cases hexpands with
      | last hround => exact hround.succeeds
      | next hround => exact hround.succeeds

theorem yields_atoms (t : Term) :
    Yields (Scratch.Consistent answer)
      (do
        let values ← t.eval (Grounding.answer handler) .empty
        requireAtoms values
        return values : Term.Evaluation (Scratch σ) (List Symbol))
      (∃ values, t.atomsBy answer = .ok values) fun values => t.atomsBy answer = .ok values :=
  have hagree := Agree.congruent fun (s : Scratch σ) (_ : Unit) => s.Consistent answer
  .of_agree <| hagree.bind (hagree.eval (agree_answer_fixed h) .empty t) fun values =>
    hagree.bind (hagree.requireAtoms values) fun _ => hagree.of_pure values

theorem yields_externals (es : List (Term × Span)) (before : List Symbol) :
    Yields (Scratch.Consistent answer) (externals handler before es)
      (∀ e ∈ es, ∃ values, e.1.atomsBy answer = .ok values)
      fun known => known.Pairwise (· < ·) ∧ ∀ s, s ∈ known ↔
        s ∈ before ∨ ∃ e ∈ es, ∃ values, e.1.atomsBy answer = .ok values ∧ s ∈ values := by
  induction es generalizing before with
  | nil =>
    rw [externals]
    exact .of_pure (by simp) ⟨Atoms.pairwise_ofList before, by simp⟩
  | cons e es ih =>
    obtain ⟨t, span⟩ := e
    rw [externals]
    refine (yields_atoms h t).locate.bind (fun values _ hvalues => ?_) fun hall =>
      hall _ List.mem_cons_self
    refine (ih (values ++ before)).congr (by simp [hvalues]) fun known hknown => ?_
    refine ⟨hknown.1, fun s => ?_⟩
    rw [hknown.2, List.mem_append, List.exists_mem_cons_iff, or_comm (a := s ∈ values), or_assoc]
    simp [hvalues]

/-- A selection is instantiated as with fixed answers. -/
theorem yields_ofSelection (s : Selection) :
    Yields (Scratch.Consistent answer) (ofSelection handler s)
      (∃ symbols made, s.Expands answer symbols made)
      fun result => ∃ made, s.Expands answer result.1 made ∧
        ∀ i, i ∈ result.2 ↔ i ∈ made := by
  rw [ofSelection]
  refine (yields_externals h s.externals []).bind (fun known hok hknown => ?_) ?_
  · have hdeclares : Declares answer s.externals known :=
      ⟨hok, hknown.1, fun s => by rw [hknown.2]; simp⟩
    refine (yields_instantiateUpTo h Progress.records_empty hknown.1 _).congr ?_ ?_
    · constructor
      · rintro ⟨symbols, made, hexpands⟩
        exact ⟨symbols, made, known, hdeclares, hexpands⟩
      · rintro ⟨symbols, made, known', hdeclares', hexpands⟩
        exact ⟨symbols, made, hdeclares'.unique hdeclares ▸ hexpands⟩
    · rintro result ⟨made, hexpands, hmem⟩
      exact ⟨made, ⟨known, hdeclares, hexpands⟩, by simpa using hmem⟩
  · rintro ⟨symbols, made, known, hdeclares, -⟩
    exact hdeclares.succeeds

end Grounding

end AnswerSetTest
