import Mathlib.Data.List.Perm.Basic
import AnswerSetTest.Proofs.Ground.Unpooling
import AnswerSetTest.Proofs.GroundProgram.Exchange

/-!
# Reordered bodies

Rules with the same literals in another order have the same matches up to the order of the atoms,
and instances that are alike, if they can be read in both orders. The binding of a match does not
depend on the order in which its variables are bound: it is determined by what the literals and the
comparisons say together.
-/

namespace AnswerSetTest

structure Rule.Reordered (r s : Rule) : Prop where
  head : r.head = s.head
  body : r.body.Perm s.body

/-- Rules that differ in the order of their bodies only, where the intervals can be read in both
orders or in neither. -/
structure Rule.Interchangeable (r s : Rule) : Prop extends r.Reordered s where
  readable : r.Readable ↔ s.Readable

namespace Rule.Reordered

variable {r s : Rule}

theorem symm (h : r.Reordered s) : s.Reordered r := ⟨h.head.symm, h.body.symm⟩

theorem positives (h : r.Reordered s) : r.positives.Perm s.positives := h.body.filterMap _

theorem constraints (h : r.Reordered s) : r.constraints.Perm s.constraints := h.body.filterMap _

theorem negatives (h : r.Reordered s) : r.negatives.Perm s.negatives := h.body.filterMap _

theorem counts (h : r.Reordered s) : r.counts.Perm s.counts := h.body.filterMap _

end Rule.Reordered

theorem Rule.Interchangeable.symm {r s : Rule} (h : r.Interchangeable s) : s.Interchangeable r :=
  ⟨h.toReordered.symm, h.readable.symm⟩

section Solutions

variable {V : Valuation} {known : List Symbol} {ts us : List Term} {cs ds : List Constraint}
  {b : Binding} {ps : List Symbol} {found found' : List Match} {x : Match}

theorem Solves.perm (h : Solves V known ts cs b ps) (hts : us.Perm ts)
    (hcs : ∀ c, c ∈ ds ↔ c ∈ cs) : ∃ qs, Solves V known us ds b qs ∧ qs.Perm ps := by
  obtain ⟨qs, hstands, hperm⟩ := List.perm_comp_forall₂ hts h.stands
  exact ⟨qs, ⟨hstands, fun s hs => h.known s (hperm.mem_iff.1 hs),
    fun c hc => h.holds c ((hcs c).1 hc)⟩, hperm⟩

theorem occurs_congr (hts : ∀ t, t ∈ us ↔ t ∈ ts) (hcs : ∀ c, c ∈ ds ↔ c ∈ cs) (v : String) :
    Occurs us ds v ↔ Occurs ts cs v := by
  simp only [Occurs, hts, hcs]

theorem Finds.get?_anonymous (h : Finds V known ts cs found) (hx : x ∈ found) :
    x.binding.get? "_" = none := by
  rw [← Option.not_isSome_iff_eq_none, h.isSome_iff x hx]
  rintro (⟨t, -, ht⟩ | ⟨c, -, hc | hc⟩)
  · exact t.anonymous_notMem_vars ht
  · exact c.left.anonymous_notMem_vars hc
  · exact c.right.anonymous_notMem_vars hc

/-- In another order the literals are matched under the same bindings. -/
theorem Finds.exists_perm (h : Finds V known ts cs found) (h' : Finds V known us ds found')
    (hts : us.Perm ts) (hcs : ∀ c, c ∈ ds ↔ c ∈ cs) (hx : x ∈ found) :
    ∃ y ∈ found', y.binding = x.binding ∧ y.positives.Perm x.positives := by
  obtain ⟨qs, hsol, hperm⟩ := (h.solves x hx).perm hts hcs
  obtain ⟨y, hy, hle, rfl⟩ := h'.complete x.binding qs (h.get?_anonymous hx) hsol
  refine ⟨y, hy, Binding.eq_of_le hle fun v hv => ?_, hperm⟩
  rw [h'.isSome_iff y hy, occurs_congr (fun t => hts.mem_iff) hcs, ← h.isSome_iff x hx]
  exact hv

end Solutions

section Instances

variable {answer : String → List Symbol → Except String Symbol} {known : List Symbol}
  {r s : Rule} {found found' : List Match} {x y : Match} {i j : Instance}

/-- With fixed answers, the matches of a rule without pools are its least solutions if it can be
read, and there are none otherwise. -/
theorem Rule.PoolFree.finds (hr : r.PoolFree) (h : r.matchesBy answer known = .ok found) :
    (r.Readable → Finds (.answered answer) known r.positives r.constraints found) ∧
      (¬ r.Readable → found = []) :=
  (Rule.returns_findMatches hr.positives fun c _ =>
    ⟨Valuation.answered_gives answer c.left, Valuation.answered_gives answer c.right⟩).of_fst h

theorem Rule.Interchangeable.exists_match (h : r.Interchangeable s) (hr : r.PoolFree)
    (hs : s.PoolFree) (hfound : r.matchesBy answer known = .ok found)
    (hfound' : s.matchesBy answer known = .ok found') (hx : x ∈ found) :
    ∃ y ∈ found', y.binding = x.binding ∧ y.positives.Perm x.positives := by
  by_cases hread : r.Readable
  · have hfinds := (hr.finds hfound).1 hread
    have hfinds' := (hs.finds hfound').1 (h.readable.1 hread)
    exact hfinds.exists_perm hfinds' h.positives.symm (fun c => h.constraints.symm.mem_iff) hx
  · rw [(hr.finds hfound).2 hread] at hx
    cases hx

/-- Functional relations keep permutations. -/
theorem perm_of_forall₂ {α β : Type} {R : α → β → Prop} (hR : Relator.RightUnique R)
    {xs xs' : List α} {ys ys' : List β} (h : List.Forall₂ R xs ys) (h' : List.Forall₂ R xs' ys')
    (hxs : xs.Perm xs') : ys.Perm ys' := by
  obtain ⟨zs, hzs, hperm⟩ := List.perm_comp_forall₂ hxs h'
  rwa [List.right_unique_forall₂' hR h hzs]

theorem Instance.of_ofMatchBy (h : ofMatchBy answer r x = .ok i) : ∃ head rows counts,
    (headAtoms (Term.fixed answer) x.binding [] r.head.atoms ()).1 = .ok head ∧
    List.Forall₂ (fun t vs => (Valuation.answered answer).values x.binding t = some vs)
      r.negatives rows ∧
    List.Forall₂ (Count.ResolvesBy (.answered answer) x.binding) r.counts counts ∧
    i = ⟨kindOf r.head head, head, x.positives, rows.flatten, counts⟩ := by
  have hrun : ofMatch (Term.fixed answer) (Term.fixed answer) r x () = (.ok i, ()) :=
    Prod.ext h rfl
  rw [ofMatch] at hrun
  obtain ⟨head, _, hhead, hbody⟩ := Returns.bind_eq_ok hrun
  have hgives : ∀ l ∈ r.body, ∀ t ∈ l.outerTerms,
      (Valuation.answered answer).Gives (Term.fixed answer) t ∧
      (Valuation.answered answer).Gives (Term.fixed answer) t :=
    fun _ _ t _ => ⟨Valuation.answered_gives answer t, Valuation.answered_gives answer t⟩
  obtain ⟨rows, counts, hrows, hcounts, rfl⟩ := returns_addBody hgives _ _ _ _ hbody
  exact ⟨head, rows, counts, congrArg Prod.fst hhead, hrows, hcounts, by simp⟩

theorem Rule.Reordered.alike (h : r.Reordered s) (hbinding : x.binding = y.binding)
    (hpositives : x.positives.Perm y.positives) (hi : Instance.ofMatchBy answer r x = .ok i)
    (hj : Instance.ofMatchBy answer s y = .ok j) : i.Alike j := by
  obtain ⟨head, rows, counts, hhead, hrows, hcounts, rfl⟩ := Instance.of_ofMatchBy hi
  obtain ⟨head', rows', counts', hhead', hrows', hcounts', rfl⟩ := Instance.of_ofMatchBy hj
  rw [hbinding] at hhead hrows hcounts
  rw [h.head, hhead', Except.ok.injEq] at hhead
  have hunique : Relator.RightUnique fun t vs =>
      (Valuation.answered answer).values y.binding t = some vs :=
    fun t vs ws hvs hws => Option.some.inj (hvs.symm.trans hws)
  have hnegatives := (perm_of_forall₂ hunique hrows hrows' h.negatives).flatten
  have hcount := perm_of_forall₂ Count.ResolvesBy.unique hcounts hcounts' h.counts
  exact { kind := by rw [h.head, hhead]
          head := hhead.symm
          positives := fun _ => hpositives.mem_iff
          negatives := fun _ => hnegatives.mem_iff
          counts := fun _ => hcount.mem_iff }

theorem Rule.Interchangeable.exists_alike (h : r.Interchangeable s) (hr : r.PoolFree)
    (hs : s.PoolFree) (hsucceeds : s.Succeeds answer known) (hi : r.Makes answer known i) :
    ∃ j, s.Makes answer known j ∧ i.Alike j := by
  obtain ⟨found, hfound, x, hx, hix⟩ := hi
  obtain ⟨found', hfound', hall⟩ := hsucceeds
  obtain ⟨y, hy, hbinding, hpositives⟩ := h.exists_match hr hs hfound hfound' hx
  obtain ⟨j, hj⟩ := hall y hy
  exact ⟨j, ⟨found', hfound', y, hy, hj⟩, h.alike hbinding.symm hpositives.symm hix hj⟩

theorem Rule.exists_alike_of_mem_allMade {rules rules' : List Rule}
    (h : ∀ r ∈ rules, ∃ s ∈ rules', r.Interchangeable s) (hrules : ∀ r ∈ rules, r.PoolFree)
    (hrules' : ∀ r ∈ rules', r.PoolFree) (hsucceeds : ∀ r ∈ rules', r.Succeeds answer known) :
    ∀ i ∈ allMade answer rules known, ∃ j ∈ allMade answer rules' known, i.Alike j := by
  rintro i ⟨r, hr, hi⟩
  obtain ⟨s, hs, hrs⟩ := h r hr
  obtain ⟨j, hj, halike⟩ := hrs.exists_alike (hrules r hr) (hrules' s hs) (hsucceeds s hs) hi
  exact ⟨j, ⟨s, hs, hj⟩, halike⟩

theorem Rule.paired_allMade {rules rules' : List Rule}
    (h : Paired Rule.Interchangeable {r | r ∈ rules} {r | r ∈ rules'})
    (hrules : ∀ r ∈ rules, r.PoolFree) (hrules' : ∀ r ∈ rules', r.PoolFree)
    (hsucceeds : ∀ r ∈ rules, r.Succeeds answer known)
    (hsucceeds' : ∀ r ∈ rules', r.Succeeds answer known) :
    Paired Instance.Alike (allMade answer rules known) (allMade answer rules' known) := by
  have hleft := exists_alike_of_mem_allMade h.left hrules hrules' hsucceeds'
  have hsymm := h.symm fun _ _ hrs => hrs.symm
  have hright := exists_alike_of_mem_allMade hsymm.left hrules' hrules hsucceeds
  exact .of_symm (fun _ _ hij => hij.symm) hleft hright

end Instances

end AnswerSetTest
