import AnswerSetTest.Ground.Instantiation
import AnswerSetTest.Proofs.Ground.Instance
import AnswerSetTest.Proofs.GroundProgram.WellFormed

/-!
# Instantiation

Every round makes instances for all matches over the known atoms, so when a round derives no new
atom, the instances are exactly those of the rules whose positive literals are known, and their
heads are known.
-/

namespace AnswerSetTest

/-- Atoms that contain the heads of the instances whose positive literals are among them. -/
structure Instantiated (rules : List Rule) (known : List Symbol) (instances : List Instance) :
    Prop where
  mem_iff : ∀ i, i ∈ instances ↔
    (∃ r ∈ rules, ∃ b, r.Instantiates b i) ∧ ∀ s ∈ i.positives, s ∈ known
  head_known : ∀ i ∈ instances, ∀ s ∈ i.head, s ∈ known
  length_le : known.length ≤ maxAtoms

namespace Grounding

open Term (Evaluation)

/-- What holds of instances made over known atoms, in the middle of a round. -/
structure Progress.Sound (rules : List Rule) (known : List Symbol) (p : Progress) : Prop where
  made : ∀ i ∈ p.instances, (∃ r ∈ rules, ∃ b, r.Instantiates b i) ∧ ∀ s ∈ i.positives, s ∈ known
  head : ∀ i ∈ p.instances, ∀ s ∈ i.head, s ∈ known ∨ s ∈ p.derived
  seen : ∀ k x, (k, x) ∈ p.seen → ∃ r, (r, k) ∈ rules.zipIdx ∧
    ∃ i ∈ p.instances, r.Evaluates x.binding i ∧ i.positives = x.positives

def Progress.Done (known : List Symbol) (p : Progress) (rule : Rule × Nat) : Prop :=
  ∃ found, Finds .plain known rule.1.positives rule.1.constraints found ∧
    ∀ x ∈ found, (rule.2, x) ∈ p.seen

variable {σ : Type} {handler : Handler σ} {rules : List Rule} {known known' : List Symbol}
  {p p' : Progress} {rule : Rule × Nat}

theorem Progress.sound_empty : Progress.empty.Sound rules known where
  made i hi := by simp [Progress.empty] at hi
  head i hi := by simp [Progress.empty] at hi
  seen k x hx := by simp [Progress.empty] at hx

theorem Progress.Sound.restart (h : p.Sound rules known) (hknown : ∀ s ∈ known, s ∈ known')
    (hderived : ∀ s ∈ p.derived, s ∈ known') :
    Progress.Sound rules known' { p with derived := [] } where
  made i hi := ⟨(h.made i hi).1, fun s hs => hknown s ((h.made i hi).2 s hs)⟩
  head i hi s hs := .inl ((h.head i hi s hs).elim (hknown s) (hderived s))
  seen := h.seen

theorem Progress.Done.mono (h : p.Done known rule) (hseen : ∀ y, y ∈ p.seen → y ∈ p'.seen) :
    p'.Done known rule := by
  obtain ⟨found, hfound, hmem⟩ := h
  exact ⟨found, hfound, fun x hx => hseen _ (hmem x hx)⟩

theorem Progress.Sound.push (h : p.Sound rules known) {r : Rule} (hplain : r.Plain) {k : Nat}
    (hr : (r, k) ∈ rules.zipIdx) {found : List Match}
    (hfound : Finds .plain known r.positives r.constraints found) {x : Match} (hx : x ∈ found)
    {i : Instance} (hi : r.Evaluates x.binding i) (hps : i.positives = x.positives) :
    Progress.Sound rules known ⟨p.seen.insert (k, x), p.instances.push i, i.head ++ p.derived⟩ where
  made j hj := by
    rcases Array.mem_push.1 hj with hj | rfl
    · exact h.made j hj
    · exact ⟨⟨r, List.fst_mem_of_mem_zipIdx hr, x.binding, hfound.instantiates hplain hx hi hps⟩,
        hps ▸ (hfound.solves x hx).known⟩
  head j hj s hs := by
    rcases Array.mem_push.1 hj with hj | rfl
    · exact (h.head j hj s hs).imp_right (List.mem_append_right _)
    · exact .inr (List.mem_append_left _ hs)
  seen k' y hy := by
    rcases Std.HashSet.mem_insert.1 hy with heq | hy
    · obtain ⟨rfl, rfl⟩ := Prod.mk.inj (eq_of_beq heq)
      exact ⟨r, hr, i, Array.mem_push_self, hi, hps⟩
    · obtain ⟨r', hr', j, hj, hj'⟩ := h.seen k' y hy
      exact ⟨r', hr', j, Array.mem_push_of_mem i hj, hj'⟩

theorem seen_instantiateMatches {r : Rule} {k : Nat} (xs : List Match) :
    Returns (instantiateMatches handler r k p xs) fun p' =>
      (∀ y, y ∈ p.seen → y ∈ p'.seen) ∧ ∀ x ∈ xs, (k, x) ∈ p'.seen := by
  induction xs generalizing p with
  | nil =>
    rw [instantiateMatches]
    exact .of_pure ⟨fun _ hy => hy, by simp⟩
  | cons x xs ih =>
    rw [instantiateMatches]
    split
    · next hcontains =>
      refine ih.mono fun p' hp' => ⟨hp'.1, ?_⟩
      exact List.forall_mem_cons.2 ⟨hp'.1 _ hcontains, hp'.2⟩
    · refine Returns.trivial.bind fun i _ => ih.mono fun p' hp' => ?_
      refine ⟨fun y hy => hp'.1 y (Std.HashSet.mem_insert.2 (.inr hy)), ?_⟩
      exact List.forall_mem_cons.2 ⟨hp'.1 _ Std.HashSet.mem_insert_self, hp'.2⟩

theorem sound_instantiateMatches (h : p.Sound rules known) (hplain : rule.1.Plain)
    (hrule : rule ∈ rules.zipIdx) {found xs : List Match}
    (hfound : Finds .plain known rule.1.positives rule.1.constraints found)
    (hxs : ∀ x ∈ xs, x ∈ found) :
    Returns (instantiateMatches handler rule.1 rule.2 p xs) (Progress.Sound rules known) := by
  induction xs generalizing p with
  | nil =>
    rw [instantiateMatches]
    exact .of_pure h
  | cons x xs ih =>
    obtain ⟨hx, hxs⟩ := List.forall_mem_cons.1 hxs
    rw [instantiateMatches]
    split
    · exact ih h hxs
    · refine (Instance.returns_ofMatch hplain x).locate.bind fun i hi => ?_
      exact ih (h.push hplain hrule hfound hx hi.1 hi.2) hxs

theorem returns_instantiateRule (h : p.Sound rules known) (hplain : ∀ r ∈ rules, r.Plain)
    (hrule : rule ∈ rules.zipIdx) :
    Returns (instantiateRule handler known p rule) fun p' => p'.Sound rules known ∧
      (∀ y, y ∈ p.seen → y ∈ p'.seen) ∧ p'.Done known rule := by
  have hr := hplain rule.1 (List.fst_mem_of_mem_zipIdx hrule)
  rw [instantiateRule]
  refine (Rule.returns_findMatches_plain hr.positives hr.constraints).locate.bind
    fun found hfound => ?_
  refine ((sound_instantiateMatches h hr hrule hfound fun x hx => hx).and
    (seen_instantiateMatches found)).mono fun p' hp' => ?_
  exact ⟨hp'.1, hp'.2.1, found, hfound, hp'.2.2⟩

theorem returns_foldlM (h : p.Sound rules known) (hplain : ∀ r ∈ rules, r.Plain)
    {qs : List (Rule × Nat)} (hqs : ∀ q ∈ qs, q ∈ rules.zipIdx) :
    Returns (qs.foldlM (instantiateRule handler known) p) fun p' => p'.Sound rules known ∧
      (∀ y, y ∈ p.seen → y ∈ p'.seen) ∧ ∀ q ∈ qs, p'.Done known q := by
  induction qs generalizing p with
  | nil =>
    rw [List.foldlM_nil]
    exact .of_pure ⟨h, fun _ hy => hy, by simp⟩
  | cons q qs ih =>
    obtain ⟨hq, hqs⟩ := List.forall_mem_cons.1 hqs
    rw [List.foldlM_cons]
    refine (returns_instantiateRule h hplain hq).bind fun p₁ hp₁ => ?_
    obtain ⟨hsound, hseen, hdone⟩ := hp₁
    refine (ih hsound hqs).mono fun p' hp' => ?_
    obtain ⟨hsound', hseen', hdone'⟩ := hp'
    exact ⟨hsound', fun y hy => hseen' y (hseen y hy),
      List.forall_mem_cons.2 ⟨hdone.mono hseen', hdone'⟩⟩

theorem returns_round (h : Progress.Sound rules known { p with derived := [] })
    (hplain : ∀ r ∈ rules, r.Plain) :
    Returns (Grounding.round handler rules known p) fun p' => p'.Sound rules known ∧
      ∀ rule ∈ rules.zipIdx, p'.Done known rule := by
  rw [Grounding.round]
  exact (returns_foldlM h hplain fun q hq => hq).mono fun p' hp' => ⟨hp'.1, hp'.2.2⟩

/-- After a round that derives no atom, no instance over the known atoms is missing. -/
theorem Progress.Sound.instantiated (h : p.Sound rules known) (hplain : ∀ r ∈ rules, r.Plain)
    (hdone : ∀ rule ∈ rules.zipIdx, p.Done known rule) (hderived : ∀ s ∈ p.derived, s ∈ known)
    (hlength : known.length ≤ maxAtoms) : Instantiated rules known p.instances.toList where
  mem_iff i := by
    rw [Array.mem_toList_iff]
    refine ⟨h.made i, ?_⟩
    rintro ⟨⟨r, hr, b, hi⟩, hps⟩
    obtain ⟨k, hk⟩ := List.mem_iff_getElem?.1 hr
    have hmem : (r, k) ∈ rules.zipIdx := List.mk_mem_zipIdx_iff_getElem?.2 hk
    obtain ⟨found, hfound, hseen⟩ := hdone (r, k) hmem
    have hmade : ∀ x ∈ found, ∃ j ∈ p.instances.toList,
        r.Evaluates x.binding j ∧ j.positives = x.positives := by
      intro x hx
      obtain ⟨r', hr', j, hj, hj'⟩ := h.seen k x (hseen x hx)
      have hk' := List.mk_mem_zipIdx_iff_getElem?.1 hr'
      rw [hk, Option.some.injEq] at hk'
      exact ⟨j, Array.mem_toList_iff.2 hj, hk' ▸ hj'⟩
    exact Array.mem_toList_iff.1 (hfound.mem_of_instantiates (hplain r hr) hmade hi hps)
  head_known i hi s hs :=
    (h.head i (Array.mem_toList_iff.1 hi) s hs).elim id (hderived s)
  length_le := hlength

theorem subset_of_union_length {xs ys : List Symbol} (hx : xs.Pairwise (· < ·))
    (h : (Atoms.union xs (Atoms.ofList ys)).length = xs.length) : ∀ s ∈ ys, s ∈ xs := by
  have hsub : xs ⊆ Atoms.union xs (Atoms.ofList ys) := fun s hs => Atoms.mem_union.2 (.inl hs)
  have hsub' := Symbol.subset_of_length hx hsub h
  exact fun s hs => hsub' (Atoms.mem_union.2 (.inr (Atoms.mem_ofList.2 hs)))

theorem returns_instantiateUpTo (h : Progress.Sound rules known { p with derived := [] })
    (hknown : known.Pairwise (· < ·)) (hplain : ∀ r ∈ rules, r.Plain) (limit : Nat) :
    Returns (instantiateUpTo handler rules known p limit) fun result =>
      Instantiated rules result.1 result.2.toList := by
  induction limit generalizing known p with
  | zero => exact .of_throw
  | succ limit ih =>
    rw [instantiateUpTo]
    refine (returns_round h hplain).bind fun p' hp' => ?_
    obtain ⟨hsound, hdone⟩ := hp'
    dsimp only
    split
    · exact .of_throw
    · next hmax =>
      split
      · next hlength =>
        have hle : known.length ≤ maxAtoms := hlength ▸ Nat.le_of_not_gt hmax
        have hderived := subset_of_union_length hknown hlength
        exact .of_pure (hsound.instantiated hplain hdone hderived hle)
      · refine ih (hsound.restart ?_ ?_) (Atoms.pairwise_union hknown (Atoms.pairwise_ofList _))
        · exact fun s hs => Atoms.mem_union.2 (.inl hs)
        · exact fun s hs => Atoms.mem_union.2 (.inr (Atoms.mem_ofList.2 hs))

/-- The known atoms and instances of a selection whose rules have no calls. -/
theorem returns_ofSelection {s : Selection} (hplain : ∀ r ∈ s.rules, r.Plain) :
    Returns (ofSelection handler s) fun result =>
      result.1.Pairwise (· < ·) ∧ Instantiated s.rules result.1 result.2.toList := by
  intro scratch result scratch' hrun
  refine ⟨ofSelection_ascending handler s _ _ _ hrun, ?_⟩
  obtain ⟨known, t, hknown, hinstantiate⟩ := Returns.bind_eq_ok hrun
  have hascending := externals_ascending handler [] s.externals _ _ _ hknown
  exact returns_instantiateUpTo Progress.sound_empty hascending hplain _ _ _ _ hinstantiate

end Grounding

end AnswerSetTest
