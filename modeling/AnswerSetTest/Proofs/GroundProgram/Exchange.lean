import AnswerSetTest.Proofs.AnswerSet.Representation
import AnswerSetTest.Proofs.Ground.Exchange
import AnswerSetTest.Proofs.GroundProgram.Simplification

/-!
# Exchange of instances

Ground programs of the same atoms and of instances that differ in the order of their bodies only
have the same facts and present the same models in the same order.
-/

namespace AnswerSetTest

/-- Instances up to the order and repetition of body literals. -/
structure Instance.Alike (i j : Instance) : Prop where
  kind : i.kind = j.kind
  head : i.head = j.head
  positives : ∀ s, s ∈ i.positives ↔ s ∈ j.positives
  negatives : ∀ s, s ∈ i.negatives ↔ s ∈ j.negatives
  counts : ∀ c, c ∈ i.counts ↔ c ∈ j.counts

theorem Instance.Alike.refl (i : Instance) : i.Alike i :=
  ⟨rfl, rfl, fun _ => Iff.rfl, fun _ => Iff.rfl, fun _ => Iff.rfl⟩

theorem Instance.Alike.symm {i j : Instance} (h : i.Alike j) : j.Alike i :=
  ⟨h.kind.symm, h.head.symm, fun s => (h.positives s).symm, fun s => (h.negatives s).symm,
    fun c => (h.counts c).symm⟩

structure GroundRule.Alike (r s : GroundRule) : Prop where
  kind : r.kind = s.kind
  head : r.head = s.head
  positives : ∀ a, a ∈ r.positives ↔ a ∈ s.positives
  negatives : ∀ a, a ∈ r.negatives ↔ a ∈ s.negatives
  counts : ∀ c, c ∈ r.counts ↔ c ∈ s.counts

theorem Numbering.mem_numbers_congr {ids : Numbering} {ss ts : List Symbol}
    (h : ∀ s, s ∈ ss ↔ s ∈ ts) (a : AtomId) : a ∈ ids.numbers ss ↔ a ∈ ids.numbers ts := by
  simp only [numbers, List.mem_filterMap, h]

namespace GroundRule

variable {symbols : List Symbol} {ids : Numbering} {i j : Instance} {r s : GroundRule}

theorem Alike.symm (h : r.Alike s) : s.Alike r :=
  ⟨h.kind.symm, h.head.symm, fun a => (h.positives a).symm, fun a => (h.negatives a).symm,
    fun c => (h.counts c).symm⟩

theorem alike_ofInstanceBody (h : i.Alike j) (head : List AtomId) :
    (ofInstanceBody symbols ids i head).Alike (ofInstanceBody symbols ids j head) where
  kind := h.kind
  head := rfl
  positives := Numbering.mem_numbers_congr h.positives
  negatives := Numbering.mem_numbers_congr h.negatives
  counts c := by simp only [ofInstanceBody, List.mem_map, h.counts]

theorem exists_ofInstance (h : i.Alike j) (hr : r ∈ ofInstance symbols ids i) :
    ∃ s ∈ ofInstance symbols ids j, r.Alike s := by
  by_cases hk : i.kind = .normal
  · rw [ofInstance_normal hk] at hr
    rw [ofInstance_normal (h.kind ▸ hk), ← h.head]
    obtain ⟨a, ha, rfl⟩ := List.mem_map.1 hr
    exact ⟨_, List.mem_map_of_mem ha, alike_ofInstanceBody h [a]⟩
  · rw [ofInstance_of_ne hk] at hr
    rw [ofInstance_of_ne (h.kind ▸ hk), ← h.head]
    obtain rfl := List.mem_singleton.1 hr
    exact ⟨_, List.mem_singleton_self _, alike_ofInstanceBody h _⟩

theorem paired_ofInstance (h : i.Alike j) : Paired Alike {r | r ∈ ofInstance symbols ids i}
    {r | r ∈ ofInstance symbols ids j} :=
  .of_symm (fun _ _ hrs => hrs.symm) (fun _ hr => exists_ofInstance h hr)
    fun _ hs => exists_ofInstance h.symm hs

theorem eq_nil_congr {α : Type} {xs ys : List α} (h : ∀ a, a ∈ xs ↔ a ∈ ys) (hx : xs = []) :
    ys = [] := by
  subst hx
  exact List.eq_nil_iff_forall_not_mem.2 fun a ha => List.not_mem_nil ((h a).2 ha)

theorem Alike.clause? (h : r.Alike s) {c : Clause} (hc : r.clause? = some c) :
    ∃ d, s.clause? = some d ∧ d.head = c.head ∧ ∀ a, a ∈ c.body ↔ a ∈ d.body := by
  obtain rfl := clause?_eq_some.1 hc
  refine ⟨⟨c.head, s.positives⟩, clause?_eq_some.2 ?_, rfl, h.positives⟩
  have hnegatives := eq_nil_congr h.negatives rfl
  have hcounts := eq_nil_congr h.counts rfl
  have hkind := h.kind
  have hhead := h.head
  obtain ⟨kind, head, positives, negatives, counts⟩ := s
  dsimp only at hnegatives hcounts hkind hhead ⊢
  rw [hnegatives, hcounts, ← hkind, ← hhead]

theorem Alike.simplify? (h : r.Alike s) {isFact : AtomId → Bool} {r' : GroundRule}
    (hr : r.simplify? isFact = some r') : ∃ s', s.simplify? isFact = some s' ∧ r'.Alike s' := by
  obtain ⟨hfacts, rfl⟩ := simplify?_eq_some.1 hr
  refine ⟨_, simplify?_eq_some.2 ⟨fun a ha => hfacts a ((h.negatives a).2 ha), rfl⟩, ?_⟩
  exact { kind := h.kind
          head := h.head
          positives := fun a => by simp [h.positives]
          negatives := fun a => by simp [h.negatives]
          counts := h.counts }

theorem Alike.holdsWithin_iff (h : r.Alike s) {I J : Interpretation} :
    r.HoldsWithin I J ↔ s.HoldsWithin I J := by
  simp only [HoldsWithin, Survives, HeadHolds, h.kind, h.head, h.positives, h.negatives,
    h.counts]

end GroundRule

namespace GroundProgram

variable {symbols : List Symbol} {is js : List Instance} {shown shown' : Option (List Signature)}

theorem paired_rulesOf (symbols : List Symbol)
    (h : Paired Instance.Alike {i | i ∈ is} {i | i ∈ js}) :
    Paired GroundRule.Alike {r | r ∈ rulesOf symbols is} {r | r ∈ rulesOf symbols js} :=
  h.flatMap fun _ _ hij => GroundRule.paired_ofInstance hij

theorem head_lt_of_mem_clauses (hp : symbols.Pairwise (· < ·)) :
    ∀ c ∈ (rulesOf symbols is).filterMap GroundRule.clause?, c.head < symbols.length + 1 := by
  intro c hc
  obtain ⟨r, hr, hrc⟩ := List.mem_filterMap.1 hc
  obtain rfl := GroundRule.clause?_eq_some.1 hrc
  exact Nat.lt_succ_of_le (head_le_of_mem_rulesOf hp hr (List.mem_singleton_self _)).2

theorem closed_of_alike {rs ss : List GroundRule} {I : Interpretation}
    (h : ∀ s ∈ ss, ∃ r ∈ rs, s.Alike r) (hI : Clause.Closed (rs.filterMap GroundRule.clause?) I) :
    Clause.Closed (ss.filterMap GroundRule.clause?) I := by
  intro c hc hbody
  obtain ⟨s, hs, hsc⟩ := List.mem_filterMap.1 hc
  obtain ⟨r, hr, hsr⟩ := h s hs
  obtain ⟨d, hd, hhead, hbodies⟩ := hsr.clause? hsc
  rw [← hhead]
  exact hI d (List.mem_filterMap.2 ⟨r, hr, hd⟩) fun a ha => hbody a ((hbodies a).2 ha)

theorem facts_eq (hp : symbols.Pairwise (· < ·))
    (h : Paired Instance.Alike {i | i ∈ is} {i | i ∈ js}) :
    (ofInstances symbols is shown).facts = (ofInstances symbols js shown').facts := by
  have hrules := paired_rulesOf symbols h
  refine Clause.leastModel_congr (head_lt_of_mem_clauses hp) (head_lt_of_mem_clauses hp)
    fun I => ⟨closed_of_alike fun s hs => ?_, closed_of_alike hrules.left⟩
  obtain ⟨r, hr, hrs⟩ := hrules.right s hs
  exact ⟨r, hr, hrs.symm⟩

theorem isFact_eq (hp : symbols.Pairwise (· < ·))
    (h : Paired Instance.Alike {i | i ∈ is} {i | i ∈ js}) (a : AtomId) :
    (ofInstances symbols is shown).isFact a = (ofInstances symbols js shown').isFact a := by
  rw [isFact, isFact, facts_eq hp h]

/-- The ground rules only depend on the set of instances. -/
theorem mem_rules_congr (hp : symbols.Pairwise (· < ·)) (h : {i | i ∈ is} = {i | i ∈ js})
    (r : GroundRule) :
    r ∈ (ofInstances symbols is shown).rules ↔ r ∈ (ofInstances symbols js shown').rules := by
  have hpaired : Paired Instance.Alike {i | i ∈ is} {i | i ∈ js} :=
    h ▸ ⟨fun i hi => ⟨i, hi, .refl i⟩, fun i hi => ⟨i, hi, .refl i⟩⟩
  have hmem : ∀ i, i ∈ is ↔ i ∈ js := fun i => Set.ext_iff.1 h i
  have hfacts : (ofInstances symbols is shown).isFact = (ofInstances symbols js shown').isFact :=
    funext (isFact_eq hp hpaired)
  simp only [mem_rules_ofInstances, hfacts, rulesOf, List.mem_flatMap, hmem]

structure Exchanges (p q : GroundProgram) : Prop where
  symbols : p.symbols = q.symbols
  facts : p.facts = q.facts
  rules : Paired GroundRule.Alike {r | r ∈ p.rules} {r | r ∈ q.rules}
  shown : Option.Rel (fun xs ys => ∀ f, f ∈ xs ↔ f ∈ ys) p.shown q.shown

theorem exists_alike_of_mem_rules (hp : symbols.Pairwise (· < ·))
    (h : Paired Instance.Alike {i | i ∈ is} {i | i ∈ js}) {r : GroundRule}
    (hr : r ∈ (ofInstances symbols is shown).rules) :
    ∃ s ∈ (ofInstances symbols js shown').rules, r.Alike s := by
  have hfacts : (ofInstances symbols is shown).isFact = (ofInstances symbols js shown').isFact :=
    funext (isFact_eq hp h)
  obtain ⟨r₀, hr₀, hsimplify⟩ := mem_rules_ofInstances.1 hr
  obtain ⟨s₀, hs₀, halike⟩ := (paired_rulesOf symbols h).left r₀ hr₀
  obtain ⟨s, hs, hrs⟩ := halike.simplify? hsimplify
  exact ⟨s, mem_rules_ofInstances.2 ⟨s₀, hs₀, hfacts ▸ hs⟩, hrs⟩

theorem exchanges_ofInstances (hp : symbols.Pairwise (· < ·))
    (h : Paired Instance.Alike {i | i ∈ is} {i | i ∈ js})
    (hshown : Option.Rel (fun xs ys => ∀ f, f ∈ xs ↔ f ∈ ys) shown shown') :
    (ofInstances symbols is shown).Exchanges (ofInstances symbols js shown') where
  symbols := rfl
  facts := facts_eq hp h
  rules := .of_symm (fun _ _ hrs => hrs.symm) (fun _ hr => exists_alike_of_mem_rules hp h hr)
    fun _ hs => exists_alike_of_mem_rules hp (h.symm fun _ _ hij => hij.symm) hs
  shown := hshown

namespace Exchanges

variable {p q : GroundProgram}

theorem undetermined (h : p.Exchanges q) : p.undetermined = q.undetermined := by
  refine ascending_eq_iff.2 fun a => ?_
  have hfact : p.isFact a = q.isFact a := by rw [isFact, isFact, h.facts]
  simp only [List.mem_filter, List.mem_flatMap, hfact]
  refine and_congr_left fun _ => ⟨?_, ?_⟩
  · rintro ⟨r, hr, ha⟩
    obtain ⟨s, hs, hrs⟩ := h.rules.left r hr
    exact ⟨s, hs, hrs.head ▸ ha⟩
  · rintro ⟨s, hs, ha⟩
    obtain ⟨r, hr, hrs⟩ := h.rules.right s hs
    exact ⟨r, hr, hrs.head ▸ ha⟩

theorem holdsWithin_iff (h : p.Exchanges q) {I J : Interpretation} :
    (∀ r ∈ p.rules, r.HoldsWithin I J) ↔ ∀ r ∈ q.rules, r.HoldsWithin I J := by
  constructor
  · intro hp s hs
    obtain ⟨r, hr, hrs⟩ := h.rules.right s hs
    exact hrs.holdsWithin_iff.1 (hp r hr)
  · intro hq r hr
    obtain ⟨s, hs, hrs⟩ := h.rules.left r hr
    exact hrs.holdsWithin_iff.2 (hq s hs)

theorem isAnswerSet_iff (h : p.Exchanges q) {I : Interpretation} :
    p.IsAnswerSet I ↔ q.IsAnswerSet I := by
  have hstable : GroundRule.Stable p.rules I ↔ GroundRule.Stable q.rules I :=
    ⟨fun hI => ⟨h.holdsWithin_iff.1 hI.holds, fun J hJ hred =>
      hI.minimal J hJ (h.holdsWithin_iff.2 hred)⟩,
    fun hI => ⟨h.holdsWithin_iff.2 hI.holds, fun J hJ hred =>
      hI.minimal J hJ (h.holdsWithin_iff.1 hred)⟩⟩
  constructor
  · exact fun hI => ⟨h.symbols ▸ hI.known, hstable.1 hI.stable⟩
  · exact fun hI => ⟨h.symbols ▸ hI.known, hstable.2 hI.stable⟩

/-- The search finds the same answer sets in the same order. -/
theorem answerSets (h : p.Exchanges q) (hp : p.WellFormed) (hq : q.WellFormed) :
    p.answerSets = q.answerSets := by
  have hcandidate : p.candidate = q.candidate := by
    funext mask
    rw [candidate, candidate, h.facts, h.undetermined]
  rw [GroundProgram.answerSets, GroundProgram.answerSets, answerSetsFrom, answerSetsFrom,
    hcandidate, h.undetermined]
  refine List.filter_congr fun I hI => ?_
  obtain ⟨mask, -, rfl⟩ := List.mem_map.1 hI
  have htest := isModel_and_isStable_iff hp (candidate_candidate hp mask)
  rw [hcandidate, h.undetermined, h.isAnswerSet_iff] at htest
  exact Bool.eq_iff_iff.2 (htest.trans
    (isModel_and_isStable_iff hq (candidate_candidate hq mask)).symm)

theorem model (h : p.Exchanges q) (number : Nat) (I : Interpretation) :
    p.model number I = q.model number I := by
  have hshown := h.shown
  unfold GroundProgram.model
  rw [h.symbols]
  generalize p.shown = shown at hshown ⊢
  generalize q.shown = shown' at hshown ⊢
  cases hshown with
  | none => rfl
  | some hmem => simp only [hmem]

theorem modelsFrom (h : p.Exchanges q) (hp : p.WellFormed) (hq : q.WellFormed) (first : Nat) :
    p.modelsFrom first p.answerSets = q.modelsFrom first q.answerSets := by
  rw [GroundProgram.modelsFrom, GroundProgram.modelsFrom, h.answerSets hp hq]
  exact List.map_congr_left fun e _ => h.model e.2 e.1

end Exchanges

end GroundProgram

end AnswerSetTest
