import AnswerSetTest.Proofs.Ground.Numbering
import AnswerSetTest.Proofs.Ground.Outcome
import AnswerSetTest.Proofs.GroundProgram.LeastModel

/-!
# Well-formed ground programs

What grounding guarantees of its ground program: symbols are in ascending order, head atoms are
known, a normal rule has one head atom, and every fact has a rule without a body.
-/

namespace AnswerSetTest

namespace GroundRule

def fact (a : AtomId) : GroundRule := ⟨.normal, [a], [], [], []⟩

theorem clause?_eq_some {r : GroundRule} {c : Clause} :
    r.clause? = some c ↔ r = ⟨.normal, [c.head], c.body, [], []⟩ := by
  constructor
  · intro h
    rw [clause?] at h
    split at h
    · next hk hh hn hc =>
      obtain rfl := Option.some.inj h
      obtain ⟨kind, head, positives, negatives, counts⟩ := r
      simp only at hk hh hn hc
      subst hk hh hn hc
      rfl
    · cases h
  · rintro rfl
    rfl

theorem simplify?_eq_some {isFact : AtomId → Bool} {r r' : GroundRule} :
    r.simplify? isFact = some r' ↔ (∀ a ∈ r.negatives, ¬ isFact a) ∧
      r' = { r with
        positives := sortIds (r.positives.filter fun a => !isFact a)
        negatives := sortIds r.negatives } := by
  rw [simplify?]
  split
  · next h =>
    obtain ⟨a, ha, hf⟩ := List.any_eq_true.1 h
    exact ⟨nofun, fun hn => absurd hf (hn.1 a ha)⟩
  · next h =>
    have hn : ∀ a ∈ r.negatives, ¬ isFact a := fun a ha hf => h (List.any_eq_true.2 ⟨a, ha, hf⟩)
    exact ⟨fun he => ⟨hn, (Option.some.inj he).symm⟩, fun he => congrArg some he.2.symm⟩

theorem mem_ofInstance {symbols : List Symbol} {ids : Numbering} {i : Instance} {r : GroundRule}
    (h : r ∈ ofInstance symbols ids i) :
    (∀ a ∈ r.head, a ∈ ids.numbers i.head) ∧ (r.kind = .normal → ∃ a, r.head = [a]) := by
  rw [ofInstance] at h
  split at h
  · obtain ⟨a, ha, rfl⟩ := List.mem_map.1 h
    exact ⟨fun b hb => List.mem_singleton.1 hb ▸ ha, fun _ => ⟨a, rfl⟩⟩
  · next hk =>
    obtain rfl := List.mem_singleton.1 h
    exact ⟨fun _ ha => ha, fun hn => absurd hn hk⟩

end GroundRule

namespace GroundProgram

structure WellFormed (p : GroundProgram) : Prop where
  ascending : p.symbols.Pairwise (· < ·)
  size_facts : p.facts.size = p.symbols.length + 1
  fact_mem : ∀ a, p.isFact a → GroundRule.fact a ∈ p.rules
  head_le : ∀ r ∈ p.rules, ∀ a ∈ r.head, 1 ≤ a ∧ a ≤ p.symbols.length
  normal_head : ∀ r ∈ p.rules, r.kind = .normal → ∃ a, r.head = [a]

/-- The rules of instances, before they are simplified. -/
def rulesOf (symbols : List Symbol) (instances : List Instance) : List GroundRule :=
  instances.flatMap (GroundRule.ofInstance symbols (.ofSymbols symbols))

variable {symbols : List Symbol} {instances : List Instance} {shown : Option (List Signature)}

theorem mem_rules_ofInstances {r : GroundRule} :
    r ∈ (ofInstances symbols instances shown).rules ↔ ∃ r₀ ∈ rulesOf symbols instances,
      r₀.simplify? (ofInstances symbols instances shown).isFact = some r := by
  change r ∈ firstOccurrences _ ↔ _
  rw [mem_firstOccurrences, List.mem_filterMap]
  rfl

theorem head_le_of_mem_rulesOf (hp : symbols.Pairwise (· < ·)) {r : GroundRule}
    (h : r ∈ rulesOf symbols instances) {a : Nat} (ha : a ∈ r.head) :
    1 ≤ a ∧ a ≤ symbols.length := by
  obtain ⟨i, -, hr⟩ := List.mem_flatMap.1 h
  obtain ⟨s, -, hs⟩ := (Numbering.mem_numbers hp).1 ((GroundRule.mem_ofInstance hr).1 a ha)
  exact ⟨hs.one_le, hs.le_length⟩

/-- A fact is the head of a rule without negation and counts whose body has only facts. -/
theorem exists_rule_of_isFact {a : AtomId}
    (h : (ofInstances symbols instances shown).isFact a) :
    ∃ body, ⟨.normal, [a], body, [], []⟩ ∈ rulesOf symbols instances ∧
      ∀ b ∈ body, (ofInstances symbols instances shown).isFact b := by
  obtain ⟨c, hc, rfl, hbody⟩ := Clause.leastModel_supported h
  obtain ⟨r, hr, hrc⟩ := List.mem_filterMap.1 hc
  rw [GroundRule.clause?_eq_some] at hrc
  exact ⟨c.body, hrc ▸ hr, hbody⟩

theorem wellFormed_ofInstances (hp : symbols.Pairwise (· < ·)) :
    (ofInstances symbols instances shown).WellFormed where
  ascending := hp
  size_facts := Clause.size_leastModel
  fact_mem a ha := by
    obtain ⟨body, hr, hbody⟩ := exists_rule_of_isFact ha
    refine mem_rules_ofInstances.2 ⟨_, hr, GroundRule.simplify?_eq_some.2 ⟨by simp, ?_⟩⟩
    have hnone : body.filter (fun b => !(ofInstances symbols instances shown).isFact b) = [] := by
      rw [List.filter_eq_nil_iff]
      intro b hb
      simp [hbody b hb]
    simp only [hnone, GroundRule.sortIds, ascending_nil, GroundRule.fact]
  head_le r hr a ha := by
    obtain ⟨r₀, hr₀, hs⟩ := mem_rules_ofInstances.1 hr
    obtain ⟨-, rfl⟩ := GroundRule.simplify?_eq_some.1 hs
    exact head_le_of_mem_rulesOf hp hr₀ ha
  normal_head r hr hk := by
    obtain ⟨r₀, hr₀, hs⟩ := mem_rules_ofInstances.1 hr
    obtain ⟨-, rfl⟩ := GroundRule.simplify?_eq_some.1 hs
    obtain ⟨i, -, hi⟩ := List.mem_flatMap.1 hr₀
    exact (GroundRule.mem_ofInstance hi).2 hk

end GroundProgram

namespace Grounding

variable {σ : Type} (handler : Handler σ)

theorem externals_ascending (before : List Symbol) (es : List (Term × Span)) :
    Returns (externals handler before es) fun known => known.Pairwise (· < ·) := by
  induction es generalizing before with
  | nil => exact .of_pure (Atoms.pairwise_ofList before)
  | cons e es ih => exact .bind .trivial fun values _ => ih (values ++ before)

theorem instantiateUpTo_ascending (rules : List Rule) {known : List Symbol}
    (hk : known.Pairwise (· < ·)) (p : Progress) (limit : Nat) :
    Returns (instantiateUpTo handler rules known p limit) fun r => r.1.Pairwise (· < ·) := by
  induction limit generalizing known p with
  | zero => exact .of_throw
  | succ limit ih =>
    refine .bind .trivial fun p' _ => ?_
    dsimp only
    split
    · exact .of_throw
    · split
      · exact .of_pure hk
      · exact ih (Atoms.pairwise_union hk (Atoms.pairwise_ofList _)) p'

theorem ofSelection_ascending (s : Selection) :
    Returns (ofSelection handler s) fun r => r.1.Pairwise (· < ·) :=
  .bind (externals_ascending handler [] s.externals) fun _ hk =>
    instantiateUpTo_ascending handler s.rules hk .empty _

/-- The one rule of a selection is instantiated for its one match in the first round, and has no
other match in the second. -/
theorem ofSelection_single {handler : Handler σ} {rule : Rule} {x : Match} {i : Instance}
    {a : Symbol} {w : σ} {t u : Scratch σ}
    (hfind : locate rule.span (rule.findMatches (answerOnce handler 0) []) ⟨w, ∅⟩ = (.ok [x], t))
    (hmake : locate rule.span (Instance.ofMatch (answer handler) (answerOnce handler 0) rule x) t =
      (.ok i, u))
    (hhead : i.head = [a])
    (hagain : locate rule.span (rule.findMatches (answerOnce handler 0) [a]) u = (.ok [x], u)) :
    ofSelection handler ⟨[rule], [], none⟩ ⟨w, ∅⟩ = (.ok ([a], #[i]), u) := by
  let seen : Std.HashSet (Nat × Match) := (∅ : Std.HashSet (Nat × Match)).insert (0, x)
  have hround : ∀ known p, Grounding.round handler [rule] known p =
      instantiateRule handler known { p with derived := [] } (rule, 0) := by
    intro known p
    rw [Grounding.round]
    simp only [List.zipIdx_cons, List.zipIdx_nil, List.foldlM_cons, List.foldlM_nil, bind_pure]
  have hfirst : Grounding.round handler [rule] [] .empty ⟨w, ∅⟩ = (.ok ⟨seen, #[i], [a]⟩, u) := by
    rw [hround, instantiateRule, Returns.bind_eq_of_ok hfind, instantiateMatches,
      if_neg (by simp [Progress.empty]), Returns.bind_eq_of_ok hmake, hhead]
    rfl
  have hsecond : Grounding.round handler [rule] [a] ⟨seen, #[i], [a]⟩ u =
      (.ok ⟨seen, #[i], []⟩, u) := by
    rw [hround, instantiateRule, Returns.bind_eq_of_ok hagain, instantiateMatches,
      if_pos (by simp [seen])]
    rfl
  have hext : externals handler [] [] (⟨w, ∅⟩ : Scratch σ) = (.ok [], ⟨w, ∅⟩) := by
    simp [externals, Atoms.ofList]
    rfl
  have hadd : Atoms.union [] (Atoms.ofList [a]) = [a] := by
    simp [Atoms.union, Atoms.ofList, ascending, squeeze]
  have hsame : Atoms.union [a] (Atoms.ofList []) = [a] := by
    simp [Atoms.union, Atoms.ofList, ascending, squeeze]
  have hmax : maxAtoms = 99999 + 1 := rfl
  rw [ofSelection, Returns.bind_eq_of_ok hext, instantiate, instantiateUpTo,
    Returns.bind_eq_of_ok hfirst]
  simp only [hadd]
  rw [if_neg (by simp [maxAtoms]), if_neg (by simp), hmax, instantiateUpTo,
    Returns.bind_eq_of_ok hsecond]
  simp only [hsame]
  rw [if_neg (by simp [maxAtoms]), if_pos (by simp)]
  rfl

end Grounding

namespace GroundProgram

variable {σ : Type} {handler : Handler σ} {program : Program} {parts : List Part} {w w' : σ}
  {p : GroundProgram}

theorem ground_eq_ok (h : ground handler program parts w = (.ok p, w')) :
    ∃ selection symbols instances scratch, program.select parts = .ok selection ∧
      Grounding.ofSelection handler selection ⟨w, ∅⟩ = (.ok (symbols, instances), scratch) ∧
      p = ofInstances symbols instances.toList selection.shown ∧
      w' = ((p.report handler).run scratch.world).2 := by
  rw [ground] at h
  split at h
  · cases h
  · next selection hsel =>
    split at h
    · cases h
    · next symbols instances scratch hrun =>
      cases h
      exact ⟨selection, symbols, instances, scratch, hsel, hrun, rfl, rfl⟩

theorem wellFormed_of_ground (h : ground handler program parts w = (.ok p, w')) :
    p.WellFormed := by
  obtain ⟨selection, symbols, instances, scratch, -, hrun, rfl, -⟩ := ground_eq_ok h
  exact wellFormed_ofInstances (Grounding.ofSelection_ascending handler selection _ _ _ hrun)

end GroundProgram

/-!
The rule `{ a }` is grounded in two rounds.
-/

namespace Sample

open Grounding

variable {σ : Type} (handler : Handler σ) (w : σ)

def atom : Symbol := .constant "a"

def rule : Rule := ⟨.choice [.constant "a"], [], default⟩

def parts : List Part := [⟨rootUnit, []⟩]

def onlyMatch : Match := ⟨.empty, []⟩

def onlyInstance : Instance := ⟨.choice, [atom], [], [], []⟩

theorem findMatches_eq (known : List Symbol) (s : Scratch σ) :
    locate rule.span (rule.findMatches (answerOnce handler 0) known) s = (.ok [onlyMatch], s) :=
  rfl

theorem ofMatch_eq (s : Scratch σ) :
    locate rule.span (Instance.ofMatch (answer handler) (answerOnce handler 0) rule onlyMatch) s =
      (.ok onlyInstance, s) :=
  rfl

theorem ofSelection_eq : ofSelection handler ⟨[rule], [], none⟩ ⟨w, ∅⟩ =
    (.ok ([atom], #[onlyInstance]), ⟨w, ∅⟩) :=
  ofSelection_single (findMatches_eq handler _ _) (ofMatch_eq handler _) rfl
    (findMatches_eq handler _ _)

def grounded : GroundProgram := .ofInstances [atom] [onlyInstance] none

end Sample

end AnswerSetTest
