import AnswerSetTest.FunctionTable
import AnswerSetTest.Proofs.Ground.Selection
import AnswerSetTest.Proofs.GroundProgram.Exchange
import AnswerSetTest.Proofs.GroundProgram.Preservation

/-!
# Groundings in rounds

With a handler whose answers depend on the calls alone, a grounding succeeds just if each round
does, and the ground program is made of the atoms and instances of the rounds. Rounds whose
instances are listed can be followed one by one.
-/

namespace AnswerSetTest

variable {answer : String → List Symbol → Except String Symbol}

section Rounds

variable {known known' symbols : List Symbol} {rules : List Rule} {r : Rule} {is : List Instance}
  {iss : List (List Instance)} {i : Instance} {limit : Nat}

theorem Expands.ascending {made : Set Instance}
    (h : Expands answer rules limit known symbols made) : symbols.Pairwise (· < ·) := by
  induction h with
  | last h => exact h.ascending
  | next _ _ _ ih => exact ih

theorem Selection.Expands.ascending {s : Selection} {made : Set Instance}
    (h : s.Expands answer symbols made) : symbols.Pairwise (· < ·) := by
  obtain ⟨known, -, hexpands⟩ := h
  exact AnswerSetTest.Expands.ascending hexpands

/-- The instances of a rule over known atoms, one for each match. -/
def Rule.Lists (answer : String → List Symbol → Except String Symbol) (known : List Symbol)
    (r : Rule) (is : List Instance) : Prop :=
  ∃ found, r.matchesBy answer known = .ok found ∧
    List.Forall₂ (fun x i => Instance.ofMatchBy answer r x = .ok i) found is

theorem Rule.Lists.makes_iff (h : r.Lists answer known is) :
    r.Makes answer known i ↔ i ∈ is := by
  obtain ⟨found, hfound, his⟩ := h
  rw [Rule.makes_iff hfound]
  obtain ⟨hleft, hright⟩ := exists_mem_of_forall₂ his
  constructor
  · rintro ⟨x, hx, hxi⟩
    obtain ⟨j, hj, hxj⟩ := hleft x hx
    rw [hxi, Except.ok.injEq] at hxj
    exact hxj ▸ hj
  · exact fun hi => hright i hi

theorem Rule.Lists.succeeds (h : r.Lists answer known is) : r.Succeeds answer known := by
  obtain ⟨found, hfound, his⟩ := h
  refine ⟨found, hfound, fun x hx => ?_⟩
  obtain ⟨i, -, hi⟩ := (exists_mem_of_forall₂ his).1 x hx
  exact ⟨i, hi⟩

theorem Rule.allMade_of_lists (h : List.Forall₂ (Rule.Lists answer known) rules iss) :
    Rule.allMade answer rules known = {i | i ∈ iss.flatten} := by
  obtain ⟨hleft, hright⟩ := exists_mem_of_forall₂ h
  refine Set.ext fun i => Iff.trans ?_ List.mem_flatten.symm
  constructor
  · rintro ⟨r, hr, hi⟩
    obtain ⟨is, his, hlists⟩ := hleft r hr
    exact ⟨is, his, hlists.makes_iff.1 hi⟩
  · rintro ⟨is, his, hi⟩
    obtain ⟨r, hr, hlists⟩ := hright is his
    exact ⟨r, hr, hlists.makes_iff.2 hi⟩

/-- The instances of a round add their heads to the known atoms. -/
structure Instance.Adds (is : List Instance) (known known' : List Symbol) : Prop where
  ascending : known'.Pairwise (· < ·)
  kept : ∀ s ∈ known, s ∈ known'
  head : ∀ i ∈ is, ∀ s ∈ i.head, s ∈ known'
  learnt : ∀ s ∈ known', s ∈ known ∨ ∃ i ∈ is, s ∈ i.head
  length_le : known'.length ≤ maxAtoms

instance : Decidable (Instance.Adds is known known') :=
  decidable_of_iff (known'.Pairwise (· < ·) ∧ (∀ s ∈ known, s ∈ known') ∧
      (∀ i ∈ is, ∀ s ∈ i.head, s ∈ known') ∧
      (∀ s ∈ known', s ∈ known ∨ ∃ i ∈ is, s ∈ i.head) ∧ known'.length ≤ maxAtoms)
    ⟨fun h => ⟨h.1, h.2.1, h.2.2.1, h.2.2.2.1, h.2.2.2.2⟩,
      fun h => ⟨h.ascending, h.kept, h.head, h.learnt, h.length_le⟩⟩

theorem Round.of_lists (h : List.Forall₂ (Rule.Lists answer known) rules iss)
    (hadds : Instance.Adds iss.flatten known known') : Round answer rules known known' where
  ascending := hadds.ascending
  mem_iff s := by
    rw [Rule.allMade_of_lists h]
    constructor
    · exact hadds.learnt s
    · rintro (hs | ⟨i, hi, hs⟩)
      · exact hadds.kept s hs
      · exact hadds.head i hi s hs
  succeeds r hr := by
    obtain ⟨is, -, hlists⟩ := (exists_mem_of_forall₂ h).1 r hr
    exact hlists.succeeds
  length_le := hadds.length_le

theorem Expands.last_of_lists (h : List.Forall₂ (Rule.Lists answer known) rules iss)
    (hround : Round answer rules known known) :
    Expands answer rules (limit + 1) known known {i | i ∈ iss.flatten} :=
  Rule.allMade_of_lists h ▸ .last hround

theorem Expands.next_of_lists (h : List.Forall₂ (Rule.Lists answer known) rules iss)
    (hround : Round answer rules known known') (hne : known'.length ≠ known.length)
    (hrest : Expands answer rules limit known' symbols {i | i ∈ is}) :
    Expands answer rules (limit + 1) known symbols {i | i ∈ iss.flatten ++ is} := by
  have hmade : {i | i ∈ iss.flatten ++ is} = Rule.allMade answer rules known ∪ {i | i ∈ is} := by
    rw [Rule.allMade_of_lists h]
    exact Set.ext fun i => List.mem_append
  rw [hmade]
  exact .next hround hne hrest

end Rounds

namespace GroundProgram

variable {σ : Type} {handler : Handler σ} {s : Selection} {w : σ} {p : GroundProgram}

/-- What grounding does with the statements that it selects. -/
def ofSelection (handler : Handler σ) (s : Selection) :
    ExceptT GroundFault (StateM σ) GroundProgram := fun world =>
  match (Grounding.ofSelection handler s).run.run ⟨world, ∅⟩ with
  | (.error fault, scratch) => (.error fault, scratch.world)
  | (.ok (symbols, instances), scratch) =>
    let p := ofInstances symbols instances.toList s.shown
    (.ok p, ((p.report handler).run scratch.world).2)

theorem ground_eq_ofSelection (handler : Handler σ) (program : Program) (parts : List Part)
    (w : σ) : ground handler program parts w =
      match program.select parts with
      | .error fault => (.error fault, w)
      | .ok s => ofSelection handler s w := rfl

/-- With fixed answers the success of a grounding, its atoms and its instances are determined. -/
theorem ofSelection_cases (h : handler.AnswersBy answer) (s : Selection) (w : σ) :
    (∃ symbols instances made, s.Expands answer symbols made ∧ {i | i ∈ instances} = made ∧
      (ofSelection handler s w).1 = .ok (ofInstances symbols instances s.shown)) ∨
    (¬ ∃ symbols made, s.Expands answer symbols made) ∧
      ∃ fault, (ofSelection handler s w).1 = .error fault := by
  have hyields := (Grounding.yields_ofSelection h s ⟨w, ∅⟩ (Scratch.consistent_empty w)).2
  cases hrun : Grounding.ofSelection handler s ⟨w, ∅⟩ with
  | mk r scratch =>
    have hrun' : (Grounding.ofSelection handler s).run.run ⟨w, ∅⟩ = (r, scratch) := hrun
    rw [hrun] at hyields
    cases r with
    | error fault =>
      refine .inr ⟨hyields, fault, ?_⟩
      rw [ofSelection, hrun']
    | ok result =>
      obtain ⟨symbols, instances⟩ := result
      obtain ⟨-, made, hexpands, hmem⟩ := hyields
      refine .inl ⟨symbols, instances.toList, made, hexpands, ?_, ?_⟩
      · exact Set.ext fun i => Array.mem_toList_iff.trans (hmem i)
      · rw [ofSelection, hrun']

theorem exists_expands_of_ofSelection (h : handler.AnswersBy answer)
    (hp : (ofSelection handler s w).1 = .ok p) : ∃ symbols instances,
      s.Expands answer symbols {i | i ∈ instances} ∧ p = ofInstances symbols instances s.shown := by
  rcases ofSelection_cases h s w with ⟨symbols, instances, made, hs, rfl, hok⟩ | ⟨-, fault, herror⟩
  · rw [hok, Except.ok.injEq] at hp
    exact ⟨symbols, instances, hs, hp.symm⟩
  · rw [herror] at hp
    cases hp

theorem exists_ground_eq_ok (h : handler.AnswersBy answer) {program : Program} {parts : List Part}
    (hselect : program.select parts = .ok s) {symbols : List Symbol} {made : Set Instance}
    (hs : s.Expands answer symbols made) (w : σ) :
    ∃ instances, {i | i ∈ instances} = made ∧
      (ground handler program parts w).1 = .ok (ofInstances symbols instances s.shown) := by
  rw [ground_eq_ofSelection, hselect]
  rcases ofSelection_cases h s w with ⟨symbols', instances, made', hs', hmade, hok⟩ | ⟨hnone, -⟩
  · obtain ⟨rfl, rfl⟩ := hs.unique hs'
    exact ⟨instances, hmade, hok⟩
  · exact absurd ⟨symbols, made, hs⟩ hnone

end GroundProgram

/-!
The external `f` and the rules `e(1..2)`, `{ a }`, `b(X) :- e(X), not a, X < 2`,
`c ; d :- a, e(2)` and `:- d, { e(X) ; a } > 2`. If `a` is chosen, `d` is not, since the count
is three then; otherwise `b(1)` follows. The facts about `e` are taken out of all bodies.
-/

namespace Sample

def unknown : String → List Symbol → Except String Symbol :=
  fun name _ => .error (FunctionTable.unknown name)

namespace Mixed

def rules : List Rule :=
  let a : Term := .constant "a"
  let d : Term := .constant "d"
  let e (t : Term) : Term := .function "e" [t]
  let x : Term := .variable "X"
  [⟨.atom (e (.interval (.number 1) (.number 2))), [], default⟩,
   ⟨.choice [a], [], default⟩,
   ⟨.atom (.function "b" [x]), [.atom false (e x), .atom true a, .comparison x .lt (.number 2)],
     default⟩,
   ⟨.disjunction [.constant "c", d], [.atom false a, .atom false (e (.number 2))], default⟩,
   ⟨.falsity, [.atom false d, .count [e x, a] .gt (.number 2)], default⟩]

def program : Program := ⟨"mixed.lp", rules.map .rule ++ [.external (.constant "f") default]⟩

def selection : Selection := ⟨rules, [(.constant "f", default)], none⟩

def one : Symbol := .function "e" [.number 1]

def two : Symbol := .function "e" [.number 2]

def low : Symbol := .function "b" [.number 1]

def symbols : List Symbol :=
  [.constant "a", low, .constant "c", .constant "d", one, two, .constant "f"]

def count : PendingCount :=
  ⟨[.function "e" [.variable "X"], .constant "a"], .empty, .gt, .number 2⟩

def instances : List Instance :=
  [⟨.normal, [one, two], [], [], []⟩,
   ⟨.choice, [.constant "a"], [], [], []⟩,
   ⟨.normal, [low], [one], [.constant "a"], []⟩,
   ⟨.disjunction, [.constant "c", .constant "d"], [.constant "a", two], [], []⟩,
   ⟨.falsity, [], [.constant "d"], [], [count]⟩]

theorem plain : ∀ r ∈ rules, r.Plain := by decide

theorem select_eq : program.select parts = .ok selection := by
  have hexternals : ∀ e ∈ [((.constant "f" : Term), (default : Span))], e.1.Plain := by
    intro e he
    rw [List.mem_singleton.1 he]
    exact .function "f" (by simp)
  exact Program.select_plain "mixed.lp" plain hexternals

/-- The atoms that are known after the external, and after the first round. -/
def first : List Symbol := [.constant "f"]

def second : List Symbol := [.constant "a", one, two, .constant "f"]

theorem lists_first : List.Forall₂ (Rule.Lists unknown first) rules
    [instances.take 1, (instances.drop 1).take 1, [], [], []] :=
  .cons ⟨_, rfl, .cons rfl .nil⟩ <| .cons ⟨_, rfl, .cons rfl .nil⟩ <|
    .cons ⟨_, rfl, .nil⟩ <| .cons ⟨_, rfl, .nil⟩ <| .cons ⟨_, rfl, .nil⟩ .nil

theorem lists_second : List.Forall₂ (Rule.Lists unknown second) rules
    [instances.take 1, (instances.drop 1).take 1, (instances.drop 2).take 1,
      (instances.drop 3).take 1, []] :=
  .cons ⟨_, rfl, .cons rfl .nil⟩ <| .cons ⟨_, rfl, .cons rfl .nil⟩ <|
    .cons ⟨_, rfl, .cons rfl .nil⟩ <| .cons ⟨_, rfl, .cons rfl .nil⟩ <| .cons ⟨_, rfl, .nil⟩ .nil

theorem lists_last : List.Forall₂ (Rule.Lists unknown symbols) rules
    [instances.take 1, (instances.drop 1).take 1, (instances.drop 2).take 1,
      (instances.drop 3).take 1, instances.drop 4] :=
  .cons ⟨_, rfl, .cons rfl .nil⟩ <| .cons ⟨_, rfl, .cons rfl .nil⟩ <|
    .cons ⟨_, rfl, .cons rfl .nil⟩ <| .cons ⟨_, rfl, .cons rfl .nil⟩ <|
    .cons ⟨_, rfl, .cons rfl .nil⟩ .nil

theorem declares_first : Declares unknown selection.externals first where
  succeeds e he := by
    rw [List.mem_singleton.1 he]
    exact ⟨first, rfl⟩
  ascending := List.pairwise_singleton _ _
  mem_iff s := by
    constructor
    · exact fun hs => ⟨_, List.mem_singleton_self _, first, rfl, hs⟩
    · rintro ⟨e, he, values, hvalues, hs⟩
      rw [List.mem_singleton.1 he] at hvalues
      cases hvalues
      exact hs

/-- Two rounds derive atoms, and the next one is the last. -/
theorem expands : selection.Expands unknown symbols {i | i ∈ instances} := by
  have hround : Round unknown rules first second := .of_lists lists_first (by decide)
  have hround' : Round unknown rules second symbols := .of_lists lists_second (by decide)
  have hround'' : Round unknown rules symbols symbols := .of_lists lists_last (by decide)
  have hexpands : Expands unknown rules (maxAtoms + 1) first symbols {i | i ∈ _} :=
    .next_of_lists lists_first hround (by decide) <|
      .next_of_lists lists_second hround' (by decide) <| .last_of_lists lists_last hround''
  have hmade : {i | i ∈ instances.take 2 ++ (instances.take 4 ++ instances)} =
      {i | i ∈ instances} := by
    ext i
    constructor
    · intro hi
      rcases List.mem_append.1 hi with hi | hi
      · exact List.mem_of_mem_take hi
      · exact (List.mem_append.1 hi).elim List.mem_of_mem_take id
    · exact fun hi => List.mem_append_right _ (List.mem_append_right _ hi)
  rw [← hmade]
  exact ⟨first, declares_first, hexpands⟩

theorem known : ∀ i ∈ instances, i.Known symbols := by
  have h : ∀ i ∈ instances, (∀ s ∈ i.head, s ∈ symbols) ∧ ∀ s ∈ i.positives, s ∈ symbols := by
    decide
  exact fun i hi => ⟨(h i hi).1, (h i hi).2⟩

theorem isAnswerSetBy_iff {A : Finset Symbol} :
    Instance.IsAnswerSetBy PendingCount.HoldsAmong {i | i ∈ instances} A ↔
      A = {low, one, two} ∨ A = {.constant "a", .constant "c", one, two} := by
  have hall : ∀ A ∈ symbols.toFinset.powerset,
      (Instance.IsAnswerSetBy PendingCount.HoldsAmong {i | i ∈ instances} A ↔
        A = {low, one, two} ∨ A = {.constant "a", .constant "c", one, two}) := by
    decide +kernel
  constructor
  · intro hA
    have hsub := GroundProgram.subset_of_isAnswerSetBy known hA
    exact (hall A (Finset.mem_powerset.2 fun s hs => List.mem_toFinset.2 (hsub s hs))).1 hA
  · rintro (rfl | rfl)
    · exact (hall _ (by decide)).2 (.inl rfl)
    · exact (hall _ (by decide)).2 (.inr rfl)

/-- The ground rules, in which no body has a fact. -/
def groundRules : List GroundRule :=
  [.fact 5, .fact 6, ⟨.choice, [1], [], [], []⟩, ⟨.normal, [2], [], [1], []⟩,
   ⟨.disjunction, [3, 4], [1], [], []⟩, ⟨.falsity, [], [4], [], [⟨[1, 5, 6], .gt, .number 2⟩]⟩]

theorem rulesOf_eq : GroundProgram.rulesOf symbols instances =
    [.fact 5, .fact 6, ⟨.choice, [1], [], [], []⟩, ⟨.normal, [2], [5], [1], []⟩,
     ⟨.disjunction, [3, 4], [1, 6], [], []⟩,
     ⟨.falsity, [], [4], [], [⟨[1, 5, 6], .gt, .number 2⟩]⟩] := by
  have hnumbers : ∀ {ss as}, List.Forall₂ (Numbered symbols) ss as →
      (Numbering.ofSymbols symbols).numbers ss = as :=
    Numbering.numbers_eq_of_forall₂ (by decide)
  have number : ∀ {s a}, (s, a) ∈ symbols.zipIdx 1 → Numbered symbols s a := id
  have ha : Numbered symbols (.constant "a") 1 := number (by decide)
  have hlow : Numbered symbols low 2 := number (by decide)
  have hc : Numbered symbols (.constant "c") 3 := number (by decide)
  have hd : Numbered symbols (.constant "d") 4 := number (by decide)
  have hone : Numbered symbols one 5 := number (by decide)
  have htwo : Numbered symbols two 6 := number (by decide)
  simp only [GroundProgram.rulesOf, instances, List.flatMap_cons, List.flatMap_nil,
    GroundRule.ofInstance, hnumbers .nil, hnumbers (.cons ha .nil), hnumbers (.cons hlow .nil),
    hnumbers (.cons hd .nil), hnumbers (.cons hone .nil),
    hnumbers (.cons hone (.cons htwo .nil)), hnumbers (.cons hc (.cons hd .nil)),
    hnumbers (.cons ha (.cons htwo .nil))]
  rfl

theorem rules_eq : (GroundProgram.ofInstances symbols instances none).rules = groundRules := by
  let p := GroundProgram.ofInstances symbols instances none
  let facts := #[false, false, false, false, false, true, true, false]
  have hfacts : p.facts = facts := by
    change Clause.leastModel _ ((GroundProgram.rulesOf symbols instances).filterMap _) = _
    rw [rulesOf_eq]
    rfl
  have hisFact : p.isFact = (facts.getD · false) :=
    funext fun a => by rw [GroundProgram.isFact, hfacts]
  change firstOccurrences ((GroundProgram.rulesOf symbols instances).filterMap
    (GroundRule.simplify? p.isFact)) = _
  rw [firstOccurrences_eq_eraseDups, rulesOf_eq, hisFact]
  simp only [List.filterMap_cons, List.filterMap_nil, GroundRule.simplify?, GroundRule.fact]
  simp [GroundRule.sortIds, ascending, squeeze, facts]
  rfl

structure Grounds (p : GroundProgram) : Prop where
  wellFormed : p.WellFormed
  symbols : p.symbols = Mixed.symbols
  shown : p.shown = none
  rules : p.rules.Perm groundRules
  answerSets : ∀ A : Finset Symbol, (∃ I, p.IsAnswerSet I ∧ p.trueSymbols I = A) ↔
    A = {low, one, two} ∨ A = {.constant "a", .constant "c", one, two}

theorem exists_ground {σ : Type} {handler : Handler σ} (h : handler.AnswersBy unknown) (w : σ) :
    ∃ p, (GroundProgram.ground handler program parts w).1 = .ok p ∧ Grounds p := by
  obtain ⟨is, hmade, hok⟩ := GroundProgram.exists_ground_eq_ok h select_eq expands w
  have hp : symbols.Pairwise (· < ·) := expands.ascending
  have hmem : ∀ i, i ∈ is ↔ i ∈ instances := fun i => Set.ext_iff.1 hmade i
  refine ⟨_, hok, GroundProgram.wellFormed_ofInstances hp, rfl, rfl, ?_, fun A => ?_⟩
  · have hrules : ∀ r, r ∈ (GroundProgram.ofInstances symbols is none).rules ↔
        r ∈ (GroundProgram.ofInstances symbols instances none).rules :=
      GroundProgram.mem_rules_congr hp hmade
    rw [← rules_eq]
    apply (List.perm_ext_iff_of_nodup _ _).2 hrules
    · exact nodup_firstOccurrences _
    · exact nodup_firstOccurrences _
  · rw [← isAnswerSetBy_iff, ← hmade]
    exact GroundProgram.exists_isAnswerSet_iff hp (fun i hi => known i ((hmem i).1 hi))
      fun I B hrep i _ c _ => PendingCount.holds_resolve_iff_holdsAmong hrep hp

/-- Two models: of the atoms on which they differ, `c` is the last. -/
def models : List Model :=
  [⟨1, [low, one, two], [low, one, two]⟩,
   ⟨2, [.constant "a", .constant "c", one, two], [.constant "a", .constant "c", one, two]⟩]

theorem Grounds.modelsFrom_eq {p : GroundProgram} (h : Grounds p) {sets : List Interpretation}
    (hmem : ∀ I, I ∈ sets ↔ p.IsAnswerSet I)
    (hsets : (p.modelsFrom 1 sets).Pairwise Model.Precedes) : p.modelsFrom 1 sets = models := by
  have hall : ∀ A, A ∈ [{low, one, two}, {.constant "a", .constant "c", one, two}] ↔
      ∃ I ∈ sets, p.trueSymbols I = A := by
    intro A
    rw [List.mem_pair, ← h.answerSets A]
    exact exists_congr fun I => and_congr_left fun _ => (hmem I).symm
  rw [GroundProgram.modelsFrom_eq_of_sets h.wellFormed h.shown hall hsets (by decide), h.symbols]
  rfl

end Mixed

end Sample

end AnswerSetTest
