import AnswerSetTest.Proofs.Ground.ReorderedSelection
import AnswerSetTest.Proofs.Ground.Selection
import AnswerSetTest.Proofs.GroundProgram.RuleOrder

/-!
# Order of bodies

With a handler whose answers depend on the calls alone, the order of body literals changes neither
the atoms nor the models, as long as it does not change whether the intervals of a rule can be
read. An interval that has a variable as a bound only matches if the variable is bound by then, so
`p(X..1), p(X)` never matches where `p(X), p(X..1)` does.
-/

namespace AnswerSetTest

/-!
The fact `p(1)` and a rule for `a` whose body is a permutation of `p(X..1), X = 1`, or of
`p(X..1), p(X)`.
-/

namespace Sample

def one : Term := .number 1

def fact : Rule := ⟨.atom (.function "p" [one]), [], default⟩

def readInterval : Literal := .atom false (.function "p" [.interval (.variable "X") one])

def readVariable : Literal := .atom false (.function "p" [.variable "X"])

def equation : Literal := .comparison (.variable "X") .eq one

def ruleWith (body : List Literal) : Rule := ⟨.atom (.constant "a"), body, default⟩

def programWith (body : List Literal) : Program :=
  ⟨"bodies.lp", [.rule fact, .rule (ruleWith body)]⟩

def factAtom : Symbol := .function "p" [.number 1]

def factInstance : Instance := ⟨.normal, [factAtom], [], [], []⟩

/-- The variable is bound by the equation before the interval is reached. -/
theorem readable_ruleWith : (ruleWith [readInterval, equation]).Readable := by
  have hknown : Determined [⟨.variable "X", .eq, one⟩] [] "X" :=
    .equation (List.mem_singleton_self _) ⟨rfl, .inl ⟨rfl, rfl⟩, by decide⟩ nofun
  exact ⟨⟨⟨hknown, trivial⟩, trivial⟩, trivial⟩

variable {body body' : List Literal} {i : Instance}

theorem reordered_programWith (h : body.Perm body') :
    (programWith body).Reordered (programWith body') :=
  .cons (.refl _) (.cons (.rule ⟨rfl, h⟩) .nil)

theorem select_programWith (h : (ruleWith body).unpool = [ruleWith body]) :
    (programWith body).select parts = .ok ⟨[fact, ruleWith body], [], none⟩ := by
  have hparts : firstOccurrences parts = parts := by
    simp [parts, firstOccurrences, firstOccurrencesFrom]
  have hselect : (programWith body).select parts =
      .ok ⟨[fact] ++ ((ruleWith body).substitute []).unpool, [], none⟩ := by
    rw [Program.select, hparts]
    rfl
  rw [hselect, Rule.substitute_of_fixes Substitution.fixes_nil, h]
  rfl

theorem fact_lists (known : List Symbol) : fact.Lists unknown known [factInstance] :=
  ⟨[onlyMatch], rfl, .cons rfl .nil⟩

theorem round_fact (h : (ruleWith body).Lists unknown [] []) :
    Round unknown [fact, ruleWith body] [] [factAtom] :=
  .of_lists (.cons (fact_lists []) (.cons h .nil)) (by decide)

theorem expands_of_lists (body : List Literal) (h : (ruleWith body).Lists unknown [] [])
    (h' : (ruleWith body).Lists unknown [factAtom] [i])
    (h'' : (ruleWith body).Lists unknown [atom, factAtom] [i]) (hi : i.head = [atom]) :
    ∃ made, Selection.Expands unknown ⟨[fact, ruleWith body], [], none⟩ [atom, factAtom] made := by
  have hadds : ∀ known, known ⊆ [atom, factAtom] →
      Instance.Adds [factInstance, i] known [atom, factAtom] := fun known hknown =>
    { ascending := by decide
      kept := hknown
      head := by simp [factInstance, hi]
      learnt := by simp [factInstance, hi]
      length_le := by decide }
  have hsecond : Round unknown [fact, ruleWith body] [factAtom] [atom, factAtom] :=
    .of_lists (.cons (fact_lists _) (.cons h' .nil)) (hadds _ (by simp))
  have hthird : Round unknown [fact, ruleWith body] [atom, factAtom] [atom, factAtom] :=
    .of_lists (.cons (fact_lists _) (.cons h'' .nil)) (hadds _ fun _ => id)
  have hexpands : Expands unknown [fact, ruleWith body] (maxAtoms + 1) [] [atom, factAtom] _ :=
    .next (round_fact h) (by decide) (.next hsecond (by decide) (.last hthird))
  exact ⟨_, [], ⟨by simp, .nil, by simp⟩, hexpands⟩

theorem expands_of_lists_nil (body : List Literal) (h : (ruleWith body).Lists unknown [] [])
    (h' : (ruleWith body).Lists unknown [factAtom] []) :
    ∃ made, Selection.Expands unknown ⟨[fact, ruleWith body], [], none⟩ [factAtom] made := by
  have hsecond : Round unknown [fact, ruleWith body] [factAtom] [factAtom] :=
    .of_lists (.cons (fact_lists _) (.cons h' .nil)) (by decide)
  have hexpands : Expands unknown [fact, ruleWith body] (maxAtoms + 1) [] [factAtom] _ :=
    .next (round_fact h) (by decide) (.last hsecond)
  exact ⟨_, [], ⟨by simp, .nil, by simp⟩, hexpands⟩

end Sample

namespace GroundProgram

variable {σ : Type} {handler : Handler σ} {answer : String → List Symbol → Except String Symbol}
  {s t : Selection} {w w' : σ} {p q : GroundProgram}

/-- Selections of interchangeable rules are grounded to programs with the same atoms and facts and
rules that are alike. -/
theorem ofSelection_interchangeable (h : handler.AnswersBy answer)
    (hrules : Paired Rule.Interchangeable {r | r ∈ s.rules} {r | r ∈ t.rules})
    (hs : ∀ r ∈ s.rules, r.PoolFree) (ht : ∀ r ∈ t.rules, r.PoolFree)
    (hexternals : s.externals = t.externals) (hshown : s.shown = t.shown)
    (hp : (ofSelection handler s w).1 = .ok p) (hq : (ofSelection handler t w').1 = .ok q) :
    p.Exchanges q ∧ p.SearchedAs q := by
  obtain ⟨symbols, is, hexpands, rfl⟩ := exists_expands_of_ofSelection h hp
  obtain ⟨symbols', js, hexpands', rfl⟩ := exists_expands_of_ofSelection h hq
  obtain ⟨rfl, hpaired⟩ := hexpands.paired (A := Instance.Alike) (fun _ _ hij => hij.head)
    hexternals (fun _ hsucceeds hsucceeds' =>
      Rule.paired_allMade hrules hs ht hsucceeds hsucceeds') hexpands'
  have hascending := hexpands.ascending
  have hsame : Option.Rel (fun xs ys => ∀ f, f ∈ xs ↔ f ∈ ys) s.shown t.shown := by
    rw [← hshown]
    cases s.shown with
    | none => exact .none
    | some xs => exact .some fun _ => Iff.rfl
  have hexchanges := exchanges_ofInstances hascending hpaired hsame
  exact ⟨hexchanges,
    hexchanges.searchedAs (wellFormed_ofInstances hascending) (wellFormed_ofInstances hascending)⟩

/-- If body literals are reordered such that each selected rule can read its intervals in both
orders or in neither, and both programs are grounded, then they have the same atoms and facts, and
searches present the same models. -/
theorem ground_reordered (h : handler.AnswersBy answer) {program program' : Program}
    (hreordered : program.Reordered program') {parts : List Part}
    (hrules : ∀ s t, program.select parts = .ok s → program'.select parts = .ok t →
      Paired Rule.Interchangeable {r | r ∈ s.rules} {r | r ∈ t.rules})
    (hp : (ground handler program parts w).1 = .ok p)
    (hq : (ground handler program' parts w').1 = .ok q) :
    p.symbols = q.symbols ∧ p.facts = q.facts ∧ p.SearchedAs q := by
  have hselect := hreordered.select_reordered parts
  have hpoolFree : ∀ s, program.select parts = .ok s → ∀ r ∈ s.rules, r.PoolFree :=
    fun _ => Program.poolFree_select
  have hpoolFree' : ∀ s, program'.select parts = .ok s → ∀ r ∈ s.rules, r.PoolFree :=
    fun _ => Program.poolFree_select
  rw [ground_eq_ofSelection] at hp hq
  generalize program.select parts = selected at hselect hrules hpoolFree hp
  generalize program'.select parts = selected' at hselect hrules hpoolFree' hq
  cases hselect with
  | error => cases hp
  | @ok s t hst =>
    obtain ⟨hexchanges, hsearched⟩ := ofSelection_interchangeable h (hrules s t rfl rfl)
      (hpoolFree s rfl) (hpoolFree' t rfl) hst.externals hst.shown hp hq
    exact ⟨hexchanges.symbols, hexchanges.facts, hsearched⟩

theorem ground_reordered_sample :
    let h : Handler Unit := FunctionTable.empty.handler
    let p := Sample.programWith [Sample.readInterval, Sample.equation]
    let q := Sample.programWith [Sample.equation, Sample.readInterval]
    h.AnswersBy Sample.unknown ∧ p.Reordered q ∧
      (∀ s t, p.select Sample.parts = .ok s → q.select Sample.parts = .ok t →
        Paired Rule.Interchangeable {r | r ∈ s.rules} {r | r ∈ t.rules}) ∧
      (Sample.ruleWith [Sample.readInterval, Sample.equation]).Readable ∧
      ∃ g g', (ground h p Sample.parts ()).1 = .ok g ∧ (ground h q Sample.parts ()).1 = .ok g' ∧
        Sample.atom ∈ g.symbols ∧ g.symbols = g'.symbols ∧ g.facts = g'.facts ∧
        g.SearchedAs g' := by
  intro h p q
  have hanswers : h.AnswersBy Sample.unknown := fun _ _ _ => rfl
  have hreordered : p.Reordered q := Sample.reordered_programWith (.swap _ _ _)
  have hselect : p.select Sample.parts = _ := Sample.select_programWith rfl
  have hselect' : q.select Sample.parts = _ := Sample.select_programWith rfl
  have hrules : ∀ s t, p.select Sample.parts = .ok s → q.select Sample.parts = .ok t →
      Paired Rule.Interchangeable {r | r ∈ s.rules} {r | r ∈ t.rules} := by
    intro s t hs ht
    rw [hselect, Except.ok.injEq] at hs
    rw [hselect', Except.ok.injEq] at ht
    subst hs ht
    have hfact : Sample.fact.Interchangeable Sample.fact := ⟨⟨rfl, .refl _⟩, Iff.rfl⟩
    have hrule : (Sample.ruleWith [Sample.readInterval, Sample.equation]).Interchangeable
        (Sample.ruleWith [Sample.equation, Sample.readInterval]) := ⟨⟨rfl, .swap _ _ _⟩, Iff.rfl⟩
    exact ⟨by simp [hfact, hrule], by simp [hfact, hrule]⟩
  obtain ⟨made, hexpands⟩ := Sample.expands_of_lists [Sample.readInterval, Sample.equation]
    ⟨_, rfl, .nil⟩ ⟨_, rfl, .cons rfl .nil⟩ ⟨_, rfl, .cons rfl .nil⟩ rfl
  obtain ⟨made', hexpands'⟩ :=
    Sample.expands_of_lists [Sample.equation, Sample.readInterval]
      ⟨_, rfl, .nil⟩ ⟨_, rfl, .cons rfl .nil⟩ ⟨_, rfl, .cons rfl .nil⟩ rfl
  obtain ⟨is, -, hg⟩ := exists_ground_eq_ok hanswers hselect hexpands ()
  obtain ⟨is', -, hg'⟩ := exists_ground_eq_ok hanswers hselect' hexpands' ()
  exact ⟨hanswers, hreordered, hrules, Sample.readable_ruleWith, _, _, hg, hg',
    List.mem_cons_self, ground_reordered hanswers hreordered hrules hg hg'⟩

/-- If the interval comes before the literal that binds its variable, the rule is lost. -/
theorem ground_reordered_loses_atom :
    let h : Handler Unit := FunctionTable.empty.handler
    let p := Sample.programWith [Sample.readInterval, Sample.readVariable]
    let q := Sample.programWith [Sample.readVariable, Sample.readInterval]
    h.AnswersBy Sample.unknown ∧ p.Reordered q ∧
      ∃ g g', (ground h p Sample.parts ()).1 = .ok g ∧ (ground h q Sample.parts ()).1 = .ok g' ∧
        g.symbols = [Sample.factAtom] ∧ g'.symbols = [Sample.atom, Sample.factAtom] := by
  intro h p q
  have hanswers : h.AnswersBy Sample.unknown := fun _ _ _ => rfl
  have hselect : p.select Sample.parts = _ := Sample.select_programWith rfl
  have hselect' : q.select Sample.parts = _ := Sample.select_programWith rfl
  obtain ⟨made, hexpands⟩ :=
    Sample.expands_of_lists_nil [Sample.readInterval, Sample.readVariable]
      ⟨_, rfl, .nil⟩ ⟨_, rfl, .nil⟩
  obtain ⟨made', hexpands'⟩ :=
    Sample.expands_of_lists [Sample.readVariable, Sample.readInterval]
      ⟨_, rfl, .nil⟩ ⟨_, rfl, .cons rfl .nil⟩ ⟨_, rfl, .cons rfl .nil⟩ rfl
  obtain ⟨is, -, hg⟩ := exists_ground_eq_ok hanswers hselect hexpands ()
  obtain ⟨is', -, hg'⟩ := exists_ground_eq_ok hanswers hselect' hexpands' ()
  exact ⟨hanswers, Sample.reordered_programWith (.swap _ _ _), _, _, hg, hg', rfl, rfl⟩

end GroundProgram

end AnswerSetTest
