import AnswerSetTest.Proofs.Control
import AnswerSetTest.Proofs.Ground.Rearrangement
import AnswerSetTest.Proofs.GroundProgram.Exchange
import AnswerSetTest.Proofs.GroundProgram.Rounds

/-!
# Order of rules

With a handler whose answers depend on the calls alone, the order of rules, of externals and of
parts changes nothing but the order of the ground rules.
-/

namespace AnswerSetTest

namespace GroundProgram

variable {σ : Type}

variable {handler : Handler σ} {answer : String → List Symbol → Except String Symbol}

/-- A search gives the same result, and its callback the same state. -/
def SearchedAs (p q : GroundProgram) : Prop :=
  ∀ {ω : Type} (onModel : Model → StateM ω Bool) (c : Control) (o : ω),
    let solved : GroundProgram → (Except Failure Summary × Control) × ω := fun p =>
      (Control.solve onModel { c with phase := .grounded p }).run o
    (solved p).1.1 = (solved q).1.1 ∧ (solved p).2 = (solved q).2

theorem Exchanges.searchedAs {p q : GroundProgram} (h : p.Exchanges q) (hp : p.WellFormed)
    (hq : q.WellFormed) : p.SearchedAs q := by
  intro ω onModel c o
  dsimp only
  rw [Control.solve_grounded_eq, Control.solve_grounded_eq, h.undetermined, h.modelsFrom hp hq]
  split
  · exact ⟨rfl, rfl⟩
  · exact ⟨rfl, rfl⟩

/-- The same ground programs up to the order of their rules and of the shown signatures. -/
structure Rearranges (p q : GroundProgram) : Prop where
  symbols : p.symbols = q.symbols
  facts : p.facts = q.facts
  mem_rules : ∀ r, r ∈ p.rules ↔ r ∈ q.rules
  searched : p.SearchedAs q

theorem rearranges_ofInstances {symbols : List Symbol} {is js : List Instance}
    {shown shown' : Option (List Signature)} (hp : symbols.Pairwise (· < ·))
    (h : {i | i ∈ is} = {i | i ∈ js}) (hshown : Option.Rel List.Perm shown shown') :
    (ofInstances symbols is shown).Rearranges (ofInstances symbols js shown') := by
  have hpaired : Paired Instance.Alike {i | i ∈ is} {i | i ∈ js} :=
    h ▸ ⟨fun i hi => ⟨i, hi, .refl i⟩, fun i hi => ⟨i, hi, .refl i⟩⟩
  have hshown' : Option.Rel (fun xs ys => ∀ f, f ∈ xs ↔ f ∈ ys) shown shown' := by
    cases hshown with
    | none => exact .none
    | some hperm => exact .some fun f => hperm.mem_iff
  exact ⟨rfl, facts_eq hp hpaired, mem_rules_congr hp h,
    (exchanges_ofInstances hp hpaired hshown').searchedAs (wellFormed_ofInstances hp)
      (wellFormed_ofInstances hp)⟩

theorem ofSelection_rearranged (h : handler.AnswersBy answer) {s t : Selection}
    (hst : s.Rearranges t) (w w' : σ) :
    SameOutcome Rearranges (ofSelection handler s w).1 (ofSelection handler t w').1 := by
  have hexpands : ∀ symbols made, s.Expands answer symbols made ↔ t.Expands answer symbols made :=
    fun symbols made => ⟨.congr (fun r => hst.rules.mem_iff) fun e => hst.externals.mem_iff,
      .congr (fun r => hst.rules.mem_iff.symm) fun e => hst.externals.mem_iff.symm⟩
  rcases ofSelection_cases h s w with ⟨symbols, is, made, hs, his, hok⟩ | ⟨hnone, fault, herror⟩
  · rcases ofSelection_cases h t w' with ⟨symbols', js, made', ht, hjs, hok'⟩ | ⟨hnone, -⟩
    · obtain ⟨rfl, rfl⟩ := ((hexpands _ _).1 hs).unique ht
      rw [hok, hok']
      exact .ok (rearranges_ofInstances hs.ascending (his.trans hjs.symm) hst.shown)
    · exact absurd ⟨symbols, made, (hexpands _ _).1 hs⟩ hnone
  · rcases ofSelection_cases h t w' with ⟨symbols, js, made, ht, -⟩ | ⟨-, fault', herror'⟩
    · exact absurd ⟨symbols, made, (hexpands _ _).2 ht⟩ hnone
    · rw [herror, herror']
      exact .error

/-- The order of the selected rules and externals and the order of the parts change neither whether
grounding succeeds nor the atoms, the facts, the set of ground rules and the search. -/
theorem ground_order (h : handler.AnswersBy answer) :
    (∀ s t : Selection, s.Rearranges t → ∀ w w', SameOutcome Rearranges
      (ofSelection handler s w).1 (ofSelection handler t w').1) ∧
    ∀ (program : Program) (parts parts' : List Part), parts.Perm parts' → ∀ w w',
      SameOutcome Rearranges (ground handler program parts w).1
        (ground handler program parts' w').1 := by
  refine ⟨fun s t hst w w' => ofSelection_rearranged h hst w w',
    fun program parts parts' hperm w w' => ?_⟩
  have hselect := program.select_perm hperm
  rw [ground_eq_ofSelection, ground_eq_ofSelection]
  generalize program.select parts = selected at hselect ⊢
  generalize program.select parts' = selected' at hselect ⊢
  cases hselect with
  | ok hst => exact ofSelection_rearranged h hst w w'
  | error => exact .error

theorem ground_order_sample :
    let h : Handler Unit := FunctionTable.empty.handler
    let fact : Rule := ⟨.atom (.constant "b"), [], default⟩
    let program : Program :=
      ⟨"sample.lp", [.rule Sample.rule, .unit ⟨"more", [], default⟩, .rule fact]⟩
    h.AnswersBy (fun name _ => .error (FunctionTable.unknown name)) ∧
      SameOutcome Rearranges (ofSelection h ⟨[Sample.rule, fact], [], none⟩ ()).1
        (ofSelection h ⟨[fact, Sample.rule], [], none⟩ ()).1 ∧
      SameOutcome Rearranges (ground h program [⟨rootUnit, []⟩, ⟨"more", []⟩] ()).1
        (ground h program [⟨"more", []⟩, ⟨rootUnit, []⟩] ()).1 := by
  intro h fact program
  have hanswers : h.AnswersBy fun name _ => .error (FunctionTable.unknown name) :=
    fun _ _ _ => rfl
  obtain ⟨hselections, hparts⟩ := ground_order hanswers
  have hrules : Selection.Rearranges ⟨[Sample.rule, fact], [], none⟩
      ⟨[fact, Sample.rule], [], none⟩ := ⟨.swap _ _ _, .refl _, .none⟩
  have hperm : [(⟨rootUnit, []⟩ : Part), ⟨"more", []⟩].Perm [⟨"more", []⟩, ⟨rootUnit, []⟩] :=
    .swap _ _ _
  exact ⟨hanswers, hselections _ _ hrules () (), hparts program _ _ hperm () ()⟩

end GroundProgram

end AnswerSetTest
