import AnswerSetTest.Resolution
import AnswerSetTest.Proofs.Ground.Rearrangement
import AnswerSetTest.Proofs.Registry

/-!
# Resolved parts

A registry reads the parameters of a unit off its only declaration, and a selection off the first
one of its name. They agree, so the parts that are resolved for a unit can be selected: the root
part, the unit's own part, and what its declaration depends on, each once.
-/

namespace AnswerSetTest

open Registry (Registers)

def Dependency.part (e : Dependency) : Part := ⟨e.target, e.args⟩

section

variable {isTest : String → Bool} {p : Program} {us : List ProgramUnit} {r : Registry}
  {u : ProgramUnit} {e : Dependency} {part : Part} {parts : List Part}

/-- A registered unit has the parameters that a selection reads off the program. -/
theorem Registry.Registers.parametersOf_eq
    (h : Registers isTest p.sourceName p.declarations us r) (hu : u ∈ r.units) :
    p.parametersOf u.name = u.parameters := by
  unfold Program.parametersOf
  rcases h.exists_declaration hu with rfl | ⟨d, hd, hname, hdu⟩
  · exact if_pos rfl
  · have hud := ProgramUnit.name_of_declaration hdu
    rw [if_neg (hud ▸ hname)]
    cases hfind : p.declarations.find? fun d => d.name == u.name with
    | none => exact absurd (List.find?_eq_none.1 hfind d hd) (by simp [hud])
    | some d' =>
      -- the first declaration of the name is registered, and so it gives the same unit
      have hd' : d'.name = u.name := by simpa using List.find?_some hfind
      have hmem : d' ∈ p.declarations.filter fun d => d.name ≠ rootUnit :=
        List.mem_filter.2 ⟨List.mem_of_find?_eq_some hfind, by simp [hd', hud, hname]⟩
      obtain ⟨v, hv, hdv⟩ := (exists_mem_of_forall₂ h.declared).1 d' hmem
      have hvu : v.name = u.name := (ProgramUnit.name_of_declaration hdv).trans hd'
      have hvmem : v ∈ r.units := h.units ▸ List.mem_cons_of_mem _ hv
      obtain rfl := List.inj_on_of_nodup_map h.nodup hvmem hu hvu
      exact (ProgramUnit.parameters_of_declaration hdv).symm

namespace ProgramUnit

theorem dependencyPart_eq_ok (h : dependencyPart r u e = .ok part) :
    part = e.part ∧ ∃ target, r.get? e.target = some target ∧ target.name = e.target ∧
      target.parameters.length = e.args.length := by
  unfold dependencyPart at h
  cases hget : r.get? e.target with
  | none =>
    rw [hget] at h
    cases h
  | some target =>
    rw [hget] at h
    have hname : target.name = e.target := by simpa using List.find?_some hget
    by_cases hlength : target.parameters.length = e.args.length
    · simp only [hlength, ne_eq, not_true_eq_false, if_false] at h
      cases h
      exact ⟨by rw [Dependency.part, hname], target, rfl, hname, hlength⟩
    · simp only [hlength, ne_eq, not_false_eq_true, if_true] at h
      cases h

theorem resolve_eq_ok (h : u.resolve r = .ok parts) :
    parts = (rootPart :: u.ownPart :: u.dependencies.map Dependency.part).eraseDups ∧
      ∀ e ∈ u.dependencies, ∃ target, r.get? e.target = some target ∧ target.name = e.target ∧
        target.parameters.length = e.args.length := by
  unfold resolve at h
  cases hs : u.dependencies.mapM (dependencyPart r u) with
  | error f =>
    rw [hs] at h
    cases h
  | ok others =>
    rw [hs] at h
    cases h
    have hparts := forall₂_of_mapM_eq_ok hs
    have hothers : u.dependencies.map Dependency.part = others := by
      rw [← List.forall₂_eq_eq_eq, List.forall₂_map_left_iff]
      exact hparts.imp fun _ _ he => (dependencyPart_eq_ok he).1.symm
    refine ⟨by rw [hothers, firstOccurrences_eq_eraseDups], fun e he => ?_⟩
    obtain ⟨part, -, hpart⟩ := (exists_mem_of_forall₂ hparts).1 e he
    exact (dependencyPart_eq_ok hpart).2

end ProgramUnit

theorem Registry.Registers.takes (h : Registers isTest p.sourceName p.declarations us r)
    (hu : u ∈ r.units) (hr : u.resolve r = .ok parts) (hpart : part ∈ parts) : p.Takes part := by
  obtain ⟨rfl, hdependencies⟩ := ProgramUnit.resolve_eq_ok hr
  rw [List.mem_eraseDups, List.mem_cons, List.mem_cons, List.mem_map] at hpart
  unfold Program.Takes
  rcases hpart with rfl | rfl | ⟨e, he, rfl⟩
  · rfl
  · exact (congrArg List.length (h.parametersOf_eq hu)).trans (List.length_map _).symm
  · obtain ⟨target, hget, hname, hlength⟩ := hdependencies e he
    have htarget : target ∈ r.units := List.mem_of_find?_eq_some hget
    rw [Dependency.part, ← hname, h.parametersOf_eq htarget]
    exact hlength

theorem Program.select_of_takes (h : ∀ part ∈ parts, p.Takes part) :
    ∃ selection, p.select parts = .ok selection := by
  rcases p.foldlM_selectPart (firstOccurrences parts) .empty with
    ⟨-, hok⟩ | ⟨⟨part, hpart, hnot⟩, -⟩
  · exact ⟨_, hok⟩
  · exact absurd (h part (mem_firstOccurrences.1 hpart)) hnot

end

namespace ProgramUnit

/-- The parts of a unit of a program are the root part, the unit's own part and what its
declaration depends on, in this order and each once, and they can be selected. -/
theorem resolve_agrees {isTest : String → Bool} {p : Program} {r : Registry} {u : ProgramUnit}
    {parts : List Part} (hr : Registry.ofProgram isTest p = .ok r) (hu : u ∈ r.units)
    (h : u.resolve r = .ok parts) :
    ∃ declared : List Part,
      (u = .root p.sourceName ∧ declared = [] ∨
        ∃ d ∈ p.declarations, d.name ≠ rootUnit ∧ ofDeclaration p.sourceName d = .ok u ∧
          List.Forall₂ (fun q part => part.name = q.name ∧ Term.values? q.args = some part.args)
            d.parameters declared) ∧
      parts = (rootPart :: u.ownPart :: declared).eraseDups ∧
      parts.Nodup ∧
      parts.head? = some rootPart ∧
      (∀ part, part ∈ parts ↔ part = rootPart ∨ part = u.ownPart ∨ part ∈ declared) ∧
      ∃ selection, p.select parts = .ok selection := by
  obtain ⟨us, hregisters⟩ := Registers.of_ofProgram hr
  obtain ⟨hparts, -⟩ := resolve_eq_ok h
  refine ⟨u.dependencies.map Dependency.part, ?_, hparts, ?_, ?_, fun part => ?_,
    p.select_of_takes fun part hpart => hregisters.takes hu h hpart⟩
  · refine (hregisters.exists_declaration hu).imp ?_ ?_
    · rintro rfl
      exact ⟨rfl, rfl⟩
    · rintro ⟨d, hd, hname, hdu⟩
      refine ⟨d, hd, hname, hdu, ?_⟩
      rw [List.forall₂_map_right_iff]
      exact dependencies_of_declaration hdu
  · rw [hparts]
    exact nodup_eraseDups _
  · rw [hparts, List.eraseDups_cons]
    rfl
  · rw [hparts, List.mem_eraseDups, List.mem_cons, List.mem_cons]

theorem resolve_agrees_repeated :
    let span : Span := ⟨0, 15, 1, 1, none⟩
    let one : Parameter := ⟨"a", [.number 1], span⟩
    let p : Program := ⟨"t.lp", [.unit ⟨"a", [⟨"x", [], span⟩], span⟩,
      .unit ⟨"test_b", [one, ⟨rootUnit, [], span⟩, one], span⟩]⟩
    let a : ProgramUnit := ⟨"a", ["x"], [⟨"x", []⟩], "t.lp", 1⟩
    let e : Dependency := ⟨"a", [.number 1]⟩
    let b : ProgramUnit := ⟨"test_b", ["a", rootUnit, "a"], [e, ⟨rootUnit, []⟩, e], "t.lp", 1⟩
    let r : Registry := ⟨[.root "t.lp", a, b], ["test_b"]⟩
    let parts := [rootPart, b.ownPart, e.part]
    Registry.ofProgram (fun name => name == "test_b") p = .ok r ∧ b ∈ r.units ∧
      b.resolve r = .ok parts ∧ parts.Nodup ∧ ∃ selection, p.select parts = .ok selection := by
  intro span one p a e b r parts
  have hr : Registry.ofProgram (fun name => name == "test_b") p = .ok r := by rfl
  have hb : b ∈ r.units := by simp [r]
  have hparts : b.resolve r = .ok parts := by
    simp only [resolve, firstOccurrences_eq_eraseDups]
    rfl
  obtain ⟨-, -, -, hnodup, -, -, hselect⟩ := resolve_agrees hr hb hparts
  exact ⟨hr, hb, hparts, hnodup, hselect⟩

end ProgramUnit

end AnswerSetTest
