import Mathlib.Data.List.Nodup
import AnswerSetTest.Registry
import AnswerSetTest.Proofs.Traversal

/-!
# Registries of programs

The registry of a program holds the root unit and a unit for each declaration of another name, in
the order of the declarations. Each name has one unit, so a look-up finds the unit that is
registered under it.
-/

namespace AnswerSetTest

namespace ProgramUnit

variable {file : String} {d : UnitDeclaration} {u : ProgramUnit}

theorem ofDeclaration_eq_ok (h : ofDeclaration file d = .ok u) :
    ∃ dependencies, d.parameters.mapM (dependency d) = .ok dependencies ∧
      u = ⟨d.name, d.parameterNames, dependencies, d.span.file.getD file, d.span.line⟩ := by
  unfold ofDeclaration at h
  cases hs : d.parameters.mapM (dependency d) with
  | error f =>
    rw [hs] at h
    cases h
  | ok dependencies =>
    rw [hs] at h
    cases h
    exact ⟨dependencies, rfl, rfl⟩

theorem name_of_declaration (h : ofDeclaration file d = .ok u) : u.name = d.name := by
  obtain ⟨_, -, rfl⟩ := ofDeclaration_eq_ok h
  rfl

theorem parameters_of_declaration (h : ofDeclaration file d = .ok u) :
    u.parameters = d.parameterNames := by
  obtain ⟨_, -, rfl⟩ := ofDeclaration_eq_ok h
  rfl

theorem dependencies_of_declaration (h : ofDeclaration file d = .ok u) :
    List.Forall₂ (fun q e => e.target = q.name ∧ Term.values? q.args = some e.args)
      d.parameters u.dependencies := by
  obtain ⟨dependencies, hs, rfl⟩ := ofDeclaration_eq_ok h
  refine (forall₂_of_mapM_eq_ok hs).imp fun q e hq => ?_
  unfold dependency at hq
  split at hq
  · next args hargs =>
    cases hq
    exact ⟨rfl, hargs⟩
  · cases hq

end ProgramUnit

namespace Registry

variable {isTest : String → Bool} {file name : String} {ds : List UnitDeclaration}
  {us : List ProgramUnit} {r r' : Registry} {d : UnitDeclaration} {u : ProgramUnit}

/-- The units `us` are those of the declarations `ds`, and they stand in `r` behind the root
unit. -/
structure Registers (isTest : String → Bool) (file : String) (ds : List UnitDeclaration)
    (us : List ProgramUnit) (r : Registry) : Prop where
  units : r.units = .root file :: us
  declared : List.Forall₂ (fun d u => ProgramUnit.ofDeclaration file d = .ok u)
    (ds.filter fun d => d.name ≠ rootUnit) us
  nodup : (r.units.map ProgramUnit.name).Nodup
  tests : r.tests = (us.filter fun u => isTest u.name).map ProgramUnit.name

theorem get?_eq_none_iff : r.get? name = none ↔ name ∉ r.units.map ProgramUnit.name := by
  simp [get?]

theorem get?_eq_some_iff (h : (r.units.map ProgramUnit.name).Nodup) :
    r.get? name = some u ↔ u ∈ r.units ∧ u.name = name := by
  constructor
  · intro hget
    exact ⟨List.mem_of_find?_eq_some hget, by simpa using List.find?_some hget⟩
  · rintro ⟨hu, rfl⟩
    cases hget : r.get? u.name with
    | none => exact absurd (List.mem_map_of_mem hu) (get?_eq_none_iff.1 hget)
    | some v =>
      have hv : v ∈ r.units := List.mem_of_find?_eq_some hget
      have hname : v.name = u.name := by simpa using List.find?_some hget
      rw [List.inj_on_of_nodup_map h hv hu hname]

def add (isTest : String → Bool) (file : String) (r : Registry) (d : UnitDeclaration) :
    Except Failure Registry := do
  let u ← ProgramUnit.ofDeclaration file d
  r.register u (isTest u.name)

theorem ofProgram_eq_foldlM (isTest : String → Bool) (p : Program) :
    ofProgram isTest p = p.declarations.foldlM (add isTest p.sourceName) (new p.sourceName) :=
  rfl

theorem add_of_ok (h : ProgramUnit.ofDeclaration file d = .ok u) :
    r.add isTest file d = r.register u (isTest u.name) := by
  rw [add, h]
  rfl

theorem add_of_error {f : Failure} (h : ProgramUnit.ofDeclaration file d = .error f) :
    r.add isTest file d = .error f := by
  rw [add, h]
  rfl

theorem register_of_root (h : u.name = rootUnit) (isTest : Bool) :
    r.register u isTest = .ok r :=
  if_pos (decide_eq_true h)

theorem register_of_ne_root (h : u.name ≠ rootUnit) (isTest : Bool) :
    r.register u isTest =
      if r.contains u.name then .error (.duplicateUnit u.name u.file)
      else .ok ⟨r.units ++ [u], if isTest then r.tests ++ [u.name] else r.tests⟩ :=
  if_neg (by simpa [ProgramUnit.isRoot] using h)

namespace Registers

theorem new (isTest : String → Bool) (file : String) :
    Registers isTest file [] [] (.new file) where
  units := rfl
  declared := .nil
  nodup := List.nodup_singleton _
  tests := rfl

/-- A declaration of the root unit changes nothing, and one of another name adds its unit. -/
theorem add (h : Registers isTest file ds us r) (hr : r.add isTest file d = .ok r') :
    ∃ us', Registers isTest file (ds ++ [d]) us' r' := by
  cases hd : ProgramUnit.ofDeclaration file d with
  | error f =>
    rw [add_of_error hd] at hr
    cases hr
  | ok u =>
    have hname := ProgramUnit.name_of_declaration hd
    rw [add_of_ok hd] at hr
    by_cases hroot : u.name = rootUnit
    · rw [register_of_root hroot] at hr
      cases hr
      refine ⟨us, h.units, ?_, h.nodup, h.tests⟩
      simpa [List.filter_append, ← hname, hroot] using h.declared
    · rw [register_of_ne_root hroot] at hr
      split at hr
      · cases hr
      · next hnew =>
        cases hr
        have hfresh : u.name ∉ r.units.map ProgramUnit.name := by
          rw [← get?_eq_none_iff]
          simpa [contains] using hnew
        refine ⟨us ++ [u], ?_, ?_, ?_, ?_⟩
        · rw [h.units, List.cons_append]
        · rw [List.filter_append, List.filter_singleton, ← hname, decide_eq_true hroot]
          exact List.rel_append h.declared (.cons hd .nil)
        · rw [List.map_append, List.map_singleton]
          exact List.nodup_append'.2 ⟨h.nodup, List.nodup_singleton _, by simpa using hfresh⟩
        · rw [List.filter_append, List.filter_singleton, List.map_append, h.tests]
          cases isTest u.name <;> simp

theorem addAll {ds' : List UnitDeclaration} (h : Registers isTest file ds us r)
    (hr : ds'.foldlM (Registry.add isTest file) r = .ok r') :
    ∃ us', Registers isTest file (ds ++ ds') us' r' := by
  induction ds' generalizing ds us r with
  | nil =>
    cases hr
    exact ⟨us, by rwa [List.append_nil]⟩
  | cons d ds' ih =>
    rw [List.foldlM_cons] at hr
    cases hd : r.add isTest file d with
    | error f =>
      rw [hd] at hr
      cases hr
    | ok r₁ =>
      rw [hd] at hr
      obtain ⟨us₁, h₁⟩ := h.add hd
      obtain ⟨us', h'⟩ := ih h₁ hr
      exact ⟨us', by rwa [List.append_assoc] at h'⟩

theorem of_ofProgram {p : Program} (h : ofProgram isTest p = .ok r) :
    ∃ us, Registers isTest p.sourceName p.declarations us r :=
  addAll (new isTest p.sourceName) h

variable (h : Registers isTest file ds us r)

include h

theorem root_eq : r.root = .root file := by
  have hget : r.get? rootUnit = some (.root file) := by
    rw [get?_eq_some_iff h.nodup, h.units]
    exact ⟨List.mem_cons_self, rfl⟩
  rw [root, hget, Option.getD_some]

/-- A registered unit is the root unit or has a declaration. -/
theorem exists_declaration (hu : u ∈ r.units) :
    u = .root file ∨
      ∃ d ∈ ds, d.name ≠ rootUnit ∧ ProgramUnit.ofDeclaration file d = .ok u := by
  rw [h.units, List.mem_cons] at hu
  refine hu.imp_right fun hu => ?_
  obtain ⟨d, hd, hdu⟩ := (exists_mem_of_forall₂ h.declared).2 u hu
  obtain ⟨hmem, hname⟩ := List.mem_filter.1 hd
  exact ⟨d, hmem, of_decide_eq_true hname, hdu⟩

theorem testUnits_eq : r.testUnits =
    (us.filter fun u => isTest u.name).mergeSort fun u v => decide (u.file ≤ v.file) := by
  have hget : ∀ u ∈ us, r.get? u.name = some u := fun u hu =>
    (get?_eq_some_iff h.nodup).2 ⟨h.units ▸ List.mem_cons_of_mem _ hu, rfl⟩
  have htests : r.tests.filterMap r.get? = us.filter fun u => isTest u.name := by
    have hcongr : (us.filter fun u => isTest u.name).filterMap (r.get? ∘ ProgramUnit.name) =
        (us.filter fun u => isTest u.name).filterMap some :=
      List.filterMap_congr fun u hu => hget u (List.mem_of_mem_filter hu)
    rw [h.tests, List.filterMap_map, hcongr, List.filterMap_some]
  rw [testUnits, htests]

end Registers

end Registry

end AnswerSetTest
