import Std.Data.HashMap.Lemmas
import AnswerSetTest.Proofs.Registry
import AnswerSetTest.Proofs.Runner.Schedule

/-!
# Registries as tables

A registry can be kept in three tables that are changed in place: the units by their names, the
names in the order of registration, and the names of the test units. A look-up then takes a name
from one table and reads another, and would fail if the tables drifted apart. They do not, after
any sequence of registrations, accepted or rejected, and they hold what the registry holds that
takes the same registrations.
-/

namespace AnswerSetTest

/-- A unit that is offered to a registry. -/
structure Registration where
  unit : ProgramUnit
  isTest : Bool

namespace Registration

def first? (offers : List Registration) (name : String) : Option Registration :=
  offers.find? fun o => o.unit.name == name

variable {offers : List Registration} {o : Registration} {name : String}

theorem first?_append_of_ne (h : o.unit.name ≠ name) :
    first? (offers ++ [o]) name = first? offers name := by
  simp [first?, h]

theorem first?_append_of_isSome (h : (first? offers name).isSome) :
    first? (offers ++ [o]) name = first? offers name := by
  unfold first? at h ⊢
  rw [List.find?_append, Option.or_of_isSome h]

theorem first?_append_of_eq_none (h : first? offers o.unit.name = none) :
    first? (offers ++ [o]) o.unit.name = some o := by
  unfold first? at h ⊢
  rw [List.find?_append, h, Option.none_or, List.find?_singleton, if_pos (beq_self_eq_true _)]

theorem name_of_first? (h : first? offers name = some o) : o.unit.name = name := by
  simpa using List.find?_some h

end Registration

namespace Registry

/-- A registry that rejects the unit stays as it is. -/
def offer (o : Registration) : StateM Registry (Except Failure Unit) := fun r =>
  match r.register o.unit o.isTest with
  | .ok r' => (.ok (), r')
  | .error f => (.error f, r)

theorem run_offer (o : Registration) (r : Registry) :
    (offer o).run r =
      if o.unit.isRoot then (.ok (), r)
      else if r.contains o.unit.name then
        (.error (.duplicateUnit o.unit.name o.unit.file), r)
      else
        (.ok (), ⟨r.units ++ [o.unit],
          if o.isTest then r.tests ++ [o.unit.name] else r.tests⟩) := by
  change (match r.register o.unit o.isTest with
    | .ok r' => (Except.ok (), r')
    | .error f => (Except.error f, r)) = _
  unfold register
  by_cases hroot : o.unit.isRoot = true
  · rw [if_pos hroot, if_pos hroot]
  · rw [if_neg hroot, if_neg hroot]
    by_cases hmem : r.contains o.unit.name = true
    · rw [if_pos hmem, if_pos hmem]
    · rw [if_neg hmem, if_neg hmem]

/-- The registry as three tables that are changed in place. -/
structure Tables where
  byName : Std.HashMap String ProgramUnit
  order : List String
  tests : List String

namespace Tables

def new (rootFile : String) : Tables :=
  ⟨(∅ : Std.HashMap String ProgramUnit).insert rootUnit (.root rootFile), [rootUnit], []⟩

/-- Adds a unit to one table after the other. -/
def offer (o : Registration) : StateM Tables (Except Failure Unit) := do
  if o.unit.isRoot then return .ok ()
  let t ← get
  if t.byName.contains o.unit.name then
    return .error (.duplicateUnit o.unit.name o.unit.file)
  modify fun t => { t with order := t.order ++ [o.unit.name] }
  if o.isTest then
    modify fun t => { t with tests := t.tests ++ [o.unit.name] }
  modify fun t => { t with byName := t.byName.insert o.unit.name o.unit }
  return .ok ()

/-- The units under the given names, `none` if one of the names is missing. -/
def lookUp (t : Tables) (names : List String) : Option (List ProgramUnit) :=
  names.mapM fun name => t.byName[name]?

def units? (t : Tables) : Option (List ProgramUnit) := t.lookUp t.order

def root? (t : Tables) : Option ProgramUnit := t.byName[rootUnit]?

def testUnits? (t : Tables) : Option (List ProgramUnit) :=
  (t.lookUp t.tests).map fun us => us.mergeSort fun u v => decide (u.file ≤ v.file)

def add (t : Tables) (o : Registration) : Tables where
  byName := t.byName.insert o.unit.name o.unit
  order := t.order ++ [o.unit.name]
  tests := if o.isTest then t.tests ++ [o.unit.name] else t.tests

/-- What the tables hold after the registrations `offers`. -/
structure Holds (file : String) (offers : List Registration) (t : Tables) : Prop where
  head : t.order.head? = some rootUnit
  nodup : t.order.Nodup
  mem_order_iff : ∀ name, name ∈ t.order ↔ name ∈ t.byName
  tests : t.tests.Sublist t.order.tail
  mem_tests_iff : ∀ name, name ∈ t.tests ↔
    name ≠ rootUnit ∧ ∃ o, Registration.first? offers name = some o ∧ o.isTest = true
  root : t.byName[rootUnit]? = some (.root file)
  first : ∀ name, name ≠ rootUnit →
    t.byName[name]? = (Registration.first? offers name).map Registration.unit

structure Presents (t : Tables) (r : Registry) : Prop where
  byName : ∀ name : String, t.byName[name]? = r.get? name
  order : t.order = r.units.map ProgramUnit.name
  tests : t.tests = r.tests

variable {t t' : Tables} {r : Registry} {o : Registration} {offers : List Registration}
  {file name : String} {result : Except Failure Unit}

theorem run_offer (o : Registration) (t : Tables) :
    (offer o).run t =
      if o.unit.isRoot then (.ok (), t)
      else if t.byName.contains o.unit.name then
        (.error (.duplicateUnit o.unit.name o.unit.file), t)
      else (.ok (), t.add o) := by
  unfold offer
  by_cases hroot : o.unit.isRoot = true
  · rw [if_pos hroot, if_pos hroot]
    rfl
  · rw [if_neg hroot, if_neg hroot]
    simp only [StateT.run_bind, StateT.run_get, pure_bind]
    by_cases hmem : t.byName.contains o.unit.name = true
    · rw [if_pos hmem, if_pos hmem]
      rfl
    · rw [if_neg hmem, if_neg hmem, add]
      cases o.isTest with
      | true => rfl
      | false => rfl

theorem getElem?_add (o : Registration) (t : Tables) (name : String) :
    (t.add o).byName[name]? = if o.unit.name = name then some o.unit else t.byName[name]? := by
  rw [add, Std.HashMap.getElem?_insert]
  simp only [beq_iff_eq]

theorem mem_byName_add : name ∈ (t.add o).byName ↔ name = o.unit.name ∨ name ∈ t.byName := by
  rw [add, Std.HashMap.mem_insert, beq_iff_eq, eq_comm]

theorem mem_tests_add :
    name ∈ (t.add o).tests ↔ name ∈ t.tests ∨ o.isTest = true ∧ name = o.unit.name := by
  unfold add
  cases o.isTest with
  | true => simp
  | false => simp

/-- What a registration can do: it leaves the tables as they are if it reopens the root unit or
repeats a name, and otherwise adds its unit to all of them. -/
theorem offer_cases (h : (offer o).run t = (result, t')) :
    (o.unit.name = rootUnit ∧ result = .ok () ∧ t' = t) ∨
      (o.unit.name ≠ rootUnit ∧ o.unit.name ∈ t.byName ∧
        result = .error (.duplicateUnit o.unit.name o.unit.file) ∧ t' = t) ∨
      (o.unit.name ≠ rootUnit ∧ o.unit.name ∉ t.byName ∧ result = .ok () ∧ t' = t.add o) := by
  rw [run_offer] at h
  split at h
  · next hroot =>
    cases h
    exact .inl ⟨of_decide_eq_true hroot, rfl, rfl⟩
  · next hroot =>
    have hne : o.unit.name ≠ rootUnit := fun h => hroot (decide_eq_true h)
    split at h
    · next hmem =>
      cases h
      exact .inr (.inl ⟨hne, hmem, rfl, rfl⟩)
    · next hmem =>
      cases h
      exact .inr (.inr ⟨hne, hmem, rfl, rfl⟩)

namespace Holds

theorem new (file : String) : Holds file [] (.new file) where
  head := rfl
  nodup := List.nodup_singleton _
  mem_order_iff name := by
    rw [Tables.new, List.mem_singleton, Std.HashMap.mem_insert, beq_iff_eq, eq_comm]
    exact (or_iff_left Std.HashMap.not_mem_empty).symm
  tests := .slnil
  mem_tests_iff name := by simp [Tables.new, Registration.first?]
  root := Std.HashMap.getElem?_insert_self
  first name hname := by simp [Tables.new, Registration.first?, hname.symm]

theorem of_first?_eq (h : Holds file offers t)
    (hfirst : ∀ name, name ≠ rootUnit →
      Registration.first? (offers ++ [o]) name = Registration.first? offers name) :
    Holds file (offers ++ [o]) t where
  head := h.head
  nodup := h.nodup
  mem_order_iff := h.mem_order_iff
  tests := h.tests
  mem_tests_iff name := by
    rw [h.mem_tests_iff]
    refine and_congr_right fun hname => ?_
    rw [hfirst name hname]
  root := h.root
  first name hname := by rw [h.first name hname, hfirst name hname]

theorem exists_order_eq (h : Holds file offers t) : ∃ names, t.order = rootUnit :: names :=
  List.head?_eq_some_iff.1 h.head

theorem first?_eq_none (h : Holds file offers t) (hne : name ≠ rootUnit) (hnew : name ∉ t.byName) :
    Registration.first? offers name = none := by
  have hfirst := h.first name hne
  rw [Std.HashMap.getElem?_eq_none hnew] at hfirst
  simpa using hfirst.symm

theorem mem_order_of_mem_tests (h : Holds file offers t) (hname : name ∈ t.tests) :
    name ∈ t.order :=
  List.mem_of_mem_tail (h.tests.subset hname)

theorem add (h : Holds file offers t) (hne : o.unit.name ≠ rootUnit)
    (hnew : o.unit.name ∉ t.byName) : Holds file (offers ++ [o]) (t.add o) := by
  obtain ⟨names, horder⟩ := h.exists_order_eq
  have hnone := h.first?_eq_none hne hnew
  have hfresh : o.unit.name ∉ t.order := mt (h.mem_order_iff _).1 hnew
  have htests : o.unit.name ∉ t.tests := mt h.mem_order_of_mem_tests hfresh
  have hsub : t.tests.Sublist names := by
    have hsub := h.tests
    rwa [horder] at hsub
  constructor
  · rw [Tables.add, horder]
    rfl
  · exact List.nodup_append'.2 ⟨h.nodup, List.nodup_singleton _, by simpa using hfresh⟩
  · intro name
    rw [mem_byName_add, ← h.mem_order_iff name, Tables.add, List.mem_append, List.mem_singleton,
      or_comm]
  · rw [Tables.add, horder, List.cons_append, List.tail_cons]
    dsimp only
    split
    · exact hsub.append_right _
    · exact hsub.trans (List.sublist_append_left _ _)
  · intro name
    rw [mem_tests_add]
    by_cases hname : o.unit.name = name
    · subst hname
      rw [Registration.first?_append_of_eq_none hnone]
      simp [htests, hne]
    · rw [Registration.first?_append_of_ne hname, h.mem_tests_iff]
      simp [Ne.symm hname]
  · rw [getElem?_add, if_neg hne, h.root]
  · intro name hname
    rw [getElem?_add]
    by_cases heq : o.unit.name = name
    · subst heq
      rw [if_pos rfl, Registration.first?_append_of_eq_none hnone, Option.map_some]
    · rw [if_neg heq, Registration.first?_append_of_ne heq, h.first name hname]

/-- The step: one more registration. -/
theorem offer (h : Holds file offers t) (hrun : (Tables.offer o).run t = (result, t')) :
    Holds file (offers ++ [o]) t' := by
  rcases offer_cases hrun with ⟨hroot, -, rfl⟩ | ⟨hne, hmem, -, rfl⟩ | ⟨hne, hnew, -, rfl⟩
  · apply h.of_first?_eq
    intro name hname
    apply Registration.first?_append_of_ne
    rw [hroot]
    exact hname.symm
  · apply h.of_first?_eq
    intro name hname
    by_cases heq : o.unit.name = name
    · apply Registration.first?_append_of_isSome
      have hfirst := h.first name hname
      rw [← heq, Std.HashMap.getElem?_eq_some_getElem hmem] at hfirst
      rw [← heq]
      simpa using congrArg Option.isSome hfirst.symm
    · exact Registration.first?_append_of_ne heq
  · exact h.add hne hnew

/-- The run: any registrations, accepted or rejected. -/
theorem offerAll (h : Holds file offers t) (more : List Registration) :
    Holds file (offers ++ more) ((more.mapM Tables.offer).run t).2 := by
  induction more generalizing offers t with
  | nil => rwa [List.append_nil]
  | cons o more ih =>
    have hrest := ih (h.offer (o := o) rfl)
    rw [List.append_assoc, List.singleton_append] at hrest
    rw [List.mapM_cons]
    exact hrest

variable (h : Holds file offers t)

include h

theorem nodup_tests : t.tests.Nodup :=
  h.nodup.tail.sublist h.tests

theorem root_notMem_tests : rootUnit ∉ t.tests := fun hmem =>
  ((h.mem_tests_iff rootUnit).1 hmem).1 rfl

theorem name_of_getElem? {u : ProgramUnit} (hu : t.byName[name]? = some u) : u.name = name := by
  by_cases hname : name = rootUnit
  · rw [hname, h.root] at hu
    cases hu
    exact hname.symm
  · rw [h.first name hname] at hu
    obtain ⟨o, ho, rfl⟩ := Option.map_eq_some_iff.1 hu
    exact Registration.name_of_first? ho

theorem exists_lookUp {names : List String} (hnames : ∀ name ∈ names, name ∈ t.order) :
    ∃ us, t.lookUp names = some us ∧ us.map ProgramUnit.name = names := by
  induction names with
  | nil => exact ⟨[], rfl, rfl⟩
  | cons name names ih =>
    obtain ⟨us, hus, hmap⟩ := ih fun n hn => hnames n (List.mem_cons_of_mem _ hn)
    have hmem := (h.mem_order_iff name).1 (hnames name List.mem_cons_self)
    have hget := Std.HashMap.getElem?_eq_some_getElem hmem
    refine ⟨t.byName[name] :: us, ?_, ?_⟩
    · unfold lookUp at hus ⊢
      rw [List.mapM_cons, hget, hus]
      rfl
    · rw [List.map_cons, hmap, h.name_of_getElem? hget]

theorem rejected {f : Failure} (hrun : (Tables.offer o).run t = (.error f, t')) :
    t' = t ∧ f = .duplicateUnit o.unit.name o.unit.file ∧ o.unit.name ∈ t.order.tail := by
  obtain ⟨names, horder⟩ := h.exists_order_eq
  rcases offer_cases hrun with ⟨-, hok, -⟩ | ⟨hne, hmem, herror, rfl⟩ | ⟨-, -, hok, -⟩
  · cases hok
  · cases herror
    refine ⟨rfl, rfl, ?_⟩
    rw [← h.mem_order_iff, horder, List.mem_cons] at hmem
    rw [horder]
    exact hmem.resolve_left hne
  · cases hok

end Holds

namespace Presents

theorem new (file : String) : Presents (.new file) (.new file) where
  byName name := by
    rw [Tables.new, Registry.new, get?, Std.HashMap.getElem?_insert, Std.HashMap.getElem?_empty,
      List.find?_singleton]
    rfl
  order := rfl
  tests := rfl

theorem contains_eq (h : Presents t r) (name : String) :
    t.byName.contains name = r.contains name := by
  rw [Registry.contains, ← h.byName, Std.HashMap.contains_eq_isSome_getElem?]

theorem add (h : Presents t r) (o : Registration) (hnew : ¬ r.contains o.unit.name = true) :
    Presents (t.add o)
      ⟨r.units ++ [o.unit], if o.isTest then r.tests ++ [o.unit.name] else r.tests⟩ where
  byName name := by
    have hnone : r.get? o.unit.name = none := by simpa [contains] using hnew
    rw [getElem?_add, get?, List.find?_append, List.find?_singleton, h.byName]
    by_cases heq : o.unit.name = name
    · subst heq
      unfold get? at hnone
      rw [if_pos rfl, hnone, if_pos (beq_self_eq_true _), Option.none_or]
    · rw [if_neg heq, if_neg (by simpa using heq), Option.or_none, get?]
  order := by rw [Tables.add, List.map_append, h.order, List.map_singleton]
  tests := by rw [Tables.add, h.tests]

/-- The step: both take the registration or both reject it. -/
theorem offer (h : Presents t r) (o : Registration) :
    ((Tables.offer o).run t).1 = ((Registry.offer o).run r).1 ∧
      Presents ((Tables.offer o).run t).2 ((Registry.offer o).run r).2 := by
  rw [Tables.run_offer, Registry.run_offer, h.contains_eq]
  split
  · exact ⟨rfl, h⟩
  · split
    · exact ⟨rfl, h⟩
    · next hnew => exact ⟨rfl, h.add o hnew⟩

/-- The run: the same registrations are taken, and the tables present the registry again. -/
theorem offerAll (h : Presents t r) (offers : List Registration) :
    ((offers.mapM Tables.offer).run t).1 = ((offers.mapM Registry.offer).run r).1 ∧
      Presents ((offers.mapM Tables.offer).run t).2 ((offers.mapM Registry.offer).run r).2 := by
  induction offers generalizing t r with
  | nil => exact ⟨rfl, h⟩
  | cons o offers ih =>
    obtain ⟨hresult, hnext⟩ := h.offer o
    obtain ⟨hresults, hlast⟩ := ih hnext
    rw [List.mapM_cons, List.mapM_cons]
    exact ⟨congrArg₂ List.cons hresult hresults, hlast⟩

variable (h : Presents t r)

include h

theorem root?_eq (hroot : rootUnit ∈ t.byName) : t.root? = some r.root := by
  have hget := Std.HashMap.getElem?_eq_some_getElem hroot
  rw [Tables.root?, Registry.root, ← h.byName, hget, Option.getD_some]

theorem filterMap_eq_of_lookUp {names : List String} {us : List ProgramUnit}
    (hus : t.lookUp names = some us) : names.filterMap r.get? = us := by
  induction names generalizing us with
  | nil =>
    cases hus
    rfl
  | cons name names ih =>
    unfold lookUp at hus ih
    rw [List.mapM_cons] at hus
    cases hu : t.byName[name]? with
    | none =>
      rw [hu] at hus
      cases hus
    | some u =>
      rw [hu] at hus
      cases hrest : names.mapM fun name => t.byName[name]? with
      | none =>
        rw [hrest] at hus
        cases hus
      | some us' =>
        rw [hrest] at hus
        cases hus
        rw [List.filterMap_cons_some ((h.byName name).symm.trans hu), ih hrest]

theorem units?_eq {us : List ProgramUnit} (hnodup : t.order.Nodup) (hus : t.units? = some us) :
    t.units? = some r.units := by
  have hget : ∀ u ∈ r.units, r.get? u.name = some u := fun u hu =>
    (get?_eq_some_iff (h.order ▸ hnodup)).2 ⟨hu, rfl⟩
  have hcongr : r.units.filterMap (r.get? ∘ ProgramUnit.name) = r.units.filterMap some :=
    List.filterMap_congr hget
  have heq := h.filterMap_eq_of_lookUp hus
  rw [h.order, List.filterMap_map, hcongr, List.filterMap_some] at heq
  rw [hus, heq]

theorem testUnits?_eq {us : List ProgramUnit} (hus : t.lookUp t.tests = some us) :
    t.testUnits? = some r.testUnits := by
  have hmap := h.filterMap_eq_of_lookUp hus
  rw [testUnits?, hus, Registry.testUnits, ← h.tests, hmap, Option.map_some]

end Presents

/-- After any registrations on a new registry, the order starts with the root unit, has no
repetition and lists the names of the units. The test names are among the others, each once. Every
name but the root unit's has its first registration. A rejected registration leaves all tables as
they are. So no look-up fails: units, root unit and test units are those of the registry that takes
the same registrations, and the test units are sorted by file, in order within a file. -/
theorem offers_agree (file : String) (offers : List Registration) :
    ∃ results t r tests,
      (offers.mapM Tables.offer).run (.new file) = (results, t) ∧
      (offers.mapM Registry.offer).run (.new file) = (results, r) ∧
      Holds file offers t ∧ Presents t r ∧ t.tests.Nodup ∧ rootUnit ∉ t.tests ∧
      (∀ o f t', (Tables.offer o).run t = (.error f, t') →
        t' = t ∧ f = .duplicateUnit o.unit.name o.unit.file ∧ o.unit.name ∈ t.order.tail) ∧
      t.units? = some r.units ∧ t.root? = some r.root ∧ r.root = .root file ∧
      t.lookUp t.tests = some tests ∧ tests.map ProgramUnit.name = t.tests ∧
      t.testUnits? = some r.testUnits ∧ Runner.InOrder tests r.testUnits := by
  have hholds := (Holds.new file).offerAll offers
  obtain ⟨hresults, hpresents⟩ := (Presents.new file).offerAll offers
  rw [List.nil_append] at hholds
  obtain ⟨us, hus, -⟩ := hholds.exists_lookUp fun name hname => hname
  obtain ⟨tests, htests, hmap⟩ :=
    hholds.exists_lookUp fun name hname => hholds.mem_order_of_mem_tests hname
  have hroot := hpresents.root?_eq ((hholds.mem_order_iff _).1 (List.mem_of_mem_head? hholds.head))
  have hsorted : Runner.InOrder tests
      (tests.mergeSort fun u v => decide (u.file ≤ v.file)) :=
    Runner.inOrder_mergeSort (hmap ▸ hholds.nodup_tests)
  have htestUnits := hpresents.testUnits?_eq htests
  refine ⟨_, _, _, tests, rfl, Prod.ext hresults.symm rfl, hholds, hpresents,
    hholds.nodup_tests, hholds.root_notMem_tests, fun o f t' => hholds.rejected,
    hpresents.units?_eq hholds.nodup hus, hroot, ?_, htests, hmap, htestUnits, ?_⟩
  · exact Option.some.inj (hroot.symm.trans hholds.root)
  · rw [testUnits?, htests, Option.map_some, Option.some.injEq] at htestUnits
    rwa [← htestUnits]

end Tables

end Registry

end AnswerSetTest
