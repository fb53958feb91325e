import AnswerSetTest.Proofs.Control
import AnswerSetTest.Proofs.Ground.Calls
import AnswerSetTest.Proofs.GroundProgram.Simplification

/-!
# Reports

What a grounding reports is the ground program that is searched: its rules in order and its atoms
by number. Counts are reported by numbers of their own, above those of the atoms, and equal counts
by the same number.
-/

namespace AnswerSetTest

open Handler (Event)

/-- The report of a rule, in which `number` stands for the counts. -/
def GroundRule.event (number : CountAtom → AtomId) (r : GroundRule) : Event :=
  .rule (r.kind = .choice) r.head
    (r.positives.map Int.ofNat ++ r.negatives.map (fun a => -Int.ofNat a) ++
      r.counts.map fun c => Int.ofNat (number c))

/-- Counts that compare the same set of atoms in the same way. -/
structure CountAtom.Alike (c d : CountAtom) : Prop where
  atoms : ∀ a, a ∈ c.atoms ↔ a ∈ d.atoms
  op : c.op = d.op
  bound : c.bound = d.bound

namespace GroundProgram

def countNumber (p : GroundProgram) (c : CountAtom) : AtomId :=
  p.symbols.length + 1 + p.distinctCounts.idxOf c

variable {p : GroundProgram} {r : GroundRule} {c d : CountAtom}

theorem mem_distinctCounts : c ∈ p.distinctCounts ↔ ∃ r ∈ p.rules, c ∈ r.counts := by
  rw [distinctCounts, mem_firstOccurrences, List.mem_flatMap]

theorem nodup_distinctCounts (p : GroundProgram) : p.distinctCounts.Nodup :=
  nodup_firstOccurrences _

theorem getElem?_countNumbering (hc : c ∈ p.distinctCounts) :
    p.countNumbering[c]? = some (p.countNumber c) := by
  refine (getElem?_ofList_zipIdx (nodup_distinctCounts p)).2 ?_
  refine List.mk_mem_zipIdx_iff_le_and_getElem?_sub.2 ⟨Nat.le_add_right _ _, ?_⟩
  rw [countNumber, Nat.add_sub_cancel_left]
  exact List.getElem?_idxOf hc

theorem ruleEvent_eq (hr : r ∈ p.rules) :
    Event.rule (ruleEvent p.countNumbering r).1 (ruleEvent p.countNumbering r).2.1
      (ruleEvent p.countNumbering r).2.2 = r.event p.countNumber := by
  have hcounts : r.counts.filterMap (fun c => p.countNumbering[c]?) =
      r.counts.map p.countNumber := by
    rw [← List.filterMap_eq_map]
    exact List.filterMap_congr fun c hc =>
      getElem?_countNumbering (mem_distinctCounts.2 ⟨r, hr, hc⟩)
  rw [ruleEvent, hcounts, GroundRule.event, List.map_map]
  rfl

theorem events_eq (p : GroundProgram) : p.events = p.rules.map (GroundRule.event p.countNumber) ++
    (p.symbols.zipIdx 1).map fun e => .output e.1 e.2 := by
  rw [events, ruleEvents, List.map_map]
  exact congrArg (· ++ _) (List.map_congr_left fun r hr => ruleEvent_eq hr)

/-- The numbers of the counts follow those of the atoms without a gap. -/
theorem countNumber_iff {a : Nat} : (∃ r ∈ p.rules, ∃ c ∈ r.counts, p.countNumber c = a) ↔
    p.symbols.length + 1 ≤ a ∧ a ≤ p.symbols.length + p.distinctCounts.length := by
  have hmem : (∃ r ∈ p.rules, ∃ c ∈ r.counts, p.countNumber c = a) ↔
      ∃ c ∈ p.distinctCounts, p.countNumber c = a := by
    simp only [mem_distinctCounts]
    grind
  rw [hmem]
  constructor
  · rintro ⟨c, hc, rfl⟩
    have hlt := List.idxOf_lt_length_iff.2 hc
    rw [countNumber]
    omega
  · rintro ⟨hle, hlt⟩
    have hi : a - (p.symbols.length + 1) < p.distinctCounts.length := by omega
    refine ⟨p.distinctCounts[a - (p.symbols.length + 1)], List.getElem_mem hi, ?_⟩
    rw [countNumber, (nodup_distinctCounts p).idxOf_getElem]
    exact Nat.add_sub_of_le hle

theorem countNumber_inj (hc : c ∈ p.distinctCounts) :
    p.countNumber c = p.countNumber d ↔ c = d := by
  rw [countNumber, countNumber, Nat.add_left_cancel_iff, List.idxOf_inj hc]

end GroundProgram

namespace GroundRule

variable {symbols : List Symbol} {ids : Numbering} {i : Instance} {r : GroundRule}

theorem body_of_mem_ofInstance (h : r ∈ ofInstance symbols ids i) :
    r.positives = ids.numbers i.positives ∧ r.negatives = ids.numbers i.negatives ∧
      r.counts = i.counts.map (PendingCount.resolve symbols) := by
  rw [ofInstance] at h
  split at h
  · obtain ⟨a, -, rfl⟩ := List.mem_map.1 h
    exact ⟨rfl, rfl, rfl⟩
  · obtain rfl := List.mem_singleton.1 h
    exact ⟨rfl, rfl, rfl⟩

end GroundRule

theorem Numbering.le_of_mem_numbers {symbols ss : List Symbol} (hp : symbols.Pairwise (· < ·))
    {a : Nat} (ha : a ∈ (ofSymbols symbols).numbers ss) : 1 ≤ a ∧ a ≤ symbols.length := by
  obtain ⟨s, -, hs⟩ := (mem_numbers hp).1 ha
  exact ⟨hs.one_le, hs.le_length⟩

theorem PendingCount.ascending_resolve (symbols : List Symbol) (c : PendingCount) :
    (c.resolve symbols).atoms.Pairwise (· < ·) := by
  have hnumbers : (symbols.zipIdx 1).Pairwise fun x y => x.2 < y.2 := by
    rw [← List.pairwise_map, List.zipIdx_map_snd]
    exact List.pairwise_lt_range'
  refine hnumbers.filterMap _ fun x y hxy a ha b hb => ?_
  simp only [Option.ite_none_right_eq_some, Option.some.injEq] at ha hb
  rwa [← ha.2, ← hb.2]

namespace GroundProgram

variable {symbols : List Symbol} {instances : List Instance} {shown : Option (List Signature)}
  {r : GroundRule}

theorem le_of_mem_rules (hp : symbols.Pairwise (· < ·))
    (hr : r ∈ (ofInstances symbols instances shown).rules) :
    ∀ a ∈ r.head ++ r.positives ++ r.negatives, 1 ≤ a ∧ a ≤ symbols.length := by
  obtain ⟨r₀, hr₀, hs⟩ := mem_rules_ofInstances.1 hr
  obtain ⟨i, -, hi⟩ := List.mem_flatMap.1 hr₀
  obtain ⟨hpositives, hnegatives, -⟩ := GroundRule.body_of_mem_ofInstance hi
  obtain ⟨-, rfl⟩ := GroundRule.simplify?_eq_some.1 hs
  refine List.forall_mem_append.2 ⟨List.forall_mem_append.2 ⟨fun a ha => ?_, fun a ha => ?_⟩,
    fun a ha => ?_⟩
  · exact head_le_of_mem_rulesOf hp hr₀ ha
  · have ha₀ := (List.mem_filter.1 (GroundRule.mem_sortIds.1 ha)).1
    exact Numbering.le_of_mem_numbers hp (hpositives ▸ ha₀)
  · exact Numbering.le_of_mem_numbers hp (hnegatives ▸ GroundRule.mem_sortIds.1 ha)

theorem ascending_of_mem_counts (hr : r ∈ (ofInstances symbols instances shown).rules) :
    ∀ c ∈ r.counts, c.atoms.Pairwise (· < ·) := by
  obtain ⟨r₀, hr₀, hs⟩ := mem_rules_ofInstances.1 hr
  obtain ⟨i, -, hi⟩ := List.mem_flatMap.1 hr₀
  obtain ⟨-, -, hcounts⟩ := GroundRule.body_of_mem_ofInstance hi
  obtain ⟨-, rfl⟩ := GroundRule.simplify?_eq_some.1 hs
  intro c hc
  obtain ⟨d, -, rfl⟩ := List.mem_map.1 (hcounts ▸ hc)
  exact d.ascending_resolve symbols

end GroundProgram

theorem CountAtom.Alike.eq {c d : CountAtom} (h : c.Alike d) (hc : c.atoms.Pairwise (· < ·))
    (hd : d.atoms.Pairwise (· < ·)) : c = d := by
  have hatoms : c.atoms = d.atoms := eq_of_pairwise (fun _ _ => Nat.lt_asymm) hc hd h.atoms
  cases c
  cases d
  congr
  · exact h.op
  · exact h.bound

namespace GroundProgram

/-- Atoms are numbered from one in the order of their symbols, and the counts of the rules from
there on, those that are alike by the same number. -/
structure Numbers (p : GroundProgram) (number : CountAtom → AtomId) : Prop where
  ascending : p.symbols.Pairwise (· < ·)
  atom_le : ∀ r ∈ p.rules, ∀ a ∈ r.head ++ r.positives ++ r.negatives,
    1 ≤ a ∧ a ≤ p.symbols.length
  count_iff : ∃ k, ∀ a, (∃ r ∈ p.rules, ∃ c ∈ r.counts, number c = a) ↔
    p.symbols.length + 1 ≤ a ∧ a ≤ p.symbols.length + k
  alike_iff : ∀ r ∈ p.rules, ∀ c ∈ r.counts, ∀ s ∈ p.rules, ∀ d ∈ s.counts,
    (number c = number d ↔ c.Alike d)

theorem numbers_ofInstances {symbols : List Symbol} (instances : List Instance)
    (shown : Option (List Signature)) (hp : symbols.Pairwise (· < ·)) :
    (ofInstances symbols instances shown).Numbers
      (ofInstances symbols instances shown).countNumber where
  ascending := hp
  atom_le r hr := le_of_mem_rules hp hr
  count_iff := ⟨_, fun _ => countNumber_iff⟩
  alike_iff r hr c hc s hs d hd := by
    rw [countNumber_inj (mem_distinctCounts.2 ⟨r, hr, hc⟩)]
    refine ⟨?_, fun h => h.eq (ascending_of_mem_counts hr c hc) (ascending_of_mem_counts hs d hd)⟩
    rintro rfl
    exact ⟨fun _ => Iff.rfl, rfl, rfl⟩

end GroundProgram

namespace Sample.Mixed

/-- The events of the rules, in which the count has the number after that of the last atom. -/
def ruleEvents : List Event :=
  [.rule false [5] [], .rule false [6] [], .rule true [1] [], .rule false [2] [-1],
   .rule false [3, 4] [1], .rule false [] [4, 8]]

theorem Grounds.events_perm {p : GroundProgram} {number : CountAtom → AtomId} (h : Grounds p)
    (hnumber : p.Numbers number) : (p.rules.map (GroundRule.event number)).Perm ruleEvents := by
  let c : CountAtom := ⟨[1, 5, 6], .gt, .number 2⟩
  have hcount : ∀ a, (∃ r ∈ p.rules, ∃ d ∈ r.counts, number d = a) ↔ number c = a := by
    intro a
    simp only [h.rules.mem_iff]
    simp [groundRules, GroundRule.fact, c]
  obtain ⟨k, hk⟩ := hnumber.count_iff
  simp only [hcount, h.symbols] at hk
  have hlength : Mixed.symbols.length = 7 := rfl
  have hc : number c = 8 := by
    have hle := (hk (number c)).1 rfl
    rw [hlength] at hle hk
    exact (hk 8).2 ⟨Nat.le_refl 8, hle.1.trans hle.2⟩
  have hevents : groundRules.map (GroundRule.event number) = ruleEvents := by
    change [_, _, _, _, _, Event.rule false [] [4, Int.ofNat (number c)]] = ruleEvents
    rw [hc]
    rfl
  exact hevents ▸ h.rules.map _

end Sample.Mixed

namespace Control

variable {σ : Type} {handler : Handler σ} {parts : List Part} {c c' : Control} {w w' : σ}

/-- A grounding that succeeds makes its calls first, and then reports the rules that are searched,
each with its head and its body in numbers, and all atoms with their numbers from one on. -/
theorem ground_reports (h : (ground handler parts c).run w = ((.ok (), c'), w')) :
    ∃ p number, c'.phase = .grounded p ∧ p.Numbers number ∧
      ∃ calls : List Event, (∀ e ∈ calls, e.IsCall) ∧
        (ground handler.recorded parts c).run (w, []) = ((.ok (), c'),
          (w', calls ++ (p.rules.map (GroundRule.event number) ++
            (c'.atoms.zipIdx 1).map fun e => .output e.1 e.2))) := by
  cases hp : c.phase with
  | spent p =>
    rw [ground_spent hp] at h
    cases h
  | grounded p =>
    rw [ground_grounded hp] at h
    cases h
  | fresh =>
    cases hrun : GroundProgram.ground handler c.program parts w with
    | mk r v =>
      cases r with
      | error fault =>
        rw [ground_of_error hp hrun] at h
        cases h
      | ok p =>
        rw [ground_of_ok hp hrun] at h
        cases h
        obtain ⟨calls, hcalls, hrecorded⟩ := GroundProgram.ground_recorded_of_ok hrun
        obtain ⟨selection, symbols, instances, scratch, -, hselection, rfl, -⟩ :=
          GroundProgram.ground_eq_ok hrun
        have hascending := Grounding.ofSelection_ascending handler selection _ _ _ hselection
        refine ⟨_, _, rfl, GroundProgram.numbers_ofInstances _ _ hascending, calls, hcalls, ?_⟩
        rw [ground_of_ok hp hrecorded, GroundProgram.events_eq]
        rfl

theorem ground_reports_sample :
    let h : Handler Unit := FunctionTable.empty.handler
    let c : Control := load defaultLimit Sample.Mixed.program
    let outputs := (Sample.Mixed.symbols.zipIdx 1).map fun e => Event.output e.1 e.2
    ∃ c', (ground h Sample.parts c).run () = ((.ok (), c'), ()) ∧
      ∃ calls rules : List Event, (∀ e ∈ calls, e.IsCall) ∧ rules.Perm Sample.Mixed.ruleEvents ∧
        (ground h.recorded Sample.parts c).run ((), []) =
          ((.ok (), c'), ((), calls ++ (rules ++ outputs))) := by
  intro h c outputs
  have hanswers : h.AnswersBy Sample.unknown := fun _ _ _ => rfl
  obtain ⟨p, hok, hp⟩ := Sample.Mixed.exists_ground hanswers ()
  have hground : (ground h Sample.parts c).run () = _ := ground_load_of_ok (Prod.ext hok rfl)
  obtain ⟨q, number, hphase, hnumber, calls, hcalls, hrun⟩ := ground_reports hground
  cases hphase
  refine ⟨_, hground, calls, _, hcalls, hp.events_perm hnumber, ?_⟩
  have houtputs : outputs = (p.symbols.zipIdx 1).map fun e => Event.output e.1 e.2 := by
    rw [hp.symbols]
  rw [houtputs]
  exact hrun

end Control

end AnswerSetTest
