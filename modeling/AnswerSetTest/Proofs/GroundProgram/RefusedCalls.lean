import AnswerSetTest.Proofs.Ground.Coverage
import AnswerSetTest.Proofs.Ground.Refusal
import AnswerSetTest.Proofs.GroundProgram.BodyOrder

/-!
# Refused calls in programs

A grounding fails if a rule with a match makes a call that the handler refuses, be it in the head,
in a literal, in a comparison or in the bound of a count. Calls in the elements of a count are no
such calls: elements are only compared with the known atoms, and a call is equal to none.
-/

namespace AnswerSetTest

variable {answer : String → List Symbol → Except String Symbol} {known : List Symbol}
  {r : Rule} {name : String} {values : List Symbol} {b : Binding}

/-- A match over known atoms, with answers to calls in comparisons, under which a rule makes a call.
Positive literals with calls and comparisons that make the call themselves need not hold. -/
structure Rule.Requests (answer : String → List Symbol → Except String Symbol)
    (known : List Symbol) (r : Rule) (name : String) (values : List Symbol) (b : Binding) :
    Prop where
  named : b.get? "_" = none
  stands : ∀ t ∈ r.positives, t.hasCall = false → ∃ s ∈ known, t.StandsFor b s
  holds : ∀ c ∈ r.constraints, c.HoldsBy (.answered answer) b ∨
    c.left.Makes b name values ∨ c.right.Makes b name values
  makes : ∃ t, r.HasOuterTerm t ∧ t.Makes b name values

theorem Term.Makes.answered_eq_none {t : Term} (h : t.Makes b name values)
    (hanswer : ∃ message, answer name values = .error message) :
    (Valuation.answered answer).values b t = none := by
  obtain ⟨message, hmessage⟩ := hanswer
  have hrefused : Fails (fun _ : Unit => True) (Term.fixed answer name values) :=
    fun _ _ => ⟨.call name message, by rw [Term.fixed, hmessage]; rfl⟩
  have hfails := h.fails_eval (fun _ _ _ hs => hs) hrefused
  refine Option.eq_none_iff_forall_ne_some.2 fun vs hvs => ?_
  exact hfails.not_ok True.intro (Valuation.answered?_eq_some.1 hvs)

theorem Rule.Requests.attempts (h : r.Requests answer known name values b)
    (hanswer : ∃ message, answer name values = .error message) :
    Attempts (.answered answer) known r.positives r.constraints b where
  named := h.named
  stands := h.stands
  holds c hc := (h.holds c hc).imp_right fun hmakes => by
    rcases hmakes with hleft | hright
    · exact ⟨c.left, .inl rfl, hleft.ne_variable, hleft.answered_eq_none hanswer⟩
    · exact ⟨c.right, .inr rfl, hright.ne_variable, hright.answered_eq_none hanswer⟩

/-!
The fact `p(1)` and a rule for `a` whose body is `p(X)` and either `not b(@typo(X))` or
`{ b(@typo(X)) } < 1`.
-/

namespace Sample

def typo : Term := .function "b" [.call "typo" [.variable "X"]]

def negated : Literal := .atom true typo

def counted : Literal := .count [typo] .lt one

def binding : Binding := Binding.empty.insert "X" (.number 1)

theorem typo_makes : typo.Makes binding "typo" [.number 1] :=
  .function (List.mem_singleton_self _) (.here (.cons rfl .nil))

theorem standsFor_factAtom : Term.StandsFor binding (.function "p" [.variable "X"]) factAtom :=
  .function "p" (.cons (.variable rfl) .nil)

theorem readable_negated : (ruleWith [readVariable, negated]).Readable :=
  ⟨⟨trivial, trivial⟩, trivial⟩

theorem requests_negated (h : factAtom ∈ known) :
    (ruleWith [readVariable, negated]).Requests unknown known "typo" [.number 1] binding where
  named := rfl
  stands t ht _ := by
    obtain rfl := List.mem_singleton.1 ht
    exact ⟨factAtom, h, standsFor_factAtom⟩
  holds c hc := absurd hc List.not_mem_nil
  makes := by
    have hbody : negated ∈ (ruleWith [readVariable, negated]).body :=
      List.mem_cons_of_mem _ (List.mem_singleton_self _)
    exact ⟨typo, .inr ⟨negated, hbody, List.mem_singleton_self _⟩, typo_makes⟩

end Sample

section Handler

variable {σ : Type} {handler : Handler σ} {last : Scratch σ} {k : Nat}

theorem Scratch.Lacks.of_le {s : Scratch σ} (h : last.Lacks name values) (hs : s ≤ last) :
    s.Lacks name values := by
  refine fun rule => Option.eq_none_iff_forall_ne_some.2 fun value hvalue => ?_
  have hkept := hs _ value hvalue
  rw [h rule] at hkept
  cases hkept

/-- A rule whose matches all have instances makes no refused call. -/
theorem Grounding.Covered.not_requests (h : Covered handler last known k r) (hr : r.PoolFree)
    (hread : r.Readable) (hrefuses : handler.Refuses name values)
    (hlast : last.Lacks name values) (hanswers : last.Continues k answer)
    (hanswer : ∃ message, answer name values = .error message) :
    ¬ r.Requests answer known name values b := by
  intro hrequests
  obtain ⟨found, hfound, hinstances⟩ := h
  have hfinds := (hr.finds (hfound answer hanswers)).1 hread
  -- the search has looked at all literals and comparisons, so none of them makes the call
  obtain ⟨ps, hsolves⟩ := hfinds.solved b (hrequests.attempts hanswer)
  -- a match below `b` binds no more than `b`, so its instance cannot evaluate what `b` cannot
  obtain ⟨x, hx, hle, -⟩ := hfinds.complete b ps hrequests.named hsolves
  obtain ⟨s, i, s', hs, hrun⟩ := hinstances x hx
  have hlacks := hlast.of_le hs
  obtain ⟨t, ht, hmakes⟩ := hrequests.makes
  rcases Rule.hasOuterTerm_iff.1 ht with hhead | hpositive | hnegative | ⟨c, hc, hside⟩ | hcount
  · exact (hrefuses.fails_ofMatch k hle hmakes (.inl (Head.mem_atoms.2 hhead))).not_ok hlacks hrun
  · obtain ⟨s, -, hstands⟩ := (exists_mem_of_forall₂ hsolves.stands).1 t hpositive
    exact hstands.not_hasCall hmakes.hasCall
  · exact (hrefuses.fails_ofMatch k hle hmakes (.inr (.inl hnegative))).not_ok hlacks hrun
  · obtain ⟨ls, rs, hl, hr, -⟩ := hsolves.holds c hc
    have hnone := hmakes.answered_eq_none hanswer
    rcases hside with rfl | rfl
    · rw [hl] at hnone
      cases hnone
    · rw [hr] at hnone
      cases hnone
  · exact (hrefuses.fails_ofMatch k hle hmakes (.inr (.inr hcount))).not_ok hlacks hrun

namespace GroundProgram

/-- A grounding fails if one of the rules it selects can read its intervals and has a match, over
the atoms that a ground program would have, under which it makes a call that the handler refuses.
The answers to other calls are any that go on from those given in the grounding. -/
theorem ground_error_of_refused {program : Program} {parts : List Part} {s : Selection} {w : σ}
    (hselect : program.select parts = .ok s) (hr : s.rules[k]? = some r) (hread : r.Readable)
    (hrefuses : handler.Refuses name values)
    (hanswers : (Grounding.ofSelection handler s ⟨w, ∅⟩).2.Continues k answer)
    (hanswer : ∃ message, answer name values = .error message)
    (hmatch : ∀ p w', ground handler program parts w = (.ok p, w') →
      ∃ b, r.Requests answer p.symbols name values b) :
    ∃ fault w', ground handler program parts w = (.error fault, w') := by
  cases hground : ground handler program parts w with
  | mk result w' =>
    cases result with
    | error fault => exact ⟨fault, w', rfl⟩
    | ok p =>
      obtain ⟨b, hrequests⟩ := hmatch p w' hground
      obtain ⟨s', symbols, instances, last, hselect', hrun, rfl, -⟩ := ground_eq_ok hground
      rw [hselect, Except.ok.injEq] at hselect'
      subst hselect'
      rw [hrun] at hanswers
      have hlast : last.Lacks name values := by
        have hkeeps := @Congruent.ofSelection σ σ handler handler _
          (Keeps.congruent (Scratch.Lacks name values)) Scratch.Lacks.keeps_answer
          hrefuses.keeps_answerOnce s
        have hlacks := hkeeps _ (Scratch.lacks_empty w)
        rwa [hrun] at hlacks
      have hcovered := Grounding.ensures_ofSelection s _ _ _ hrun last.le_refl k r hr
      have hpoolFree := Program.poolFree_select hselect r (List.mem_of_getElem? hr)
      exact absurd hrequests
        (hcovered.not_requests hpoolFree hread hrefuses hlast hanswers hanswer)

theorem ground_error_of_refused_sample :
    let h : Handler Unit := FunctionTable.empty.handler
    let p := Sample.programWith [Sample.readVariable, Sample.negated]
    let r := Sample.ruleWith [Sample.readVariable, Sample.negated]
    let s : Selection := ⟨[Sample.fact, r], [], none⟩
    p.select Sample.parts = .ok s ∧ s.rules[1]? = some r ∧ r.Readable ∧
      h.Refuses "typo" [.number 1] ∧
      (Grounding.ofSelection h s ⟨(), ∅⟩).2.Continues 1 Sample.unknown ∧
      (∃ message, Sample.unknown "typo" [.number 1] = .error message) ∧
      (∀ g w', ground h p Sample.parts () = (.ok g, w') →
        ∃ b, r.Requests Sample.unknown g.symbols "typo" [.number 1] b) ∧
      ∃ fault w', ground h p Sample.parts () = (.error fault, w') := by
  intro h p r s
  have hselect : p.select Sample.parts = .ok s := Sample.select_programWith rfl
  have hanswersBy : h.AnswersBy Sample.unknown := fun _ _ _ => rfl
  have hrefuses : h.Refuses "typo" [.number 1] := hanswersBy.refuses rfl
  have hconsistent := (Grounding.yields_ofSelection hanswersBy s _ (Scratch.consistent_empty ())).1
  have hanswers := hconsistent.continues 1
  have hanswer : ∃ message, Sample.unknown "typo" [.number 1] = .error message := ⟨_, rfl⟩
  have hmatch : ∀ g w', ground h p Sample.parts () = (.ok g, w') →
      ∃ b, r.Requests Sample.unknown g.symbols "typo" [.number 1] b := by
    intro g w' hground
    have hg : (ofSelection h s ()).1 = .ok g := by
      have hground' := congrArg Prod.fst hground
      rwa [ground_eq_ofSelection, hselect] at hground'
    obtain ⟨symbols, instances, ⟨known, -, hexpands⟩, rfl⟩ :=
      exists_expands_of_ofSelection hanswersBy hg
    have hmade : Sample.factInstance ∈ Rule.allMade Sample.unknown s.rules symbols :=
      ⟨Sample.fact, List.mem_cons_self, (Sample.fact_lists symbols).makes_iff.2 (by simp)⟩
    have hfact : Sample.factAtom ∈ symbols :=
      (hexpands.round.mem_iff _).2 (.inr ⟨_, hmade, List.mem_singleton_self _⟩)
    exact ⟨Sample.binding, Sample.requests_negated hfact⟩
  exact ⟨hselect, rfl, Sample.readable_negated, hrefuses, hanswers, hanswer, hmatch,
    ground_error_of_refused hselect rfl Sample.readable_negated hrefuses hanswers hanswer hmatch⟩

/-- The same call in an element of a count is never made. -/
theorem ground_ignores_counted_call :
    let h : Handler Unit := FunctionTable.empty.handler
    let p := Sample.programWith [Sample.readVariable, Sample.counted]
    let r := Sample.ruleWith [Sample.readVariable, Sample.counted]
    p.select Sample.parts = .ok ⟨[Sample.fact, r], [], none⟩ ∧ h.Refuses "typo" [.number 1] ∧
      (∃ c ∈ r.counts, ∃ t ∈ c.elements, t.Makes Sample.binding "typo" [.number 1]) ∧
      ∃ g, (ground h p Sample.parts ()).1 = .ok g ∧ r.constraints = [] ∧
        ∀ t ∈ r.positives, ∃ a ∈ g.symbols, t.StandsFor Sample.binding a := by
  intro h p r
  have hanswersBy : h.AnswersBy Sample.unknown := fun _ _ _ => rfl
  have hselect : p.select Sample.parts = _ := Sample.select_programWith rfl
  obtain ⟨made, hexpands⟩ := Sample.expands_of_lists [Sample.readVariable, Sample.counted]
    ⟨_, rfl, .nil⟩ ⟨_, rfl, .cons rfl .nil⟩ ⟨_, rfl, .cons rfl .nil⟩ rfl
  obtain ⟨is, -, hg⟩ := exists_ground_eq_ok hanswersBy hselect hexpands ()
  refine ⟨hselect, hanswersBy.refuses rfl, ⟨_, List.mem_singleton_self _, _,
    List.mem_singleton_self _, Sample.typo_makes⟩, _, hg, rfl, fun t ht => ?_⟩
  obtain rfl := List.mem_singleton.1 ht
  exact ⟨Sample.factAtom, List.mem_cons_of_mem _ List.mem_cons_self, Sample.standsFor_factAtom⟩

end GroundProgram

end Handler

end AnswerSetTest
