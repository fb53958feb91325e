import AnswerSetTest.Tester
import AnswerSetTest.Proofs.AssertionIndex
import AnswerSetTest.Proofs.Engine.Events
import AnswerSetTest.Proofs.Traversal

/-!
# Testers and events

What a tester knows after the events of a grounding, in terms of the events alone: which assertions
are required and wanted, the count that was declared last, and the bodies and symbols of atoms.
-/

namespace AnswerSetTest

namespace Handler.Event

/-- The events that require an assertion of every model. -/
inductive Requires : Event → Symbol → Prop
  | all {args : List Symbol} {value s : Symbol} (h : createAssertion args = .ok (value, s)) :
    Requires (.call "all" args) s
  | models {n : Int64} (h : ¬ n < 0) :
    Requires (.call "models" [.number n]) (.function "assert" [.function "models" [.number n]])

/-- The events that want an assertion in some model. -/
inductive Wants : Event → Symbol → Prop
  | any {args : List Symbol} {value s : Symbol} (h : createAssertion args = .ok (value, s)) :
    Wants (.call "any" args) s

/-- The events that report a body for an atom. -/
inductive Derives : Event → AtomId → List SignedAtom → Prop
  | rule {choice : Bool} {head : List AtomId} {body : List SignedAtom} {a : AtomId}
    (hbody : body ≠ []) (ha : a ∈ head) : Derives (.rule choice head body) a body

/-- The count that an accepted call of `@models` declares. -/
def count? : Event → Option Nat
  | .call name [.number n] => if name = "models" ∧ ¬ n < 0 then some n.toInt.toNat else none
  | _ => none

def symbol? (a : AtomId) : Event → Option Symbol
  | .output s b => if b = a then some s else none
  | _ => none

variable {name : String} {args : List Symbol} {s : Symbol} {a b : AtomId}
  {body : List SignedAtom}

theorem requires_call_iff : Requires (.call name args) s ↔
    (name = "all" ∧ ∃ value, createAssertion args = .ok (value, s)) ∨
      (name = "models" ∧ ∃ n : Int64, args = [.number n] ∧ ¬ n < 0 ∧
        s = .function "assert" [.function "models" [.number n]]) := by
  constructor
  · rintro (h | h)
    · exact .inl ⟨rfl, _, h⟩
    · exact .inr ⟨rfl, _, rfl, h, rfl⟩
  · rintro (⟨rfl, value, h⟩ | ⟨rfl, n, rfl, h, rfl⟩)
    · exact .all h
    · exact .models h

theorem wants_call_iff : Wants (.call name args) s ↔
    name = "any" ∧ ∃ value, createAssertion args = .ok (value, s) := by
  constructor
  · rintro ⟨h⟩
    exact ⟨rfl, _, h⟩
  · rintro ⟨rfl, value, h⟩
    exact .any h

theorem derives_rule_iff {choice : Bool} {head : List AtomId} {c : List SignedAtom} :
    Derives (.rule choice head body) a c ↔ body ≠ [] ∧ a ∈ head ∧ c = body := by
  constructor
  · rintro ⟨hbody, ha⟩
    exact ⟨hbody, ha, rfl⟩
  · rintro ⟨hbody, ha, rfl⟩
    exact .rule hbody ha

theorem count?_of_ne (h : name ≠ "models") : count? (.call name args) = none := by
  unfold count?
  split
  · next heq =>
    cases heq
    exact if_neg fun hc => h hc.1
  · rfl

theorem count?_of_not_number (h : ∀ n, args ≠ [.number n]) : count? (.call name args) = none := by
  unfold count?
  split
  · next n heq =>
    cases heq
    exact absurd rfl (h n)
  · rfl

end Handler.Event

open Handler (Event)

namespace Tester

def Required (es : List Event) (s : Symbol) : Prop := ∃ e ∈ es, e.Requires s

def Wanted (es : List Event) (s : Symbol) : Prop := ∃ e ∈ es, e.Wants s

def Derived (es : List Event) (a : AtomId) (body : List SignedAtom) : Prop :=
  ∃ e ∈ es, e.Derives a body

/-- The count of the last accepted call of `@models`. -/
def declared (es : List Event) : Option Nat := (es.filterMap Event.count?).getLast?

/-- The symbol that was reported last for an atom. -/
def reported (es : List Event) (a : AtomId) : Option Symbol :=
  (es.filterMap (Event.symbol? a)).getLast?

/-- A symbol that was reported for an atom with two bodies, which are told apart as sets of
literals. -/
def Ambiguous (es : List Event) (s : Symbol) : Prop :=
  ∃ a, reported es a = some s ∧ ∃ b c, Derived es a b ∧ Derived es a c ∧ ¬ ∀ l, l ∈ b ↔ l ∈ c

structure Updates (e : Event) (t t' : Tester) : Prop where
  assertions_ascending : t.index.assertions.Pairwise (· < ·) →
    t'.index.assertions.Pairwise (· < ·)
  mem_assertions : ∀ s, s ∈ t'.index.assertions ↔ s ∈ t.index.assertions ∨ e.Requires s
  mem_pending : ∀ s, s ∈ t'.pending ↔ s ∈ t.pending ∨ e.Wants s
  expected : t'.expected = e.count?.or t.expected
  outputs : ∀ a, t'.index.outputs[a]? = (e.symbol? a).or t.index.outputs[a]?
  mem_bodies : ∀ a b, b ∈ t'.index.bodies.getD a [] ↔
    b ∈ t.index.bodies.getD a [] ∨ ∃ body, e.Derives a body ∧ b = AssertionIndex.bodySet body
  nodup_bodies : ∀ a, (t.index.bodies.getD a []).Nodup → (t'.index.bodies.getD a []).Nodup
  frame : t' = { t with
    index := t'.index
    pending := t'.pending
    expected := t'.expected
    warnings := t'.warnings }

/-- What a tester knows after events and before any model. -/
structure Tracks (start : Tester) (es : List Event) (t : Tester) : Prop where
  assertions_ascending : t.index.assertions.Pairwise (· < ·)
  mem_assertions : ∀ s, s ∈ t.index.assertions ↔ Required es s
  mem_pending : ∀ s, s ∈ t.pending ↔ Wanted es s
  expected : t.expected = declared es
  outputs : ∀ a, t.index.outputs[a]? = reported es a
  mem_bodies : ∀ a b, b ∈ t.index.bodies.getD a [] ↔
    ∃ body, Derived es a body ∧ b = AssertionIndex.bodySet body
  nodup_bodies : ∀ a, (t.index.bodies.getD a []).Nodup
  seen : t.seen = 0
  phase : t.phase = .collecting
  unit : t.unit = start.unit
  file : t.file = start.file
  options : t.options = start.options

theorem required_append {es : List Event} {e : Event} {s : Symbol} :
    Required (es ++ [e]) s ↔ Required es s ∨ e.Requires s := by
  simp [Required, or_and_right, exists_or]

theorem wanted_append {es : List Event} {e : Event} {s : Symbol} :
    Wanted (es ++ [e]) s ↔ Wanted es s ∨ e.Wants s := by
  simp [Wanted, or_and_right, exists_or]

theorem derived_append {es : List Event} {e : Event} {a : AtomId} {body : List SignedAtom} :
    Derived (es ++ [e]) a body ↔ Derived es a body ∨ e.Derives a body := by
  simp [Derived, or_and_right, exists_or]

theorem declared_append {es : List Event} {e : Event} :
    declared (es ++ [e]) = e.count?.or (declared es) :=
  getLast?_filterMap_concat Event.count? es e

theorem reported_append {es : List Event} {e : Event} {a : AtomId} :
    reported (es ++ [e]) a = (e.symbol? a).or (reported es a) :=
  getLast?_filterMap_concat (Event.symbol? a) es e

section Calls

variable {args : List Symbol} {value s : Symbol} {t : Tester}

theorem all_of_ok (h : createAssertion args = .ok (value, s)) :
    (all args).run t = (.ok value, { t with index := t.index.insert s }) := by
  rw [all, h]
  rfl

theorem all_of_error {message : String} (h : createAssertion args = .error message) :
    (all args).run t = (.error message, t) := by
  rw [all, h]
  rfl

theorem any_of_ok (h : createAssertion args = .ok (value, s)) : ∃ pending warnings,
    (any args).run t = (.ok value, { t with pending, warnings }) ∧
      ∀ x, x ∈ pending ↔ x ∈ t.pending ∨ x = s := by
  rw [any, h]
  by_cases hs : s ∈ t.pending
  · refine ⟨t.pending,
      t.warnings ++ ["duplicate assert: " ++ s.display ++ " in " ++ t.unit], ?_, ?_⟩
    · change (Except.ok value, if s ∈ t.pending then _ else _) = _
      rw [if_pos hs]
    · exact fun x => ⟨.inl, fun hx => hx.elim id fun hx => hx ▸ hs⟩
  · refine ⟨Atoms.insert s t.pending, t.warnings, ?_, fun x => ?_⟩
    · change (Except.ok value, if s ∈ t.pending then _ else _) = _
      rw [if_neg hs]
    · rw [Atoms.mem_insert, or_comm]

theorem any_of_error {message : String} (h : createAssertion args = .error message) :
    (any args).run t = (.error message, t) := by
  rw [any, h]
  rfl

theorem models_of_not_neg {n : Int64} (h : ¬ n < 0) : (models [.number n]).run t =
    (.ok (.function "models" [.number n]),
      { t with
        expected := some n.toInt.toNat
        index := t.index.insert (.function "assert" [.function "models" [.number n]]) }) := by
  rw [models, if_neg h]
  rfl

theorem models_of_neg {n : Int64} (h : n < 0) : ((models [.number n]).run t).2 = t := by
  rw [models, if_pos h]
  rfl

theorem models_of_not_number (h : ∀ n, args ≠ [.number n]) : ((models args).run t).2 = t := by
  rw [models.eq_2 _ h]
  rfl

theorem call_of_other {name : String} (hall : name ≠ "all") (hany : name ≠ "any")
    (hmodels : name ≠ "models") : ((call name args).run t).2 = t := by
  have h : function? name = none := by
    unfold function?
    split <;> trivial
  rw [call, h]
  rfl

end Calls

section Updates

variable {args : List Symbol} {t : Tester}

theorem updates_call {name : String} {t' : Tester}
    (hassertions : t.index.assertions.Pairwise (· < ·) → t'.index.assertions.Pairwise (· < ·))
    (hrequires : ∀ s, s ∈ t'.index.assertions ↔
      s ∈ t.index.assertions ∨ Event.Requires (.call name args) s)
    (hwants : ∀ s, s ∈ t'.pending ↔ s ∈ t.pending ∨ Event.Wants (.call name args) s)
    (hcount : t'.expected = (Event.count? (.call name args)).or t.expected)
    (hbodies : t'.index.bodies = t.index.bodies) (houtputs : t'.index.outputs = t.index.outputs)
    (hframe : t' = { t with
      index := t'.index
      pending := t'.pending
      expected := t'.expected
      warnings := t'.warnings }) : Updates (.call name args) t t' where
  assertions_ascending := hassertions
  mem_assertions := hrequires
  mem_pending := hwants
  expected := hcount
  outputs a := by
    rw [houtputs]
    rfl
  mem_bodies a b := by
    rw [hbodies]
    exact ⟨.inl, fun h => h.elim id fun ⟨_, h, _⟩ => nomatch h⟩
  nodup_bodies a := by
    rw [hbodies]
    exact id
  frame := hframe

theorem updates_self {name : String} (hr : ∀ s, ¬ Event.Requires (.call name args) s)
    (hw : ∀ s, ¬ Event.Wants (.call name args) s) (hc : Event.count? (.call name args) = none) :
    Updates (.call name args) t t :=
  updates_call id (by simp [hr]) (by simp [hw]) (by simp [hc]) rfl rfl rfl

theorem updates_all : Updates (.call "all" args) t ((all args).run t).2 := by
  have hcount : Event.count? (.call "all" args) = none := Event.count?_of_ne (by decide)
  cases h : createAssertion args with
  | error message =>
    rw [all_of_error h]
    exact updates_self (by simp [Event.requires_call_iff, h])
      (by simp [Event.wants_call_iff]) hcount
  | ok c =>
    obtain ⟨value, s⟩ := c
    rw [all_of_ok h]
    refine updates_call Atoms.pairwise_insert ?_ (by simp [Event.wants_call_iff])
      (by simp [hcount]) rfl rfl rfl
    simp [AssertionIndex.insert, Event.requires_call_iff, h, or_comm, eq_comm]

theorem updates_any : Updates (.call "any" args) t ((any args).run t).2 := by
  have hcount : Event.count? (.call "any" args) = none := Event.count?_of_ne (by decide)
  cases h : createAssertion args with
  | error message =>
    rw [any_of_error h]
    exact updates_self (by simp [Event.requires_call_iff])
      (by simp [Event.wants_call_iff, h]) hcount
  | ok c =>
    obtain ⟨value, s⟩ := c
    obtain ⟨pending, warnings, hrun, hpending⟩ := any_of_ok (t := t) h
    rw [hrun]
    refine updates_call id (by simp [Event.requires_call_iff]) ?_ (by simp [hcount]) rfl rfl rfl
    simp [hpending, Event.wants_call_iff, h, eq_comm]

theorem updates_models : Updates (.call "models" args) t ((models args).run t).2 := by
  by_cases hargs : ∃ n, args = [.number n]
  · obtain ⟨n, rfl⟩ := hargs
    by_cases hn : n < 0
    · rw [models_of_neg hn]
      refine updates_self ?_ (by simp [Event.wants_call_iff]) (by simp [Event.count?, hn])
      simp [Event.requires_call_iff, hn]
    · rw [models_of_not_neg hn]
      have hrequires : ∀ s, Event.Requires (.call "models" [.number n]) s ↔
          s = .function "assert" [.function "models" [.number n]] := by
        intro s
        rw [Event.requires_call_iff]
        simp [Int64.not_lt.1 hn]
      refine updates_call Atoms.pairwise_insert ?_ (by simp [Event.wants_call_iff])
        (by simp [Event.count?, hn]) rfl rfl rfl
      simp [AssertionIndex.insert, hrequires, or_comm]
  · have hne : ∀ n, args ≠ [.number n] := fun n hn => hargs ⟨n, hn⟩
    rw [models_of_not_number hne]
    refine updates_self ?_ (by simp [Event.wants_call_iff]) (Event.count?_of_not_number hne)
    simp [Event.requires_call_iff, hne]

theorem updates_rule (choice : Bool) (head : List AtomId) (body : List SignedAtom) :
    Updates (.rule choice head body) t { t with index := t.index.recordRule head body } where
  assertions_ascending h := by simpa using h
  mem_assertions s := by simpa using fun h : Event.Requires _ s => nomatch h
  mem_pending s := by simpa using fun h : Event.Wants _ s => nomatch h
  expected := rfl
  outputs a := by simp [Event.symbol?]
  mem_bodies a b := by
    rw [AssertionIndex.mem_bodies_recordRule]
    simp [Event.derives_rule_iff, and_assoc]
  nodup_bodies _ := AssertionIndex.nodup_bodies_recordRule
  frame := rfl

theorem updates_output (symbol : Symbol) (d : AtomId) :
    Updates (.output symbol d) t { t with index := t.index.recordOutput symbol d } where
  assertions_ascending := id
  mem_assertions s := ⟨.inl, fun h => h.elim id fun h => nomatch h⟩
  mem_pending s := ⟨.inl, fun h => h.elim id fun h => nomatch h⟩
  expected := rfl
  outputs a := by
    rw [AssertionIndex.getElem?_outputs_recordOutput, Event.symbol?]
    split <;> rfl
  mem_bodies a b := ⟨.inl, fun h => h.elim id fun ⟨_, h, _⟩ => nomatch h⟩
  nodup_bodies _ := id
  frame := rfl

theorem updates_handle (e : Event) (t : Tester) : Updates e t (handler.handle t e) := by
  cases e with
  | call name args =>
    by_cases hall : name = "all"
    · subst hall
      exact updates_all
    by_cases hany : name = "any"
    · subst hany
      exact updates_any
    by_cases hmodels : name = "models"
    · subst hmodels
      exact updates_models
    have hcall : handler.handle t (.call name args) = t := call_of_other hall hany hmodels
    rw [hcall]
    exact updates_self (by simp [Event.requires_call_iff, hall, hmodels])
      (by simp [Event.wants_call_iff, hany]) (Event.count?_of_ne hmodels)
  | rule choice head body => exact updates_rule choice head body
  | output symbol a => exact updates_output symbol a

end Updates

namespace Tracks

variable {start t : Tester} {es : List Event}

theorem append {e : Event} {t' : Tester} (h : Tracks start es t) (u : Updates e t t') :
    Tracks start (es ++ [e]) t' where
  assertions_ascending := u.assertions_ascending h.assertions_ascending
  mem_assertions s := by rw [u.mem_assertions, h.mem_assertions, required_append]
  mem_pending s := by rw [u.mem_pending, h.mem_pending, wanted_append]
  expected := by rw [u.expected, h.expected, declared_append]
  outputs a := by rw [u.outputs, h.outputs, reported_append]
  mem_bodies a b := by
    simp only [u.mem_bodies, h.mem_bodies, derived_append, or_and_right, exists_or]
  nodup_bodies a := u.nodup_bodies a (h.nodup_bodies a)
  seen := by rw [u.frame, h.seen]
  phase := by rw [u.frame, h.phase]
  unit := by rw [u.frame, h.unit]
  file := by rw [u.frame, h.file]
  options := by rw [u.frame, h.options]

theorem handleAll (unit file : String) (options : TesterOptions) (es : List Event) :
    Tracks (.new unit file options) es (handler.handleAll (.new unit file options) es) := by
  induction es using List.reverseRecOn with
  | nil =>
    exact {
      assertions_ascending := .nil
      mem_assertions := by simp [Handler.handleAll, Tester.new, AssertionIndex.empty, Required]
      mem_pending := by simp [Handler.handleAll, Tester.new, Wanted]
      expected := rfl
      outputs := by simp [Handler.handleAll, Tester.new, AssertionIndex.empty, reported]
      mem_bodies := by simp [Handler.handleAll, Tester.new, AssertionIndex.empty, Derived]
      nodup_bodies := by simp [Handler.handleAll, Tester.new, AssertionIndex.empty]
      seen := rfl
      phase := rfl
      unit := rfl
      file := rfl
      options := rfl }
  | append_singleton es e ih =>
    rw [Handler.handleAll_append]
    exact ih.append (updates_handle e _)

theorem one_lt_distinctBodies_iff (h : Tracks start es t) (a : AtomId) :
    1 < t.index.distinctBodies a ↔
      ∃ b c, Derived es a b ∧ Derived es a c ∧ ¬ ∀ l, l ∈ b ↔ l ∈ c := by
  rw [AssertionIndex.one_lt_distinctBodies_iff (h.nodup_bodies a)]
  simp only [h.mem_bodies]
  constructor
  · rintro ⟨_, ⟨b, hb, rfl⟩, _, ⟨c, hc, rfl⟩, hne⟩
    exact ⟨b, c, hb, hc, fun heq => hne (AssertionIndex.bodySet_eq_iff.2 heq)⟩
  · rintro ⟨b, c, hb, hc, hne⟩
    exact ⟨_, ⟨b, hb, rfl⟩, _, ⟨c, hc, rfl⟩, fun heq => hne (AssertionIndex.bodySet_eq_iff.1 heq)⟩

theorem ambiguous?_eq_none_iff (h : Tracks start es t) :
    t.index.ambiguous? = none ↔ ∀ s, Required es s → ¬ Ambiguous es s := by
  rw [AssertionIndex.ambiguous?_eq_none_iff]
  simp only [h.outputs, h.mem_assertions, h.one_lt_distinctBodies_iff, Ambiguous, not_exists,
    not_and]
  exact ⟨fun hn s hs a ha => hn a s ha hs, fun hn a s ha hs => hn s hs a ha⟩

end Tracks

end Tester

end AnswerSetTest
