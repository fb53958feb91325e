import Mathlib.Data.Set.Subsingleton
import AnswerSetTest.Proofs.AssertionIndex
import AnswerSetTest.Proofs.Traversal

/-!
# Ambiguous assertions

An index is filled by events in any order. What it finds ambiguous is told by three views of its
history: the assertions that were inserted, the symbol that was noted last for each atom, and the
non-empty bodies of each atom as sets of literals. Histories with the same views are told apart by
nothing, so their order does not matter, nor does the spelling of bodies.
-/

namespace AnswerSetTest.AssertionIndex

inductive Event where
  | insert (assertion : Symbol)
  | rule (head : List AtomId) (body : List SignedAtom)
  | output (symbol : Symbol) (a : AtomId)
deriving DecidableEq

def record (x : AssertionIndex) : Event → AssertionIndex
  | .insert s => x.insert s
  | .rule head body => x.recordRule head body
  | .output s a => x.recordOutput s a

def after (es : List Event) : AssertionIndex := es.foldl record .empty

def Event.symbol? (a : AtomId) : Event → Option Symbol
  | .output s b => if b = a then some s else none
  | _ => none

/-- The events that report a non-empty body for an atom. -/
def Event.Derives (a : AtomId) (body : List SignedAtom) : Event → Prop
  | .rule head b => a ∈ head ∧ body ≠ [] ∧ b = body
  | _ => False

def inserted (es : List Event) : Set Symbol := {s | .insert s ∈ es}

/-- The symbol that was noted last for an atom. -/
def noted (es : List Event) (a : AtomId) : Option Symbol :=
  (es.filterMap (Event.symbol? a)).getLast?

/-- The non-empty bodies of the rules with an atom in their head, as sets of literals. -/
def bodiesOf (es : List Event) (a : AtomId) : Set (Set SignedAtom) :=
  {B | ∃ e ∈ es, ∃ body, e.Derives a body ∧ {l | l ∈ body} = B}

/-- The atom of an assertion that has different bodies. -/
def Ambiguous (es : List Event) (a : AtomId) : Prop :=
  (∃ s, noted es a = some s ∧ s ∈ inserted es) ∧ (bodiesOf es a).Nontrivial

/-- Histories that differ in the order of events, but for those that note a symbol for the same
atom, in the spelling of bodies, and in rules without a body. -/
inductive Restates : List Event → List Event → Prop
  | reorder {es fs : List Event} (h : es.Perm fs)
    (hnotes : ∀ a, es.filterMap (Event.symbol? a) = fs.filterMap (Event.symbol? a)) : Restates es fs
  | respell (es fs : List Event) (head : List AtomId) {b c : List SignedAtom}
    (h : ∀ l, l ∈ b ↔ l ∈ c) : Restates (es ++ .rule head b :: fs) (es ++ .rule head c :: fs)
  | bodiless (es fs : List Event) (head : List AtomId) :
    Restates (es ++ fs) (es ++ .rule head [] :: fs)
  | symm {es fs : List Event} (h : Restates es fs) : Restates fs es
  | trans {es fs gs : List Event} (h : Restates es fs) (h' : Restates fs gs) : Restates es gs

structure SameViews (es fs : List Event) : Prop where
  inserted : inserted es = inserted fs
  noted : ∀ a, noted es a = noted fs a
  bodiesOf : ∀ a, bodiesOf es a = bodiesOf fs a

structure Tracks (es : List Event) (x : AssertionIndex) : Prop where
  mem_assertions : ∀ s, s ∈ x.assertions ↔ .insert s ∈ es
  outputs : ∀ a, x.outputs[a]? = noted es a
  mem_bodies : ∀ a b, b ∈ x.bodies.getD a [] ↔
    ∃ e ∈ es, ∃ body, e.Derives a body ∧ bodySet body = b
  nodup_bodies : ∀ a, (x.bodies.getD a []).Nodup

variable {es fs : List Event} {e : Event} {x : AssertionIndex} {a : AtomId} {s : Symbol}

theorem mem_inserted : s ∈ inserted es ↔ .insert s ∈ es := Iff.rfl

theorem mem_bodiesOf {B : Set SignedAtom} :
    B ∈ bodiesOf es a ↔ ∃ e ∈ es, ∃ body, e.Derives a body ∧ {l | l ∈ body} = B := Iff.rfl

theorem mem_bodiesOf_middle {B : Set SignedAtom} : B ∈ bodiesOf (es ++ e :: fs) a ↔
    (∃ body, e.Derives a body ∧ {l | l ∈ body} = B) ∨ B ∈ bodiesOf (es ++ fs) a := by
  simp only [mem_bodiesOf, List.mem_append, List.mem_cons, or_and_right, exists_or,
    exists_eq_left]
  exact or_left_comm

@[simp] theorem Event.symbol?_insert : (Event.insert s).symbol? a = none := rfl

@[simp] theorem Event.symbol?_rule {head : List AtomId} {body : List SignedAtom} :
    (Event.rule head body).symbol? a = none := rfl

@[simp] theorem Event.symbol?_output {d : AtomId} :
    (Event.output s d).symbol? a = if d = a then some s else none := rfl

@[simp] theorem Event.derives_rule {head : List AtomId} {b c : List SignedAtom} :
    (Event.rule head b).Derives a c ↔ a ∈ head ∧ c ≠ [] ∧ b = c := Iff.rfl

@[simp] theorem Event.not_derives_insert {b : List SignedAtom} :
    ¬ (Event.insert s).Derives a b := id

@[simp] theorem Event.not_derives_output {d : AtomId} {b : List SignedAtom} :
    ¬ (Event.output s d).Derives a b := id

theorem noted_append : noted (es ++ [e]) a = (e.symbol? a).or (noted es a) :=
  getLast?_filterMap_concat (Event.symbol? a) es e

namespace Tracks

theorem insert (h : Tracks es x) (s : Symbol) : Tracks (es ++ [.insert s]) (x.insert s) where
  mem_assertions t := by
    simp [AssertionIndex.insert, h.mem_assertions, or_comm]
  outputs a := by
    rw [noted_append]
    exact h.outputs a
  mem_bodies a b := by
    rw [AssertionIndex.insert, h.mem_bodies]
    simp
  nodup_bodies := h.nodup_bodies

theorem rule (h : Tracks es x) (head : List AtomId) (body : List SignedAtom) :
    Tracks (es ++ [.rule head body]) (x.recordRule head body) where
  mem_assertions t := by simp [h.mem_assertions]
  outputs a := by
    rw [outputs_recordRule, h.outputs, noted_append]
    rfl
  mem_bodies a b := by
    have hlast : (body ≠ [] ∧ a ∈ head ∧ b = bodySet body) ↔
        ∃ c, (Event.rule head body).Derives a c ∧ bodySet c = b := by
      constructor
      · rintro ⟨hbody, ha, rfl⟩
        exact ⟨body, ⟨ha, hbody, rfl⟩, rfl⟩
      · rintro ⟨_, ⟨ha, hbody, rfl⟩, rfl⟩
        exact ⟨hbody, ha, rfl⟩
    rw [mem_bodies_recordRule, h.mem_bodies, hlast]
    simp only [List.mem_append, List.mem_singleton, or_and_right, exists_or, exists_eq_left]
  nodup_bodies a := nodup_bodies_recordRule (h.nodup_bodies a)

theorem output (h : Tracks es x) (s : Symbol) (d : AtomId) :
    Tracks (es ++ [.output s d]) (x.recordOutput s d) where
  mem_assertions t := by simp [recordOutput, h.mem_assertions]
  outputs a := by
    rw [getElem?_outputs_recordOutput, h.outputs, noted_append, Event.symbol?_output]
    split <;> rfl
  mem_bodies a b := by
    rw [recordOutput, h.mem_bodies]
    simp
  nodup_bodies := h.nodup_bodies

theorem after (es : List Event) : Tracks es (after es) := by
  induction es using List.reverseRecOn with
  | nil =>
    exact {
      mem_assertions := by simp [AssertionIndex.after, AssertionIndex.empty]
      outputs := fun _ => rfl
      mem_bodies := by simp [AssertionIndex.after, AssertionIndex.empty]
      nodup_bodies := by simp [AssertionIndex.after, AssertionIndex.empty] }
  | append_singleton es e ih =>
    rw [AssertionIndex.after, List.foldl_concat]
    cases e with
    | insert s => exact ih.insert s
    | rule head body => exact ih.rule head body
    | output s a => exact ih.output s a

theorem one_lt_distinctBodies_iff (h : Tracks es x) (a : AtomId) :
    1 < x.distinctBodies a ↔ (bodiesOf es a).Nontrivial := by
  have hset : ∀ {b c : List SignedAtom},
      bodySet b = bodySet c ↔ {l | l ∈ b} = {l | l ∈ c} := fun {b c} => by
    rw [bodySet_eq_iff, Set.ext_iff]
    rfl
  rw [AssertionIndex.one_lt_distinctBodies_iff (h.nodup_bodies a)]
  simp only [h.mem_bodies]
  constructor
  · rintro ⟨_, ⟨e, he, b, hb, rfl⟩, _, ⟨f, hf, c, hc, rfl⟩, hbc⟩
    exact ⟨_, ⟨e, he, b, hb, rfl⟩, _, ⟨f, hf, c, hc, rfl⟩, fun heq => hbc (hset.2 heq)⟩
  · rintro ⟨_, ⟨e, he, b, hb, rfl⟩, _, ⟨f, hf, c, hc, rfl⟩, hbc⟩
    exact ⟨_, ⟨e, he, b, hb, rfl⟩, _, ⟨f, hf, c, hc, rfl⟩, fun heq => hbc (hset.1 heq)⟩

theorem flags_iff (h : Tracks es x) : x.Flags a s ↔ Ambiguous es a ∧ noted es a = some s := by
  rw [Flags, h.outputs, h.mem_assertions, h.one_lt_distinctBodies_iff, Ambiguous]
  constructor
  · rintro ⟨hs, hmem, hbodies⟩
    exact ⟨⟨⟨s, hs, hmem⟩, hbodies⟩, hs⟩
  · rintro ⟨⟨⟨t, ht, hmem⟩, hbodies⟩, hs⟩
    obtain rfl := Option.some.inj (ht.symm.trans hs)
    exact ⟨hs, hmem, hbodies⟩

theorem ambiguous?_eq_some_iff (h : Tracks es x) : x.ambiguous? = some s ↔
    ∃ a, Ambiguous es a ∧ (∀ b, Ambiguous es b → a ≤ b) ∧ noted es a = some s := by
  rw [AssertionIndex.ambiguous?_eq_some_iff]
  simp only [h.flags_iff]
  constructor
  · rintro ⟨a, ⟨ha, hs⟩, hleast⟩
    refine ⟨a, ha, fun b hb => ?_, hs⟩
    obtain ⟨t, ht, -⟩ := hb.1
    exact hleast b t ⟨hb, ht⟩
  · rintro ⟨a, ha, hleast, hs⟩
    exact ⟨a, ⟨ha, hs⟩, fun b t hb => hleast b hb.1⟩

theorem isSome_ambiguous?_iff (h : Tracks es x) :
    x.ambiguous?.isSome ↔ ∃ a, Ambiguous es a := by
  rw [← not_iff_not, Option.not_isSome_iff_eq_none, ambiguous?_eq_none_iff, not_exists]
  constructor
  · intro hnone a ha
    obtain ⟨s, hs, -⟩ := ha.1
    obtain ⟨hout, hmem, hlt⟩ := h.flags_iff.2 ⟨ha, hs⟩
    exact hnone a s hout hmem hlt
  · exact fun hnone a s hout hmem hlt => hnone a (h.flags_iff.1 ⟨hout, hmem, hlt⟩).1

end Tracks

namespace SameViews

theorem ambiguous_iff (h : SameViews es fs) (a : AtomId) : Ambiguous es a ↔ Ambiguous fs a := by
  rw [Ambiguous, Ambiguous, h.inserted, h.noted, h.bodiesOf]

theorem ambiguous?_eq (h : SameViews es fs) :
    (after es).ambiguous? = (after fs).ambiguous? := by
  refine Option.ext fun s => ?_
  rw [(Tracks.after es).ambiguous?_eq_some_iff, (Tracks.after fs).ambiguous?_eq_some_iff]
  simp only [h.ambiguous_iff, h.noted]

theorem respell (es fs : List Event) (head : List AtomId) {b c : List SignedAtom}
    (h : ∀ l, l ∈ b ↔ l ∈ c) :
    SameViews (es ++ .rule head b :: fs) (es ++ .rule head c :: fs) where
  inserted := Set.ext fun s => by simp [mem_inserted]
  noted a := by simp [AssertionIndex.noted]
  bodiesOf a := by
    have hset : {l | l ∈ b} = {l | l ∈ c} := Set.ext h
    have hnil : b = [] ↔ c = [] := by simp only [List.eq_nil_iff_forall_not_mem, h]
    have hrule : ∀ (B : Set SignedAtom) (d : List SignedAtom),
        (∃ body, (Event.rule head d).Derives a body ∧ {l | l ∈ body} = B) ↔
          a ∈ head ∧ d ≠ [] ∧ {l | l ∈ d} = B := by
      intro B d
      constructor
      · rintro ⟨_, ⟨ha, hd, rfl⟩, hB⟩
        exact ⟨ha, hd, hB⟩
      · rintro ⟨ha, hd, hB⟩
        exact ⟨d, ⟨ha, hd, rfl⟩, hB⟩
    ext B
    rw [mem_bodiesOf_middle, mem_bodiesOf_middle, hrule, hrule, hset, ne_eq, hnil]

theorem bodiless (es fs : List Event) (head : List AtomId) :
    SameViews (es ++ fs) (es ++ .rule head [] :: fs) where
  inserted := Set.ext fun s => by simp [mem_inserted]
  noted a := by simp [AssertionIndex.noted]
  bodiesOf a := by
    ext B
    rw [mem_bodiesOf_middle]
    refine (or_iff_right ?_).symm
    rintro ⟨_, ⟨-, hne, rfl⟩, -⟩
    exact hne rfl

end SameViews

theorem Restates.sameViews (h : Restates es fs) : SameViews es fs := by
  induction h with
  | reorder h hnotes =>
    exact {
      inserted := Set.ext fun s => by rw [mem_inserted, mem_inserted, h.mem_iff]
      noted := fun a => congrArg List.getLast? (hnotes a)
      bodiesOf := fun a => Set.ext fun B => by simp only [mem_bodiesOf, h.mem_iff] }
  | respell es fs head h => exact .respell es fs head h
  | bodiless es fs head => exact .bodiless es fs head
  | symm _ ih => exact ⟨ih.inserted.symm, fun a => (ih.noted a).symm, fun a => (ih.bodiesOf a).symm⟩
  | trans _ _ ih ih' =>
    exact ⟨ih.inserted.trans ih'.inserted, fun a => (ih.noted a).trans (ih'.noted a),
      fun a => (ih.bodiesOf a).trans (ih'.bodiesOf a)⟩

/-- An index finds an ambiguous assertion just if there is one, that of the least atom, however its
history is told. -/
theorem ambiguous?_exact (es : List Event) :
    ((after es).ambiguous?.isSome ↔ ∃ a, Ambiguous es a) ∧
    (∀ s, (after es).ambiguous? = some s ↔
      ∃ a, Ambiguous es a ∧ (∀ b, Ambiguous es b → a ≤ b) ∧ noted es a = some s) ∧
    ∀ fs, Restates es fs → (after fs).ambiguous? = (after es).ambiguous? := by
  have h := Tracks.after es
  exact ⟨h.isSome_ambiguous?_iff, fun _ => h.ambiguous?_eq_some_iff,
    fun _ hfs => hfs.sameViews.ambiguous?_eq.symm⟩

theorem ambiguous?_exact_sample :
    let s : Symbol := .function "assert" [.text "A"]
    let es : List Event := [.output s 3, .rule [3] [1, 2], .rule [3] [5], .insert s]
    let fs : List Event :=
      [.insert s, .rule [3] [5], .rule [3] [2, 1, 2], .rule [3] [], .output s 3]
    Restates es fs ∧ (after fs).ambiguous? = some s := by
  intro s es fs
  have hnoted : ∀ a, noted es a = if 3 = a then some s else none := by
    intro a
    by_cases h : 3 = a <;> simp [noted, es, List.filterMap_cons, h]
  have horder : Restates es [.insert s, .rule [3] [5], .rule [3] [1, 2], .output s 3] :=
    .reorder (by decide) fun a => by simp [es, List.filterMap_cons]
  have hbody := Restates.respell [.insert s, .rule [3] [5]] [.output s 3] [3]
    (b := [1, 2]) (c := [2, 1, 2]) (by simp)
  have hfs : Restates es fs := (horder.trans hbody).trans
    (.bodiless [.insert s, .rule [3] [5], .rule [3] [2, 1, 2]] [.output s 3] [3])
  have hambiguous : Ambiguous es 3 := by
    refine ⟨⟨s, hnoted 3, by simp [mem_inserted, es]⟩, {l | l ∈ [1, 2]}, ?_, {l | l ∈ [5]}, ?_, ?_⟩
    · exact ⟨.rule [3] [1, 2], by simp [es], [1, 2], by simp, rfl⟩
    · exact ⟨.rule [3] [5], by simp [es], [5], by simp, rfl⟩
    · exact fun h => absurd ((Set.ext_iff.1 h 1).1 (by simp)) (by simp)
  have hleast : ∀ b, Ambiguous es b → 3 ≤ b := by
    rintro b ⟨⟨t, ht, -⟩, -⟩
    rw [hnoted, Option.ite_none_right_eq_some] at ht
    exact ht.1.le
  obtain ⟨-, hfound, hsame⟩ := ambiguous?_exact es
  exact ⟨hfs, (hsame fs hfs).trans ((hfound s).2 ⟨3, hambiguous, hleast, hnoted 3⟩)⟩

end AnswerSetTest.AssertionIndex
