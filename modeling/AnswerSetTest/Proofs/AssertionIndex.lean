import Mathlib.Data.Finset.Card
import Std.Data.TreeMap.Lemmas
import AnswerSetTest.AssertionIndex
import AnswerSetTest.Proofs.Ground.Ascending

/-!
# Assertion indices

What an index knows after a rule or an atom was reported, and when none of its assertions is
ambiguous. Bodies are equal as sets of literals.
-/

namespace AnswerSetTest.AssertionIndex

variable {x : AssertionIndex} {a : AtomId}

theorem bodySet_eq_iff {b c : List SignedAtom} : bodySet b = bodySet c ↔ ∀ l, l ∈ b ↔ l ∈ c :=
  ascending_eq_iff

theorem getD_addBody (bodies : Std.TreeMap AtomId (List (List SignedAtom))) (c : List SignedAtom)
    (d : AtomId) : (addBody c bodies d).getD a [] =
      if d = a then appendNew (bodies.getD a []) c else bodies.getD a [] := by
  rw [addBody, Std.TreeMap.getD_insert]
  by_cases h : d = a
  · subst h
    simp
  · simp [h]

theorem mem_getD_foldl_addBody {head : List AtomId} {b c : List SignedAtom}
    {bodies : Std.TreeMap AtomId (List (List SignedAtom))} :
    b ∈ (head.foldl (addBody c) bodies).getD a [] ↔ b ∈ bodies.getD a [] ∨ a ∈ head ∧ b = c := by
  induction head generalizing bodies with
  | nil => simp
  | cons d head ih =>
    rw [List.foldl_cons, ih, getD_addBody]
    by_cases h : d = a
    · subst h
      simp only [if_true, mem_appendNew, List.mem_cons, true_or, true_and]
      tauto
    · simp [h, Ne.symm h]

theorem nodup_getD_foldl_addBody {head : List AtomId} {c : List SignedAtom}
    {bodies : Std.TreeMap AtomId (List (List SignedAtom))} (h : (bodies.getD a []).Nodup) :
    ((head.foldl (addBody c) bodies).getD a []).Nodup := by
  induction head generalizing bodies with
  | nil => exact h
  | cons d head ih =>
    apply ih
    rw [getD_addBody]
    split
    · exact nodup_appendNew h c
    · exact h

theorem mem_bodies_recordRule {head : List AtomId} {body b : List SignedAtom} :
    b ∈ (x.recordRule head body).bodies.getD a [] ↔
      b ∈ x.bodies.getD a [] ∨ body ≠ [] ∧ a ∈ head ∧ b = bodySet body := by
  rw [recordRule]
  cases body with
  | nil => simp
  | cons l body =>
    rw [if_neg (by simp), mem_getD_foldl_addBody]
    simp

theorem nodup_bodies_recordRule {head : List AtomId} {body : List SignedAtom}
    (h : (x.bodies.getD a []).Nodup) :
    ((x.recordRule head body).bodies.getD a []).Nodup := by
  rw [recordRule]
  split
  · exact h
  · exact nodup_getD_foldl_addBody h

@[simp] theorem assertions_recordRule (head : List AtomId) (body : List SignedAtom) :
    (x.recordRule head body).assertions = x.assertions := by
  rw [recordRule]
  split <;> rfl

@[simp] theorem outputs_recordRule (head : List AtomId) (body : List SignedAtom) :
    (x.recordRule head body).outputs = x.outputs := by
  rw [recordRule]
  split <;> rfl

theorem getElem?_outputs_recordOutput (s : Symbol) (d : AtomId) :
    (x.recordOutput s d).outputs[a]? = if d = a then some s else x.outputs[a]? := by
  rw [recordOutput, Std.TreeMap.getElem?_insert]
  simp

theorem one_lt_distinctBodies_iff (h : (x.bodies.getD a []).Nodup) :
    1 < x.distinctBodies a ↔ ∃ b ∈ x.bodies.getD a [], ∃ c ∈ x.bodies.getD a [], b ≠ c := by
  rw [distinctBodies, ← List.toFinset_card_of_nodup h, Finset.one_lt_card]
  simp only [List.mem_toFinset]

theorem ambiguous?_eq_none_iff : x.ambiguous? = none ↔
    ∀ a s, x.outputs[a]? = some s → s ∈ x.assertions → ¬ 1 < x.distinctBodies a := by
  simp only [ambiguous?, Option.map_eq_none_iff, List.find?_eq_none, Prod.forall,
    Std.TreeMap.mem_toList_iff_getElem?_eq_some, Bool.and_eq_true, decide_eq_true_eq, contains]
  exact forall₂_congr fun a s => ⟨fun h ho hs hlt => h ho ⟨hlt, hs⟩, fun h ho hc => h ho hc.2 hc.1⟩

theorem find?_eq_some_iff_of_pairwise {α : Type} {r : α → α → Prop}
    (hr : ∀ x y, r x y → ¬ r y x) {p : α → Bool} {xs : List α} (h : xs.Pairwise r) {x : α} :
    xs.find? p = some x ↔ x ∈ xs ∧ p x ∧ ∀ y ∈ xs, p y → x = y ∨ r x y := by
  induction xs with
  | nil => simp
  | cons z xs ih =>
    obtain ⟨hz, hxs⟩ := List.pairwise_cons.1 h
    by_cases hp : p z
    · rw [List.find?_cons_of_pos hp, Option.some.injEq]
      constructor
      · rintro rfl
        refine ⟨List.mem_cons_self, hp, fun y hy _ => ?_⟩
        exact (List.mem_cons.1 hy).imp Eq.symm (hz y)
      · rintro ⟨hx, -, hleast⟩
        rcases List.mem_cons.1 hx with rfl | hx
        · rfl
        · rcases hleast z List.mem_cons_self hp with rfl | hxz
          · rfl
          · exact absurd hxz (hr z x (hz x hx))
    · rw [List.find?_cons_of_neg hp, ih hxs]
      refine ⟨fun ⟨hx, hpx, hleast⟩ => ⟨List.mem_cons_of_mem z hx, hpx, ?_⟩,
        fun ⟨hx, hpx, hleast⟩ => ⟨?_, hpx, fun y hy => hleast y (List.mem_cons_of_mem z hy)⟩⟩
      · exact List.forall_mem_cons.2 ⟨fun hpz => absurd hpz hp, hleast⟩
      · refine (List.mem_cons.1 hx).resolve_left ?_
        rintro rfl
        exact hp hpx

def Flags (x : AssertionIndex) (a : AtomId) (s : Symbol) : Prop :=
  x.outputs[a]? = some s ∧ s ∈ x.assertions ∧ 1 < x.distinctBodies a

theorem ambiguous?_eq_some_iff {s : Symbol} :
    x.ambiguous? = some s ↔ ∃ a, x.Flags a s ∧ ∀ b t, x.Flags b t → a ≤ b := by
  have hasymm : ∀ e f : AtomId × Symbol, e.1 < f.1 → ¬ f.1 < e.1 := fun _ _ h => h.asymm
  have hsorted : x.outputs.toList.Pairwise fun e f => e.1 < f.1 :=
    Std.TreeMap.ordered_keys_toList.imp Nat.compare_eq_lt.1
  have hmem : ∀ a t, ((a, t) ∈ x.outputs.toList ∧
      (decide (1 < x.distinctBodies a) && x.contains t) = true) ↔ x.Flags a t := by
    intro a t
    rw [Std.TreeMap.mem_toList_iff_getElem?_eq_some, Bool.and_eq_true, decide_eq_true_eq,
      contains, decide_eq_true_eq, Flags, and_comm (a := t ∈ x.assertions)]
  rw [ambiguous?, Option.map_eq_some_iff]
  simp only [find?_eq_some_iff_of_pairwise hasymm hsorted, Prod.exists, Prod.forall]
  constructor
  · rintro ⟨a, t, ⟨hat, hflags, hleast⟩, rfl⟩
    refine ⟨a, (hmem a t).1 ⟨hat, hflags⟩, fun b u hb => ?_⟩
    obtain ⟨hbu, hb⟩ := (hmem b u).2 hb
    rcases hleast b u hbu hb with heq | hlt
    · exact (congrArg Prod.fst heq).le
    · exact hlt.le
  · rintro ⟨a, ha, hleast⟩
    obtain ⟨hat, hflags⟩ := (hmem a s).2 ha
    refine ⟨a, s, ⟨hat, hflags, fun b u hbu hb => ?_⟩, rfl⟩
    have hbflags := (hmem b u).1 ⟨hbu, hb⟩
    rcases (hleast b u hbflags).eq_or_lt with rfl | hlt
    · exact .inl (Prod.ext rfl (Option.some.inj (ha.1.symm.trans hbflags.1)))
    · exact .inr hlt

@[simp] theorem mem_missingFrom {m : Model} {s : Symbol} :
    s ∈ x.missingFrom m ↔ s ∈ x.assertions ∧ s ∉ m.atoms := by
  simp [missingFrom, Model.contains]

end AnswerSetTest.AssertionIndex
