import Mathlib.Data.List.Basic
import AnswerSetTest.Ground.Match
import AnswerSetTest.Proofs.Ground.Valuation
import AnswerSetTest.Proofs.Symbol.Comparison

/-!
# Comparisons

A comparison whose variables are bound drops the matches for which it does not hold, and an
equation with one variable that is not bound binds it. Whatever the order in which the comparisons
become ready, the matches that are left are the least extensions under which those applied hold,
and the variables that they bind are determined by the others.
-/

namespace AnswerSetTest

open Term (Evaluation eval)

/-- Each match binds exactly the variables listed. -/
def Matches.Binds (ms : Matches) : Prop :=
  ∀ x ∈ ms.found, ∀ v, (x.binding.get? v).isSome ↔ v ∈ ms.bound

namespace Constraint

/-- A comparison holds if it does for some value of each side. -/
def HoldsBy (V : Valuation) (c : Constraint) (b : Binding) : Prop :=
  ∃ ls rs, V.values b c.left = some ls ∧ V.values b c.right = some rs ∧
    ∃ l ∈ ls, ∃ r ∈ rs, c.op.Compares l r

/-- A side that is no variable has no values. -/
def Undefined (V : Valuation) (c : Constraint) (b : Binding) : Prop :=
  ∃ t, (t = c.left ∨ t = c.right) ∧ (∀ v, t ≠ .variable v) ∧ V.values b t = none

def Mentions (c : Constraint) (v : String) : Prop := v ∈ c.left.vars ∨ v ∈ c.right.vars

structure Given {σ : Type} (V : Valuation) (answer : String → List Symbol → Evaluation σ Symbol)
    (c : Constraint) : Prop where
  left : V.Gives answer c.left
  right : V.Gives answer c.right

/-- Neither side has other values under a binding with `P` than under smaller ones. -/
structure Local (V : Valuation) (P : Binding → Prop) (c : Constraint) : Prop where
  left : V.Local P c.left
  right : V.Local P c.right

structure Equates (c : Constraint) (v : String) (t : Term) : Prop where
  op : c.op = .eq
  sides : c.left = .variable v ∧ c.right = t ∨ c.left = t ∧ c.right = .variable v
  named : v ≠ "_"

structure Assigns (c : Constraint) (bound : List String) (v : String) (t : Term) : Prop extends
    c.Equates v t where
  fresh : v ∉ bound
  ready : ∀ w ∈ t.vars, w ∈ bound

/-- The variables that are known or whose values are given by equations, step by step. -/
inductive Determines (cs : List Constraint) (known : String → Prop) : String → Prop
  | known {v : String} (h : known v) : Determines cs known v
  | equation {c : Constraint} {v : String} {t : Term} (hc : c ∈ cs) (h : c.Equates v t)
    (ht : ∀ w ∈ t.vars, Determines cs known w) : Determines cs known v

variable {V : Valuation} {P : Binding → Prop} {b b' : Binding} {bound : List String}
  {c : Constraint}
  {cs ds : List Constraint} {t : Term} {v : String} {known known' : String → Prop}

theorem HoldsBy.mono (h : b ≤ b') (hc : c.HoldsBy V b) : c.HoldsBy V b' := by
  obtain ⟨ls, rs, hl, hr, hop⟩ := hc
  exact ⟨ls, rs, V.mono h hl, V.mono h hr, hop⟩

theorem local_named (V : Valuation) (c : Constraint) : c.Local V Binding.Named :=
  ⟨V.local_named c.left, V.local_named c.right⟩

theorem HoldsBy.of_le (hlocal : c.Local V P) (h : b ≤ b') (hb' : P b')
    (hb : ∀ v, c.Mentions v → (b.get? v).isSome) (hc : c.HoldsBy V b') : c.HoldsBy V b := by
  obtain ⟨ls, rs, hl, hr, hop⟩ := hc
  exact ⟨ls, rs, hlocal.left b b' ls h hb' (fun v hv => hb v (.inl hv)) hl,
    hlocal.right b b' rs h hb' (fun v hv => hb v (.inr hv)) hr, hop⟩

theorem Undefined.of_le (h : b ≤ b') (hc : c.Undefined V b') : c.Undefined V b := by
  obtain ⟨t, ht, hne, hnone⟩ := hc
  refine ⟨t, ht, hne, Option.eq_none_iff_forall_ne_some.2 fun vs hvs => ?_⟩
  rw [V.mono h hvs] at hnone
  cases hnone

theorem Equates.not_undefined (h : c.Equates v t) (ht : (V.values b t).isSome) :
    ¬ c.Undefined V b := by
  rintro ⟨u, hu, hne, hnone⟩
  have hsides : u = .variable v ∨ u = t := by
    obtain ⟨hl, hr⟩ | ⟨hl, hr⟩ := h.sides
    · rwa [hl, hr] at hu
    · rwa [hl, hr, or_comm] at hu
  obtain rfl := hsides.resolve_left (hne v)
  rw [hnone] at ht
  cases ht

theorem Determines.bind (h : Determines ds known v) (hds : ∀ c ∈ ds, c ∈ cs)
    (hknown : ∀ w, known w → Determines cs known' w) : Determines cs known' v := by
  induction h with
  | known hv => exact hknown _ hv
  | equation hc heq _ ih => exact .equation (hds _ hc) heq ih

theorem isReady_iff : isReady bound t ↔ ∀ v ∈ t.vars, v ∈ bound := by
  simp [isReady]

theorem not_isReady_variable : isReady bound (.variable v) = false ↔ v ≠ "_" ∧ v ∉ bound := by
  rw [← Bool.not_eq_true, isReady_iff]
  constructor
  · refine fun hnot => ⟨?_, fun hv => hnot fun w hw => (Term.mem_vars_variable.1 hw).1 ▸ hv⟩
    rintro rfl
    exact hnot fun w hw => absurd rfl (Term.mem_vars_variable.1 hw).2
  · rintro ⟨hv, hfresh⟩ hready
    exact hfresh (hready v (Term.mem_vars_variable.2 ⟨rfl, hv⟩))

theorem assigns_of_assignment? (h : c.assignment? bound = some (v, t)) : c.Assigns bound v t := by
  rw [assignment?] at h
  split at h
  · next w hop hl =>
    split at h
    · next hready =>
      obtain ⟨hfresh, hu⟩ := Bool.and_eq_true_iff.1 hready
      cases h
      obtain ⟨hnamed, hv⟩ := not_isReady_variable.1 (Bool.not_eq_true' _ ▸ hfresh)
      exact ⟨⟨hop, .inl ⟨hl, rfl⟩, hnamed⟩, hv, isReady_iff.1 hu⟩
    · split at h
      · next x hr =>
        rw [Option.ite_none_right_eq_some] at h
        obtain ⟨hready, heq⟩ := h
        obtain ⟨hfresh, hw⟩ := Bool.and_eq_true_iff.1 hready
        cases heq
        obtain ⟨hnamed, hv⟩ := not_isReady_variable.1 (hr ▸ Bool.not_eq_true' _ ▸ hfresh)
        exact ⟨⟨hop, .inr ⟨hl, hr⟩, hnamed⟩, hv, isReady_iff.1 hw⟩
      · cases h
  · next w hop hr _ =>
    rw [Option.ite_none_right_eq_some] at h
    obtain ⟨hready, heq⟩ := h
    obtain ⟨hfresh, hw⟩ := Bool.and_eq_true_iff.1 hready
    cases heq
    obtain ⟨hnamed, hv⟩ := not_isReady_variable.1 (Bool.not_eq_true' _ ▸ hfresh)
    exact ⟨⟨hop, .inr ⟨rfl, hr⟩, hnamed⟩, hv, isReady_iff.1 hw⟩
  · cases h

theorem Assigns.assignment?_ne_none (h : c.Assigns bound v t) : c.assignment? bound ≠ none := by
  have hfresh : isReady bound (.variable v) = false := not_isReady_variable.2 ⟨h.named, h.fresh⟩
  have hready : isReady bound t = true := isReady_iff.2 h.ready
  obtain ⟨left, op, right⟩ := c
  obtain rfl : op = .eq := h.op
  obtain ⟨rfl, rfl⟩ | ⟨rfl, rfl⟩ := h.sides
  · simp [assignment?, hfresh, hready]
  · cases left <;> simp [assignment?, hfresh, hready]

theorem mentions_of_check (h : c.readiness bound = .check) (hv : c.Mentions v) : v ∈ bound := by
  rw [readiness] at h
  split at h
  · next hready =>
    obtain ⟨hl, hr⟩ := Bool.and_eq_true_iff.1 hready
    exact hv.elim (isReady_iff.1 hl v) (isReady_iff.1 hr v)
  · split at h
    · cases h
    · cases h

theorem assigns_of_assign (h : c.readiness bound = .assign v t) : c.Assigns bound v t := by
  rw [readiness] at h
  split at h
  · cases h
  · split at h
    · next hassign =>
      cases h
      exact assigns_of_assignment? hassign
    · cases h

theorem not_assigns_of_wait (h : c.readiness bound = .wait) : ¬ c.Assigns bound v t := by
  intro hassigns
  rw [readiness] at h
  split at h
  · cases h
  · split at h
    · cases h
    · next hnone => exact hassigns.assignment?_ne_none hnone

theorem exists_unbound_of_wait (h : c.readiness bound = .wait) : ∃ v, c.Mentions v ∧ v ∉ bound := by
  by_contra hnone
  have hbound : ∀ v, c.Mentions v → v ∈ bound := fun v hv => by
    by_contra hfresh
    exact hnone ⟨v, hv, hfresh⟩
  have hready : (isReady bound c.left && isReady bound c.right) = true :=
    Bool.and_eq_true_iff.2 ⟨isReady_iff.2 fun v hv => hbound v (.inl hv),
      isReady_iff.2 fun v hv => hbound v (.inr hv)⟩
  rw [readiness, if_pos hready] at h
  cases h

theorem Equates.mentions_iff (h : c.Equates v t) {w : String} :
    c.Mentions w ↔ w = v ∨ w ∈ t.vars := by
  obtain ⟨hl, hr⟩ | ⟨hl, hr⟩ := h.sides
  · rw [Mentions, hl, hr, Term.mem_vars_variable, and_iff_left h.named]
  · rw [Mentions, hl, hr, Term.mem_vars_variable, and_iff_left h.named, or_comm]

/-- When the comparisons that are left wait, all variables that equations determine are bound. -/
theorem Determines.mem_bound {all : List Constraint} (hall : (ds ++ cs).Perm all)
    (hknown : ∀ w, known w → w ∈ bound) (hds : ∀ c ∈ ds, ∀ w, c.Mentions w → w ∈ bound)
    (hwait : ∀ c ∈ cs, c.readiness bound = .wait) (h : Determines all known v) : v ∈ bound := by
  induction h with
  | known hv => exact hknown _ hv
  | @equation c v t hc heq _ ih =>
    rcases List.mem_append.1 (hall.mem_iff.2 hc) with hmem | hmem
    · exact hds c hmem v (heq.mentions_iff.2 (.inl rfl))
    · by_contra hfresh
      exact not_assigns_of_wait (hwait c hmem) ⟨heq, hfresh, ih⟩

theorem Equates.holdsBy_iff (h : c.Equates v t) :
    c.HoldsBy V b ↔ ∃ s values, b.get? v = some s ∧ V.values b t = some values ∧ s ∈ values := by
  have hvariable : ∀ vs, V.values b (.variable v) = some vs ↔
      ∃ s, b.get? v = some s ∧ [s] = vs := by
    intro vs
    rw [V.values_variable]
    exact Option.map_eq_some_iff
  rw [HoldsBy, h.op]
  simp only [Comparison.Compares]
  obtain ⟨hl, hr⟩ | ⟨hl, hr⟩ := h.sides
  · rw [hl, hr]
    simp only [hvariable]
    grind
  · rw [hl, hr]
    simp only [hvariable]
    grind

section Evaluation

variable {σ : Type} {answer : String → List Symbol → Evaluation σ Symbol}

theorem returns_holds (hc : c.Given V answer) :
    Returns (c.holds answer b) fun holds =>
      ¬ c.Undefined V b ∧ (holds = true ↔ c.HoldsBy V b) := by
  rw [holds]
  refine (hc.left b).bind fun ls hl => (hc.right b).bind fun rs hr => .of_pure ⟨?_, ?_⟩
  · rintro ⟨t, rfl | rfl, -, hnone⟩
    · exact Option.some_ne_none ls (hl.symm.trans hnone)
    · exact Option.some_ne_none rs (hr.symm.trans hnone)
  · simp only [List.any_eq_true, Comparison.holds_iff]
    constructor
    · exact fun h => ⟨ls, rs, hl, hr, h⟩
    · rintro ⟨ls', rs', hl', hr', h⟩
      rw [hl, Option.some.injEq] at hl'
      rw [hr, Option.some.injEq] at hr'
      exact hl' ▸ hr' ▸ h

theorem returns_keepOnto (hc : c.Given V answer) (before xs : List Match) :
    Returns (c.keepOnto answer before xs) fun ys => (∀ x ∈ xs, ¬ c.Undefined V x.binding) ∧
      ∀ y, y ∈ ys ↔ y ∈ before ∨ y ∈ xs ∧ c.HoldsBy V y.binding := by
  induction xs generalizing before with
  | nil =>
    rw [keepOnto]
    exact .of_pure (by simp)
  | cons x xs ih =>
    rw [keepOnto]
    refine (returns_holds hc).bind fun holds ⟨hdefined, hholds⟩ => ?_
    cases holds with
    | true =>
      refine (ih (x :: before)).mono fun ys ⟨hall, hys⟩ => ?_
      exact ⟨List.forall_mem_cons.2 ⟨hdefined, hall⟩, fun y => by grind⟩
    | false =>
      refine (ih before).mono fun ys ⟨hall, hys⟩ => ?_
      exact ⟨List.forall_mem_cons.2 ⟨hdefined, hall⟩, fun y => by grind⟩

theorem returns_keep (hc : c.Given V answer) (xs : List Match) :
    Returns (c.keep answer xs) fun ys => (∀ x ∈ xs, ¬ c.Undefined V x.binding) ∧
      ∀ y, y ∈ ys ↔ y ∈ xs ∧ c.HoldsBy V y.binding :=
  (returns_keepOnto hc [] xs).mono fun ys hys => by simpa using hys

/-- The matches that give one of the values of a term to a variable. -/
def Bound (V : Valuation) (v : String) (t : Term) (xs : List Match) (y : Match) : Prop :=
  ∃ x ∈ xs, ∃ values, V.values x.binding t = some values ∧
    ∃ s ∈ values, y = { x with binding := x.binding.insert v s }

theorem returns_bindOnto (ht : V.Gives answer t) (before xs : List Match) :
    Returns (bindOnto answer v t before xs) fun ys =>
      (∀ x ∈ xs, (V.values x.binding t).isSome) ∧
      ∀ y, y ∈ ys ↔ y ∈ before ∨ Bound V v t xs y := by
  induction xs generalizing before with
  | nil =>
    rw [bindOnto]
    exact .of_pure (by simp [Bound])
  | cons x xs ih =>
    rw [bindOnto]
    refine (ht x.binding).bind fun values hvalues => (ih _).mono fun ys ⟨hall, hys⟩ => ?_
    refine ⟨List.forall_mem_cons.2 ⟨hvalues ▸ rfl, hall⟩, fun y => ?_⟩
    have hcons : Bound V v t (x :: xs) y ↔
        (∃ s ∈ values, y = { x with binding := x.binding.insert v s }) ∨ Bound V v t xs y := by
      simp [Bound, hvalues]
    rw [hys, hcons, List.mem_append, List.mem_reverse, List.mem_map]
    grind

theorem returns_bind (ht : V.Gives answer t) (xs : List Match) :
    Returns (Constraint.bind answer v t xs) fun ys =>
      (∀ x ∈ xs, (V.values x.binding t).isSome) ∧ ∀ y, y ∈ ys ↔ Bound V v t xs y :=
  (returns_bindOnto ht [] xs).mono fun ys hys => by simpa using hys

end Evaluation

end Constraint

/-- What becomes of matches when comparisons are applied: the least extensions for which the
comparisons hold. To be applied they had to have values, so they are nowhere undefined. -/
structure Matches.Settles (V : Valuation) (P : Binding → Prop) (ms : Matches)
    (cs : List Constraint) (ms' : Matches) : Prop where
  solves : ∀ y ∈ ms'.found, ∃ x ∈ ms.found, x.binding ≤ y.binding ∧
    y.positives = x.positives ∧ ∀ c ∈ cs, c.HoldsBy V y.binding
  complete : ∀ x ∈ ms.found, ∀ b, x.binding ≤ b → P b → (∀ c ∈ cs, c.HoldsBy V b) →
    ∃ y ∈ ms'.found, y.binding ≤ b ∧ y.positives = x.positives
  defined : ∀ x ∈ ms.found, ∀ b, x.binding ≤ b → P b →
    (∀ c ∈ cs, c.HoldsBy V b ∨ c.Undefined V b) → ∀ c ∈ cs, c.HoldsBy V b
  binds : ms'.Binds
  mem_bound : ∀ v, v ∈ ms'.bound ↔ v ∈ ms.bound ∨ ∃ c ∈ cs, c.Mentions v
  determined : ∀ v ∈ ms'.bound, Constraint.Determines cs (· ∈ ms.bound) v

namespace Matches.Settles

variable {V : Valuation} {P : Binding → Prop} {ms ms' : Matches} {cs ds : List Constraint}
  {c : Constraint} {v : String} {t : Term} {ys : List Match}

theorem refl (h : ms.Binds) : ms.Settles V P [] ms where
  solves y hy := ⟨y, hy, y.binding.le_refl, rfl, by simp⟩
  complete x hx b hle _ _ := ⟨x, hx, hle, rfl⟩
  defined x hx b hle _ _ := by simp
  binds := h
  mem_bound v := by simp
  determined _ hv := .known hv

theorem defined_cons (h : ms.Settles V P cs ms')
    (hdefined : ∀ y ∈ ms'.found, ¬ c.Undefined V y.binding) :
    ∀ x ∈ ms.found, ∀ b, x.binding ≤ b → P b →
      (∀ d ∈ c :: cs, d.HoldsBy V b ∨ d.Undefined V b) → ∀ d ∈ c :: cs, d.HoldsBy V b := by
  intro x hx b hle hb hcs
  obtain ⟨hc, hcs⟩ := List.forall_mem_cons.1 hcs
  have hall := h.defined x hx b hle hb hcs
  -- a match below `b` is left, and what has values there has the same ones under `b`
  obtain ⟨y, hy, hyb, -⟩ := h.complete x hx b hle hb hall
  exact List.forall_mem_cons.2
    ⟨hc.resolve_right fun hundefined => hdefined y hy (hundefined.of_le hyb), hall⟩

/-- A comparison whose variables are all bound drops the matches for which it does not hold. -/
theorem check (h : ms.Settles V P cs ms') (hlocal : c.Local V P)
    (hbound : ∀ v, c.Mentions v → v ∈ ms'.bound)
    (hdefined : ∀ y ∈ ms'.found, ¬ c.Undefined V y.binding)
    (hys : ∀ y, y ∈ ys ↔ y ∈ ms'.found ∧ c.HoldsBy V y.binding) :
    ms.Settles V P (c :: cs) ⟨ms'.bound, ys⟩ where
  solves y hy := by
    obtain ⟨hfound, hc⟩ := (hys y).1 hy
    obtain ⟨x, hx, hle, hps, hcs⟩ := h.solves y hfound
    exact ⟨x, hx, hle, hps, List.forall_mem_cons.2 ⟨hc, hcs⟩⟩
  complete x hx b hle hb hcs := by
    obtain ⟨hc, hcs⟩ := List.forall_mem_cons.1 hcs
    obtain ⟨y, hy, hyb, hps⟩ := h.complete x hx b hle hb hcs
    refine ⟨y, (hys y).2 ⟨hy, hc.of_le hlocal hyb hb fun v hv => ?_⟩, hyb, hps⟩
    exact (h.binds y hy v).2 (hbound v hv)
  defined := h.defined_cons hdefined
  binds y hy := h.binds y ((hys y).1 hy).1
  mem_bound v := by
    rw [h.mem_bound, List.exists_mem_cons_iff, or_left_comm]
    exact (or_iff_right_of_imp fun hv => (h.mem_bound v).1 (hbound v hv)).symm
  determined v hv :=
    (h.determined v hv).bind (fun _ hd => List.mem_cons_of_mem c hd) fun _ hw => .known hw

/-- An equation binds its variable to each value of the other side. -/
theorem assign (h : ms.Settles V P cs ms') (ha : c.Assigns ms'.bound v t)
    (hlocal : V.Local P t) (hvalues : ∀ y ∈ ms'.found, (V.values y.binding t).isSome)
    (hys : ∀ y, y ∈ ys ↔ Constraint.Bound V v t ms'.found y) :
    ms.Settles V P (c :: cs) ⟨v :: ms'.bound, ys⟩ := by
  have hnone : ∀ x ∈ ms'.found, x.binding.get? v = none := by
    intro x hx
    rw [← Option.not_isSome_iff_eq_none, h.binds x hx]
    exact ha.fresh
  refine { solves := fun y hy => ?_, complete := fun x hx b hle hb hcs => ?_,
           defined := h.defined_cons fun y hy => ha.not_undefined (hvalues y hy),
           binds := fun y hy w => ?_, mem_bound := fun w => ?_, determined := fun w hw => ?_ }
  · obtain ⟨z, hz, values, hvalues, s, hmem, rfl⟩ := (hys y).1 hy
    obtain ⟨x, hx, hle, hps, hcs⟩ := h.solves z hz
    have hinsert := Binding.le_insert (hnone z hz) s
    refine ⟨x, hx, Binding.le_trans hle hinsert, hps, List.forall_mem_cons.2 ⟨?_, ?_⟩⟩
    · refine ha.holdsBy_iff.2 ⟨s, values, ?_, V.mono hinsert hvalues, hmem⟩
      rw [Binding.get?_insert, if_pos rfl]
    · exact fun d hd => (hcs d hd).mono hinsert
  · obtain ⟨hc, hcs⟩ := List.forall_mem_cons.1 hcs
    obtain ⟨z, hz, hzb, hps⟩ := h.complete x hx b hle hb hcs
    obtain ⟨s, values, hget, hvalues, hmem⟩ := ha.holdsBy_iff.1 hc
    have hready : ∀ w ∈ t.vars, (z.binding.get? w).isSome :=
      fun w hw => (h.binds z hz w).2 (ha.ready w hw)
    exact ⟨{ z with binding := z.binding.insert v s },
      (hys _).2 ⟨z, hz, values, hlocal _ b values hzb hb hready hvalues, s, hmem, rfl⟩,
      Binding.insert_le hzb hget, hps⟩
  · obtain ⟨z, hz, values, hvalues, s, hmem, rfl⟩ := (hys y).1 hy
    rw [Binding.isSome_insert, h.binds z hz, List.mem_cons, or_comm]
  · have hmentions : c.Mentions w ∨ w ∈ ms'.bound ↔ w = v ∨ w ∈ ms'.bound := by
      rw [ha.mentions_iff, or_assoc]
      exact or_congr_right (or_iff_right_of_imp (ha.ready w))
    rw [List.exists_mem_cons_iff, or_left_comm, ← h.mem_bound, hmentions, List.mem_cons]
  · have hbound : ∀ u ∈ ms'.bound, Constraint.Determines (c :: cs) (· ∈ ms.bound) u :=
      fun u hu => (h.determined u hu).bind (fun _ hd => List.mem_cons_of_mem c hd)
        fun _ hw => .known hw
    rcases List.mem_cons.1 hw with rfl | hw
    · exact .equation List.mem_cons_self ha.toEquates fun u hu => hbound u (ha.ready u hu)
    · exact hbound w hw

end Matches.Settles

namespace Constraint

variable {σ : Type} {answer : String → List Symbol → Evaluation σ Symbol} {V : Valuation}
  {P : Binding → Prop} {ms ms' : Matches} {cs ds : List Constraint}

theorem returns_sweep (h : ms.Settles V P ds ms') (hcs : ∀ c ∈ cs, c.Given V answer)
    (hlocals : ∀ c ∈ cs, c.Local V P) :
    Returns (sweep answer ms' cs) fun r =>
      ∃ ds', ms.Settles V P ds' r.2 ∧ (ds' ++ r.1).Perm (ds ++ cs) := by
  induction cs generalizing ds ms' with
  | nil =>
    rw [sweep]
    exact .of_pure ⟨ds, h, .refl _⟩
  | cons c cs ih =>
    obtain ⟨hc, hcs⟩ := List.forall_mem_cons.1 hcs
    obtain ⟨hlocal, hlocals⟩ := List.forall_mem_cons.1 hlocals
    have happlied : ∀ ds' : List Constraint, ds'.Perm (c :: ds ++ cs) → ds'.Perm (ds ++ c :: cs) :=
      fun _ hperm => hperm.trans List.perm_middle.symm
    rw [sweep]
    split
    · next hready =>
      refine (returns_keep hc ms'.found).bind fun ys ⟨hdefined, hys⟩ => ?_
      have hnext := h.check hlocal (fun v => mentions_of_check hready) hdefined hys
      refine (ih hnext hcs hlocals).mono fun r hr => ?_
      obtain ⟨ds', hsettles, hperm⟩ := hr
      exact ⟨ds', hsettles, happlied _ hperm⟩
    · next v t hready =>
      have hassign := assigns_of_assign hready
      obtain ⟨ht, hlocal⟩ : V.Gives answer t ∧ V.Local P t := by
        obtain ⟨-, rfl⟩ | ⟨rfl, -⟩ := hassign.sides
        · exact ⟨hc.right, hlocal.right⟩
        · exact ⟨hc.left, hlocal.left⟩
      refine (returns_bind ht ms'.found).bind fun ys ⟨hvalues, hys⟩ => ?_
      have hnext := h.assign hassign hlocal hvalues hys
      refine (ih hnext hcs hlocals).mono fun r hr => ?_
      obtain ⟨ds', hsettles, hperm⟩ := hr
      exact ⟨ds', hsettles, happlied _ hperm⟩
    · refine (ih h hcs hlocals).bind fun r hr => .of_pure ?_
      obtain ⟨ds', hsettles, hperm⟩ := hr
      refine ⟨ds', hsettles, ?_⟩
      exact (List.perm_middle.trans (hperm.cons c)).trans List.perm_middle.symm

/-- Going through comparisons without applying any changes nothing, and all of them wait. -/
theorem returns_sweep_waiting (ms : Matches) (cs : List Constraint) :
    Returns (sweep answer ms cs) fun r => r.1.length ≤ cs.length ∧ (r.1.length = cs.length →
      r = (cs, ms) ∧ ∀ c ∈ cs, c.readiness ms.bound = .wait) := by
  induction cs generalizing ms with
  | nil =>
    rw [sweep]
    exact .of_pure (by simp)
  | cons c cs ih =>
    have happlied : ∀ n, n ≤ cs.length → n ≤ (c :: cs).length ∧ n ≠ (c :: cs).length := by
      intro n hn
      rw [List.length_cons]
      omega
    rw [sweep]
    split
    · refine Returns.trivial.bind fun ys _ => (ih _).mono fun r hr => ?_
      exact ⟨(happlied _ hr.1).1, fun hlen => absurd hlen (happlied _ hr.1).2⟩
    · refine Returns.trivial.bind fun ys _ => (ih _).mono fun r hr => ?_
      exact ⟨(happlied _ hr.1).1, fun hlen => absurd hlen (happlied _ hr.1).2⟩
    · next hwait =>
      refine (ih ms).bind fun r hr => .of_pure ⟨Nat.succ_le_succ hr.1, fun hlen => ?_⟩
      obtain ⟨rfl, hall⟩ := hr.2 (Nat.succ.inj hlen)
      exact ⟨rfl, List.forall_mem_cons.2 ⟨hwait, hall⟩⟩

theorem returns_settleUpTo (h : ms.Settles V P ds ms') (hgiven : ∀ c ∈ ds ++ cs, c.Given V answer)
    (hlocal : ∀ c ∈ ds ++ cs, c.Local V P) (limit : Nat) :
    Returns (settleUpTo answer ms' cs limit) fun r =>
      ∃ ds', ms.Settles V P ds' r.2 ∧ (ds' ++ r.1).Perm (ds ++ cs) := by
  induction limit generalizing ds cs ms' with
  | zero =>
    rw [settleUpTo]
    exact .of_pure ⟨ds, h, .refl _⟩
  | succ limit ih =>
    rw [settleUpTo]
    refine (returns_sweep h (fun c hc => hgiven c (List.mem_append_right _ hc)) fun c hc =>
      hlocal c (List.mem_append_right _ hc)).bind fun r hr => ?_
    obtain ⟨rest, ms''⟩ := r
    dsimp only
    split
    · exact .of_pure hr
    · obtain ⟨ds', hsettles, hperm⟩ := hr
      refine (ih hsettles (fun c hc => hgiven c (hperm.mem_iff.1 hc)) fun c hc =>
        hlocal c (hperm.mem_iff.1 hc)).mono fun r' hr' => ?_
      obtain ⟨ds'', hsettles', hperm'⟩ := hr'
      exact ⟨ds'', hsettles', hperm'.trans hperm⟩

/-- As many sweeps as there are comparisons leave only comparisons that wait. -/
theorem returns_settleUpTo_waiting (ms : Matches) {cs : List Constraint} {limit : Nat}
    (hlimit : cs.length ≤ limit) :
    Returns (settleUpTo answer ms cs limit) fun r =>
      ∀ c ∈ r.1, c.readiness r.2.bound = .wait := by
  induction limit generalizing cs ms with
  | zero =>
    rw [settleUpTo, List.eq_nil_of_length_eq_zero (Nat.le_zero.1 hlimit)]
    exact .of_pure (by simp)
  | succ limit ih =>
    rw [settleUpTo]
    refine (returns_sweep_waiting ms cs).bind fun r hr => ?_
    obtain ⟨rest, ms'⟩ := r
    dsimp only at hr ⊢
    split
    · next hlen =>
      obtain ⟨heq, hall⟩ := hr.2 hlen
      cases heq
      exact .of_pure hall
    · next hlen => exact ih ms' (by omega)

theorem returns_settle (hbinds : ms.Binds) (hgiven : ∀ c ∈ cs, c.Given V answer)
    (hlocal : ∀ c ∈ cs, c.Local V P) :
    Returns (settle answer ms cs) fun r =>
      (∃ ds, ms.Settles V P ds r.2 ∧ (ds ++ r.1).Perm cs) ∧
      ∀ c ∈ r.1, c.readiness r.2.bound = .wait :=
  (returns_settleUpTo (.refl hbinds) hgiven hlocal _).and
    (returns_settleUpTo_waiting ms (Nat.le_refl _))

end Constraint

end AnswerSetTest
