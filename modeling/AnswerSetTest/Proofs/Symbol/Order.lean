import Mathlib.Data.List.Perm.Subperm
import AnswerSetTest.Symbol

/-!
# The order of symbols

`compare` is a lawful linear order on symbols: only equal symbols compare equal, swapping the
arguments swaps the outcome, and `<` is transitive. The instances make the library's lemmas on
comparisons available.
-/

namespace AnswerSetTest.Symbol

/-- Induction in which a function term has the hypothesis for each of its arguments. -/
@[elab_as_elim]
theorem induct {motive : Symbol → Prop} (number : ∀ n, motive (.number n))
    (text : ∀ s, motive (.text s))
    (function : ∀ f args, (∀ a ∈ args, motive a) → motive (.function f args)) (s : Symbol) :
    motive s :=
  Symbol.rec (motive_2 := fun args => ∀ a ∈ args, motive a) number text
    (fun f args ih => function f args ih) (by simp)
    (fun a as iha ihas => List.forall_mem_cons.2 ⟨iha, ihas⟩) s

theorem orderAll_eq_swap {as : List Symbol} (h : ∀ a ∈ as, ∀ b, order a b = (order b a).swap)
    (bs : List Symbol) : orderAll as bs = (orderAll bs as).swap := by
  induction as generalizing bs with
  | nil => cases bs <;> rfl
  | cons a as ih =>
    cases bs with
    | nil => rfl
    | cons b bs =>
      have ha := h a List.mem_cons_self b
      have has := ih (fun a ha => h a (List.mem_cons_of_mem _ ha)) bs
      simp only [orderAll, Ordering.swap_then, ← ha, ← has]

theorem order_eq_swap (a b : Symbol) : order a b = (order b a).swap := by
  induction a using induct generalizing b with
  | number m =>
    cases b with
    | number n => exact Std.OrientedOrd.eq_swap
    | _ => rfl
  | text s =>
    cases b with
    | text t => exact Std.OrientedOrd.eq_swap
    | _ => rfl
  | function f as ih =>
    cases b with
    | function g bs =>
      have hname : compare f g = (compare g f).swap := Std.OrientedOrd.eq_swap
      simp only [order, Ordering.swap_then, ← hname, ← orderAll_eq_swap ih bs]
    | _ => rfl

theorem orderAll_eq_eq {as : List Symbol} (h : ∀ a ∈ as, ∀ b, order a b = .eq ↔ a = b)
    (bs : List Symbol) : orderAll as bs = .eq ↔ as = bs := by
  induction as generalizing bs with
  | nil => cases bs <;> simp [orderAll]
  | cons a as ih =>
    cases bs with
    | nil => simp [orderAll]
    | cons b bs =>
      rw [orderAll, Ordering.then_eq_eq, h a List.mem_cons_self,
        ih (fun a ha => h a (List.mem_cons_of_mem _ ha)), List.cons.injEq]

theorem order_eq_eq (a b : Symbol) : order a b = .eq ↔ a = b := by
  induction a using induct generalizing b with
  | number m => cases b <;> simp [order]
  | text s => cases b <;> simp [order]
  | function f as ih =>
    cases b with
    | function g bs =>
      rw [order, Ordering.then_eq_eq, orderAll_eq_eq ih, Std.compare_eq_iff_eq, function.injEq]
    | _ => simp [order]

/-- Only the comparison of heads and, for equal heads, the comparison of tails matter. -/
theorem orderAll_lt_trans {as : List Symbol}
    (h : ∀ a ∈ as, ∀ b c, order a b = .lt → order b c = .lt → order a c = .lt)
    (bs cs : List Symbol) (hab : orderAll as bs = .lt) (hbc : orderAll bs cs = .lt) :
    orderAll as cs = .lt := by
  induction as generalizing bs cs with
  | nil => cases bs <;> cases cs <;> simp_all [orderAll]
  | cons a as ih =>
    match bs, cs with
    | b :: bs, c :: cs =>
      rw [orderAll, Ordering.then_eq_lt, order_eq_eq] at *
      rcases hab with hab | ⟨rfl, hab⟩
      · rcases hbc with hbc | ⟨rfl, -⟩
        · exact .inl (h a List.mem_cons_self b c hab hbc)
        · exact .inl hab
      · exact hbc.imp_right fun hbc =>
          ⟨hbc.1, ih (fun a ha => h a (List.mem_cons_of_mem _ ha)) bs cs hab hbc.2⟩
    | [], _ => simp [orderAll] at hab
    | _ :: _, [] => simp [orderAll] at hbc

theorem order_lt_trans (a b c : Symbol) (hab : order a b = .lt) (hbc : order b c = .lt) :
    order a c = .lt := by
  induction a using induct generalizing b c with
  | number m =>
    cases b with
    | number n =>
      cases c with
      | number k =>
        have h : compare m n = .lt → compare n k = .lt → compare m k = .lt :=
          Std.TransCmp.lt_trans
        exact h hab hbc
      | _ => rfl
    | _ => cases c <;> simp_all [order]
  | text s =>
    cases b with
    | text t =>
      cases c with
      | text u =>
        have h : compare s t = .lt → compare t u = .lt → compare s u = .lt :=
          Std.TransCmp.lt_trans
        exact h hab hbc
      | _ => simp_all [order]
    | _ => cases c <;> simp_all [order]
  | function f as ih =>
    cases b with
    | function g bs =>
      cases c with
      | function k cs =>
        rw [order, Ordering.then_eq_lt, Std.compare_eq_iff_eq] at *
        rcases hab with hab | ⟨rfl, hab⟩
        · rcases hbc with hbc | ⟨rfl, -⟩
          · exact .inl (Std.TransCmp.lt_trans hab hbc)
          · exact .inl hab
        · exact hbc.imp_right fun hbc => ⟨hbc.1, orderAll_lt_trans ih bs cs hab hbc.2⟩
      | _ => simp [order] at hbc
    | _ => simp [order] at hab

instance : Std.LawfulEqOrd Symbol where
  compare_self {a} := (order_eq_eq a a).2 rfl
  eq_of_compare {a b} h := (order_eq_eq a b).1 h

instance : Std.TransOrd Symbol where
  eq_swap {a b} := order_eq_swap a b
  isLE_trans {a b c} hab hbc := by
    rw [Ordering.isLE_iff_eq_lt_or_eq_eq, Std.compare_eq_iff_eq] at *
    rcases hab with hab | rfl
    · rcases hbc with hbc | rfl
      · exact .inl (order_lt_trans a b c hab hbc)
      · exact .inl hab
    · exact hbc

theorem lt_iff {a b : Symbol} : a < b ↔ compare a b = .lt := Iff.rfl

theorem lt_irrefl (a : Symbol) : ¬ a < a := by
  rw [lt_iff, Std.compare_self]
  exact nofun

theorem lt_trans {a b c : Symbol} (hab : a < b) (hbc : b < c) : a < c :=
  order_lt_trans a b c hab hbc

theorem lt_asymm {a b : Symbol} (hab : a < b) : ¬ b < a := fun hba => lt_irrefl a (lt_trans hab hba)

theorem lt_trichotomy (a b : Symbol) : a < b ∨ a = b ∨ b < a := by
  cases h : compare a b with
  | lt => exact .inl h
  | eq => exact .inr (.inl (Std.compare_eq_iff_eq.1 h))
  | gt => exact .inr (.inr (Std.OrientedCmp.lt_of_gt h))

theorem nodup_of_ascending {symbols : List Symbol} (hp : symbols.Pairwise (· < ·)) :
    symbols.Nodup := by
  refine hp.imp ?_
  rintro s _ hlt rfl
  exact lt_irrefl s hlt

theorem subset_of_length {xs ys : List Symbol} (hxs : xs.Pairwise (· < ·)) (hsub : xs ⊆ ys)
    (hlength : ys.length = xs.length) : ys ⊆ xs := by
  have hsubperm := List.subperm_of_subset (nodup_of_ascending hxs) hsub
  exact (hsubperm.perm_of_length_le (Nat.le_of_eq hlength)).symm.subset

end AnswerSetTest.Symbol
