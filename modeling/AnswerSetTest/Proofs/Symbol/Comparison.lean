import Mathlib.Algebra.Group.Nat.Defs
import AnswerSetTest.Proofs.Symbol.Order
import AnswerSetTest.Syntax.Token

/-!
# Comparisons of symbols

What comparisons say of symbols in their order. Numbers are compared as integers, and they come
before all other symbols.
-/

namespace AnswerSetTest

theorem Symbol.number_lt_number {k m : Int64} :
    Symbol.number k < .number m ↔ k.toInt < m.toInt := by
  have hcompare : compare (Symbol.number k) (.number m) = compareOfLessAndEq k m := rfl
  rw [Symbol.lt_iff, ← Int64.lt_iff_toInt_lt, hcompare, compareOfLessAndEq_eq_lt]

namespace Comparison

def Compares (l r : Symbol) : Comparison → Prop
  | .eq => l = r
  | .ne => l ≠ r
  | .lt => l < r
  | .le => l < r ∨ l = r
  | .gt => r < l
  | .ge => r < l ∨ r = l

def Relates (k m : Int) : Comparison → Prop
  | .eq => k = m
  | .ne => k ≠ m
  | .lt => k < m
  | .le => k ≤ m
  | .gt => m < k
  | .ge => m ≤ k

/-- Compares an integer of any size with a symbol. -/
def RelatesTo (k : Int) (bound : Symbol) (op : Comparison) : Prop :=
  match bound with
  | .number m => op.Relates k m.toInt
  | .text _ | .function _ _ => op = .ne ∨ op = .lt ∨ op = .le

variable {op : Comparison} {l r : Symbol}

theorem holds_iff : op.holds l r ↔ op.Compares l r := by
  rcases Symbol.lt_trichotomy l r with h | rfl | h
  · have hcompare : compare l r = .lt := h
    have hne : l ≠ r := by
      rintro rfl
      exact Symbol.lt_irrefl l h
    cases op <;> simp [holds, Compares, hcompare, h, hne, hne.symm, Symbol.lt_asymm h]
  · cases op <;> simp [holds, Compares, Symbol.lt_irrefl]
  · have hcompare : compare l r = .gt := Std.OrientedCmp.gt_of_lt h
    have hne : l ≠ r := by
      rintro rfl
      exact Symbol.lt_irrefl l h
    cases op <;> simp [holds, Compares, hcompare, h, hne, hne.symm, Symbol.lt_asymm h]

instance : Decidable (op.Compares l r) := decidable_of_iff _ holds_iff

theorem compares_of_lt (h : l < r) : op.Compares l r ↔ op = .ne ∨ op = .lt ∨ op = .le := by
  have hcompare : compare l r = .lt := h
  rw [← holds_iff]
  cases op <;> simp [holds, hcompare]

theorem compares_number {k m : Int64} :
    op.Compares (.number k) (.number m) ↔ op.Relates k.toInt m.toInt := by
  have heq : Symbol.number k = .number m ↔ k.toInt = m.toInt := by
    rw [Symbol.number.injEq, Int64.toInt_inj]
  have heq' : Symbol.number m = .number k ↔ m.toInt = k.toInt := by
    rw [Symbol.number.injEq, Int64.toInt_inj]
  cases op <;> simp only [Compares, Relates, Symbol.number_lt_number, heq, heq', ne_eq] <;> omega

theorem compares_ofNat {k : Nat} (h : k < 2 ^ 63) :
    op.Compares (.number (Int64.ofNat k)) r ↔ op.RelatesTo k r := by
  cases r with
  | number m => rw [compares_number, Int64.toInt_ofNat_of_lt h, RelatesTo]
  | text t => exact compares_of_lt rfl
  | function f args => exact compares_of_lt rfl

end Comparison

end AnswerSetTest
