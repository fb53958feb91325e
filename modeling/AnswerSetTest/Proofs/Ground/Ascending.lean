import Std.Data.HashSet.Lemmas
import AnswerSetTest.Ground.Lists
import AnswerSetTest.Proofs.Symbol.Order

/-!
# Ascending lists and first occurrences

`ascending` and the operations on sets of atoms give strictly increasing lists with the expected
elements, and `firstOccurrences` keeps each element of a list once.
-/

namespace AnswerSetTest

theorem eq_of_pairwise {α : Type} {r : α → α → Prop} (hr : ∀ a b, r a b → ¬ r b a) {xs ys : List α}
    (hx : xs.Pairwise r) (hy : ys.Pairwise r) (h : ∀ a, a ∈ xs ↔ a ∈ ys) : xs = ys := by
  have hne : ∀ {a b}, r a b → a ≠ b := by
    rintro a _ hab rfl
    exact hr a a hab hab
  have hperm := (List.perm_ext_iff_of_nodup (hx.imp hne) (hy.imp hne)).2 h
  exact hperm.eq_of_pairwise (fun a b _ _ hab hba => absurd hba (hr a b hab)) hx hy

section Ascending

variable {α : Type} [DecidableEq α]

theorem squeeze_cons (x : α) (xs : List α) :
    squeeze (x :: xs) = match squeeze xs with
      | [] => [x]
      | y :: ys => if x = y then y :: ys else x :: y :: ys := by
  rw [squeeze, List.foldr_cons, ← squeeze]
  cases squeeze xs <;> rfl

@[simp] theorem mem_squeeze {a : α} {xs : List α} : a ∈ squeeze xs ↔ a ∈ xs := by
  induction xs with
  | nil => rfl
  | cons x xs ih =>
    rw [squeeze_cons, List.mem_cons, ← ih]
    cases squeeze xs with
    | nil => simp
    | cons y ys =>
      by_cases h : x = y
      · subst h
        simp
      · simp [h]

theorem pairwise_squeeze {le : α → α → Bool} (antisymm : ∀ a b, le a b → le b a → a = b)
    {xs : List α} (h : xs.Pairwise fun a b => le a b) :
    (squeeze xs).Pairwise fun a b => le a b ∧ a ≠ b := by
  induction xs with
  | nil => exact List.Pairwise.nil
  | cons x xs ih =>
    obtain ⟨hx, hxs⟩ := List.pairwise_cons.1 h
    have hs := ih hxs
    have hle : ∀ z ∈ squeeze xs, le x z := fun z hz => hx z (mem_squeeze.1 hz)
    rw [squeeze_cons]
    cases hsq : squeeze xs with
    | nil => exact List.pairwise_singleton _ _
    | cons y ys =>
      rw [hsq] at hs hle
      by_cases hxy : x = y
      · simpa only [if_pos hxy] using hs
      · simp only [if_neg hxy]
        refine List.pairwise_cons.2 ⟨fun z hz => ⟨hle z hz, ?_⟩, hs⟩
        rintro rfl
        rcases List.mem_cons.1 hz with rfl | hz
        · exact hxy rfl
        · have hyx := (List.pairwise_cons.1 hs).1 x hz
          exact hxy (antisymm x y (hle y List.mem_cons_self) hyx.1)

@[simp] theorem ascending_nil {le : α → α → Bool} : ascending le [] = [] := by
  simp [ascending, squeeze]

@[simp] theorem mem_ascending {le : α → α → Bool} {a : α} {xs : List α} :
    a ∈ ascending le xs ↔ a ∈ xs := by
  simp [ascending]

theorem pairwise_ascending {le : α → α → Bool} (trans : ∀ a b c, le a b → le b c → le a c)
    (total : ∀ a b, le a b || le b a) (antisymm : ∀ a b, le a b → le b a → a = b) (xs : List α) :
    (ascending le xs).Pairwise fun a b => le a b ∧ a ≠ b :=
  pairwise_squeeze antisymm (List.pairwise_mergeSort trans total xs)

end Ascending

section Order

variable {α : Type} [DecidableEq α] [LE α] [DecidableLE α] [Std.IsLinearOrder α]

theorem pairwise_le_ascending (xs : List α) :
    (ascending (fun a b => decide (a ≤ b)) xs).Pairwise fun a b => a ≤ b ∧ a ≠ b := by
  have htrans : ∀ a b c : α, decide (a ≤ b) → decide (b ≤ c) → decide (a ≤ c) := by
    intro a b c hab hbc
    exact decide_eq_true (Std.le_trans (of_decide_eq_true hab) (of_decide_eq_true hbc))
  have htotal : ∀ a b : α, decide (a ≤ b) || decide (b ≤ a) := by
    intro a b
    simpa using Std.le_total
  have hantisymm : ∀ a b : α, decide (a ≤ b) → decide (b ≤ a) → a = b := by
    intro a b hab hba
    exact Std.le_antisymm (of_decide_eq_true hab) (of_decide_eq_true hba)
  exact (pairwise_ascending htrans htotal hantisymm xs).imp fun h => ⟨of_decide_eq_true h.1, h.2⟩

theorem ascending_eq_iff {xs ys : List α} :
    ascending (fun a b => decide (a ≤ b)) xs = ascending (fun a b => decide (a ≤ b)) ys ↔
      ∀ a, a ∈ xs ↔ a ∈ ys := by
  constructor
  · intro h a
    rw [← mem_ascending, h, mem_ascending]
  · intro h
    have hasymm : ∀ a b : α, a ≤ b ∧ a ≠ b → ¬ (b ≤ a ∧ b ≠ a) :=
      fun a b hab hba => hab.2 (Std.le_antisymm hab.1 hba.1)
    exact eq_of_pairwise hasymm (pairwise_le_ascending xs) (pairwise_le_ascending ys)
      fun a => by rw [mem_ascending, mem_ascending, h]

end Order

theorem pairwise_lt_ascending (xs : List Nat) :
    (ascending (fun a b => decide (a ≤ b)) xs).Pairwise (· < ·) :=
  (pairwise_le_ascending xs).imp fun h => Nat.lt_of_le_of_ne h.1 h.2

namespace Atoms

theorem le_iff {a b : Symbol} : le a b ↔ a < b ∨ a = b := by
  rw [le, Ordering.isLE_iff_eq_lt_or_eq_eq, Std.compare_eq_iff_eq, Symbol.lt_iff]

theorem le_trans (a b c : Symbol) (hab : le a b) (hbc : le b c) : le a c :=
  Std.TransOrd.isLE_trans hab hbc

theorem le_total (a b : Symbol) : le a b || le b a := by
  rw [Bool.or_eq_true, le_iff, le_iff]
  rcases Symbol.lt_trichotomy a b with h | h | h
  · exact .inl (.inl h)
  · exact .inl (.inr h)
  · exact .inr (.inl h)

theorem le_antisymm (a b : Symbol) (hab : le a b) (hba : le b a) : a = b := by
  rcases le_iff.1 hab with h | h
  · rcases le_iff.1 hba with h' | h'
    · exact absurd h' (Symbol.lt_asymm h)
    · exact h'.symm
  · exact h

theorem lt_of_le_of_ne {a b : Symbol} (h : le a b ∧ a ≠ b) : a < b :=
  (le_iff.1 h.1).resolve_right h.2

theorem le_of_lt {a b : Symbol} (h : a < b) : le a b := le_iff.2 (.inl h)

@[simp] theorem mem_ofList {s : Symbol} {xs : List Symbol} : s ∈ ofList xs ↔ s ∈ xs :=
  mem_ascending

theorem pairwise_ofList (xs : List Symbol) : (ofList xs).Pairwise (· < ·) :=
  (pairwise_ascending le_trans le_total le_antisymm xs).imp lt_of_le_of_ne

@[simp] theorem mem_union {s : Symbol} {xs ys : List Symbol} :
    s ∈ union xs ys ↔ s ∈ xs ∨ s ∈ ys := by
  rw [union, mem_squeeze, List.mem_merge]

theorem pairwise_union {xs ys : List Symbol} (hx : xs.Pairwise (· < ·)) (hy : ys.Pairwise (· < ·)) :
    (union xs ys).Pairwise (· < ·) := by
  have h := List.pairwise_merge le_trans le_total xs ys (hx.imp le_of_lt) (hy.imp le_of_lt)
  exact (pairwise_squeeze le_antisymm h).imp lt_of_le_of_ne

@[simp] theorem mem_insert {s x : Symbol} {xs : List Symbol} :
    x ∈ insert s xs ↔ x = s ∨ x ∈ xs := by
  induction xs with
  | nil => simp [insert]
  | cons y ys ih =>
    rw [insert]
    cases h : compare s y with
    | lt => simp
    | eq =>
      obtain rfl := Std.compare_eq_iff_eq.1 h
      simp
    | gt => simp [ih, or_left_comm]

theorem pairwise_insert {s : Symbol} {xs : List Symbol} (h : xs.Pairwise (· < ·)) :
    (insert s xs).Pairwise (· < ·) := by
  induction xs with
  | nil => exact List.pairwise_singleton _ _
  | cons y ys ih =>
    obtain ⟨hy, hys⟩ := List.pairwise_cons.1 h
    rw [insert]
    cases hc : compare s y with
    | lt =>
      refine List.pairwise_cons.2 ⟨fun z hz => ?_, h⟩
      rcases List.mem_cons.1 hz with rfl | hz
      · exact hc
      · exact Symbol.lt_trans hc (hy z hz)
    | eq => exact h
    | gt =>
      refine List.pairwise_cons.2 ⟨fun z hz => ?_, ih hys⟩
      rcases mem_insert.1 hz with rfl | hz
      · exact Std.OrientedCmp.lt_of_gt hc
      · exact hy z hz

end Atoms

section FirstOccurrences

variable {α : Type} [DecidableEq α]

@[simp] theorem mem_appendNew {xs : List α} {x y : α} : y ∈ appendNew xs x ↔ y ∈ xs ∨ y = x := by
  rw [appendNew]
  split
  · next h => exact ⟨.inl, fun hy => hy.elim id fun hy => hy ▸ h⟩
  · simp

theorem nodup_appendNew {xs : List α} (h : xs.Nodup) (x : α) : (appendNew xs x).Nodup := by
  rw [appendNew]
  split
  · exact h
  · next hx => exact List.nodup_append.2 ⟨h, by simp, by simp; grind⟩

@[simp] theorem mem_foldl_appendNew {xs ys : List α} {a : α} :
    a ∈ ys.foldl appendNew xs ↔ a ∈ xs ∨ a ∈ ys := by
  induction ys generalizing xs with
  | nil => simp
  | cons y ys ih => simp [ih, or_assoc]

theorem foldl_appendNew (xs before : List α) :
    xs.foldl appendNew before = before ++ (xs.filter fun x => x ∉ before).eraseDups := by
  induction xs generalizing before with
  | nil => simp
  | cons x xs ih =>
    rw [List.foldl_cons, ih, appendNew]
    by_cases hx : x ∈ before
    · rw [if_pos hx, List.filter_cons_of_neg (by simpa using hx)]
    · have hfilter : xs.filter (fun y => y ∉ before ++ [x]) =
          (xs.filter fun y => y ∉ before).filter fun y => !y == x := by
        rw [List.filter_filter]
        exact List.filter_congr fun y _ => by grind
      rw [if_neg hx, List.filter_cons_of_pos (by simpa using hx), List.eraseDups_cons, hfilter,
        List.append_assoc, List.singleton_append]

theorem nodup_eraseDups : (xs : List α) → xs.eraseDups.Nodup
  | [] => .nil
  | x :: xs => by
    rw [List.eraseDups_cons, List.nodup_cons, List.mem_eraseDups]
    exact ⟨by simp, nodup_eraseDups _⟩
termination_by xs => xs.length
decreasing_by exact Nat.lt_succ_of_le (List.length_filter_le _ _)

variable [Hashable α]

theorem firstOccurrencesFrom_eq {seen : Std.HashSet α} {before : List α}
    (h : ∀ x, x ∈ seen ↔ x ∈ before) (xs : List α) :
    firstOccurrencesFrom seen before xs =
      before.reverse ++ (xs.filter fun x => x ∉ before).eraseDups := by
  induction xs generalizing seen before with
  | nil => simp [firstOccurrencesFrom]
  | cons x xs ih =>
    rw [firstOccurrencesFrom]
    by_cases hx : x ∈ before
    · have hcontains : seen.contains x = true := (h x).2 hx
      rw [if_pos hcontains, ih h, List.filter_cons_of_neg (by simpa using hx)]
    · have hseen : ∀ y, y ∈ seen.insert x ↔ y ∈ x :: before := by
        intro y
        rw [Std.HashSet.mem_insert, h, List.mem_cons, beq_iff_eq, @eq_comm _ x]
      have hfilter : xs.filter (fun y => y ∉ x :: before) =
          (xs.filter fun y => y ∉ before).filter fun y => !y == x := by
        rw [List.filter_filter]
        exact List.filter_congr fun y _ => by grind
      have hcontains : ¬ seen.contains x = true := mt (h x).1 hx
      rw [if_neg hcontains, ih hseen, hfilter, List.filter_cons_of_pos (by simpa using hx),
        List.eraseDups_cons, List.reverse_cons, List.append_assoc, List.singleton_append]

theorem firstOccurrences_eq_eraseDups (xs : List α) : firstOccurrences xs = xs.eraseDups := by
  rw [firstOccurrences, firstOccurrencesFrom_eq (by simp)]
  simp

@[simp] theorem mem_firstOccurrences {xs : List α} {a : α} : a ∈ firstOccurrences xs ↔ a ∈ xs := by
  rw [firstOccurrences_eq_eraseDups, List.mem_eraseDups]

theorem nodup_firstOccurrences (xs : List α) : (firstOccurrences xs).Nodup := by
  rw [firstOccurrences_eq_eraseDups]
  exact nodup_eraseDups xs

end FirstOccurrences

end AnswerSetTest
