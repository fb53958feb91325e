import Mathlib.Data.List.Forall2

/-!
# Traversals

Lists that are mapped or folded by functions which may fail.
-/

namespace AnswerSetTest

variable {α β γ ε : Type}

theorem exists_mem_of_forall₂ {R : α → β → Prop} {xs : List α} {ys : List β}
    (h : List.Forall₂ R xs ys) : (∀ x ∈ xs, ∃ y ∈ ys, R x y) ∧ ∀ y ∈ ys, ∃ x ∈ xs, R x y := by
  induction h with
  | nil => simp
  | cons hxy _ ih =>
    refine ⟨List.forall_mem_cons.2 ⟨⟨_, List.mem_cons_self, hxy⟩, fun x hx => ?_⟩,
      List.forall_mem_cons.2 ⟨⟨_, List.mem_cons_self, hxy⟩, fun y hy => ?_⟩⟩
    · obtain ⟨y, hy, hxy⟩ := ih.1 x hx
      exact ⟨y, List.mem_cons_of_mem _ hy, hxy⟩
    · obtain ⟨x, hx, hxy⟩ := ih.2 y hy
      exact ⟨x, List.mem_cons_of_mem _ hx, hxy⟩

/-- Rows that take one element from each list, if the lists hold what is related to the `xs`. -/
theorem forall₂_mem_iff {R : α → β → Prop} {xs : List α} {yss : List (List β)}
    (h : List.Forall₂ (fun x ys => ∀ y, y ∈ ys ↔ R x y) xs yss) {row : List β} :
    List.Forall₂ (· ∈ ·) row yss ↔ List.Forall₂ R xs row := by
  induction h generalizing row with
  | nil => rw [List.forall₂_nil_left_iff, List.forall₂_nil_right_iff]
  | cons hx _ ih =>
    rw [List.forall₂_cons_left_iff, List.forall₂_cons_right_iff]
    simp only [hx, ih]

theorem forall₂_congr_of_mem {R S : α → β → Prop} {xs : List α} {ys : List β}
    (h : ∀ x ∈ xs, ∀ y, R x y ↔ S x y) : List.Forall₂ R xs ys ↔ List.Forall₂ S xs ys := by
  simp only [List.forall₂_iff_zip]
  refine and_congr_right fun _ => forall_congr' fun x => forall_congr' fun y => ?_
  exact imp_congr_right fun hmem => h x (List.of_mem_zip hmem).1 y

/-- What is picked last after one more element: from it, or as before. -/
theorem getLast?_filterMap_concat (f : α → Option β) (xs : List α) (x : α) :
    ((xs ++ [x]).filterMap f).getLast? = (f x).or (xs.filterMap f).getLast? := by
  rw [List.filterMap_append]
  cases h : f x with
  | none => simp [h]
  | some y => simp [h]

theorem mapM_cases (f : α → Except ε β) (as : List α) :
    (∃ bs, as.mapM f = .ok bs ∧ List.Forall₂ (fun a b => f a = .ok b) as bs) ∨
    ∃ e, as.mapM f = .error e ∧ ∃ a ∈ as, f a = .error e := by
  induction as with
  | nil => exact .inl ⟨[], rfl, .nil⟩
  | cons a as ih =>
    rw [List.mapM_cons]
    cases ha : f a with
    | error e => exact .inr ⟨e, rfl, a, List.mem_cons_self, ha⟩
    | ok b =>
      rcases ih with ⟨bs, hs, hforall⟩ | ⟨e, hs, a', hmem, ha'⟩
      · rw [hs]
        exact .inl ⟨b :: bs, rfl, .cons ha hforall⟩
      · rw [hs]
        exact .inr ⟨e, rfl, a', List.mem_cons_of_mem a hmem, ha'⟩

theorem forall₂_of_mapM_eq_ok {f : α → Except ε β} {as : List α} {bs : List β}
    (h : as.mapM f = .ok bs) : List.Forall₂ (fun a b => f a = .ok b) as bs := by
  rcases mapM_cases f as with ⟨bs', hs, hforall⟩ | ⟨e, hs, -⟩
  · rw [hs] at h
    cases h
    exact hforall
  · rw [hs] at h
    cases h

theorem mapM_congr {f g : α → Except ε β} {as : List α} (h : ∀ a ∈ as, f a = g a) :
    as.mapM f = as.mapM g := by
  induction as with
  | nil => rfl
  | cons a as ih =>
    rw [List.forall_mem_cons] at h
    rw [List.mapM_cons, List.mapM_cons, h.1, ih h.2]

theorem foldlM_congr {f g : β → α → Except ε β} {as : List α}
    (h : ∀ a ∈ as, ∀ b, f b a = g b a) (b : β) : as.foldlM f b = as.foldlM g b := by
  induction as generalizing b with
  | nil => rfl
  | cons a as ih =>
    rw [List.forall_mem_cons] at h
    rw [List.foldlM_cons, List.foldlM_cons, h.1]
    exact bind_congr (ih h.2)

/-- Both fail alike, or both succeed with related values. -/
inductive SameFailure (R : α → β → Prop) : Except ε α → Except ε β → Prop
  | error (e : ε) : SameFailure R (.error e) (.error e)
  | ok {a : α} {b : β} (h : R a b) : SameFailure R (.ok a) (.ok b)

namespace SameFailure

theorem eq_error {R : α → β → Prop} {e : ε} {y : Except ε β}
    (h : SameFailure R (.error e : Except ε α) y) : y = .error e := by
  cases h
  rfl

theorem exists_eq_ok {R : α → β → Prop} {a : α} {y : Except ε β}
    (h : SameFailure R (.ok a) y) : ∃ b, y = .ok b ∧ R a b := by
  cases h with
  | ok h => exact ⟨_, rfl, h⟩

theorem foldlM {R : β → γ → Prop} {f : β → α → Except ε β} {g : γ → α → Except ε γ}
    {as : List α} (h : ∀ a ∈ as, ∀ b c, R b c → SameFailure R (f b a) (g c a)) {b : β} {c : γ}
    (hbc : R b c) : SameFailure R (as.foldlM f b) (as.foldlM g c) := by
  induction as generalizing b c with
  | nil => exact .ok hbc
  | cons a as ih =>
    rw [List.forall_mem_cons] at h
    rw [List.foldlM_cons, List.foldlM_cons]
    have hstep := h.1 b c hbc
    generalize f b a = x at hstep ⊢
    generalize g c a = y at hstep ⊢
    cases hstep with
    | error e => exact .error e
    | ok hbc => exact ih h.2 hbc

end SameFailure

end AnswerSetTest
