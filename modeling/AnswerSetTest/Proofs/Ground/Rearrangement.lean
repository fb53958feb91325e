import AnswerSetTest.Ground.Selection
import AnswerSetTest.Proofs.Ground.Ascending
import Mathlib.Data.List.Perm.Basic
import Mathlib.Data.Option.Basic

/-!
# Rearranged selections

Selecting the same parts in another order gives the same statements in another order, or it fails
as well.
-/

namespace AnswerSetTest

/-- Both fail, or both succeed with related values. -/
inductive SameOutcome {ε δ α β : Type} (R : α → β → Prop) : Except ε α → Except δ β → Prop
  | ok {a : α} {b : β} (h : R a b) : SameOutcome R (.ok a) (.ok b)
  | error {e : ε} {d : δ} : SameOutcome R (.error e) (.error d)

namespace Selection

structure Rearranges (s t : Selection) : Prop where
  rules : s.rules.Perm t.rules
  externals : s.externals.Perm t.externals
  shown : Option.Rel List.Perm s.shown t.shown

def appendShown : Option (List Signature) → Option (List Signature) → Option (List Signature)
  | before, none => before
  | before, some signatures => some (before.getD [] ++ signatures)

def append (s t : Selection) : Selection :=
  ⟨s.rules ++ t.rules, s.externals ++ t.externals, appendShown s.shown t.shown⟩

variable {s s' t t' u : Selection}

theorem append_empty (s : Selection) : s.append .empty = s := by simp [append, empty, appendShown]

theorem append_assoc (s t u : Selection) : (s.append t).append u = s.append (t.append u) := by
  have hshown : appendShown (appendShown s.shown t.shown) u.shown =
      appendShown s.shown (appendShown t.shown u.shown) := by
    cases t.shown <;> cases u.shown <;> simp [appendShown]
  rw [append, append, append, append, hshown, List.append_assoc, List.append_assoc]

theorem foldl_add (σ : Substitution) (ss : List Statement) (s : Selection) :
    ss.foldl (add σ) s = s.append (ss.foldl (add σ) .empty) := by
  induction ss generalizing s with
  | nil => exact (append_empty s).symm
  | cons x ss ih =>
    have hadd : add σ s x = s.append (add σ .empty x) := by
      cases x with
      | rule r => simp [add, append, empty, appendShown]
      | external t span => simp [add, append, empty, appendShown]
      | showing signature span => simp [add, append, empty, appendShown]
      | defined signature span => exact (append_empty s).symm
      | unit d => exact (append_empty s).symm
    rw [List.foldl_cons, List.foldl_cons, ih, ih (add σ .empty x), hadd, append_assoc]

theorem shown_refl (xs : Option (List Signature)) : Option.Rel List.Perm xs xs := by
  cases xs with
  | none => exact .none
  | some xs => exact .some (.refl xs)

namespace Rearranges

theorem refl (s : Selection) : s.Rearranges s := ⟨.refl _, .refl _, shown_refl _⟩

theorem trans (h : s.Rearranges t) (h' : t.Rearranges u) : s.Rearranges u where
  rules := h.rules.trans h'.rules
  externals := h.externals.trans h'.externals
  shown := by
    have hshown := h.shown
    have hshown' := h'.shown
    generalize s.shown = xs at hshown ⊢
    generalize t.shown = ys at hshown hshown'
    generalize u.shown = zs at hshown' ⊢
    cases hshown with
    | none =>
      cases hshown'
      exact .none
    | some hxy =>
      cases hshown' with
      | some hyz => exact .some (hxy.trans hyz)

theorem append (h : s.Rearranges s') (t : Selection) : (s.append t).Rearranges (s'.append t) where
  rules := h.rules.append_right _
  externals := h.externals.append_right _
  shown := by
    have hshown := h.shown
    change Option.Rel List.Perm (appendShown s.shown t.shown) (appendShown s'.shown t.shown)
    generalize s.shown = xs at hshown ⊢
    generalize s'.shown = ys at hshown ⊢
    cases t.shown with
    | none => exact hshown
    | some zs =>
      cases hshown with
      | none => exact .some (.refl _)
      | some hxy => exact .some (hxy.append_right zs)

/-- What is selected last may as well be selected before. -/
theorem append_comm (s t u : Selection) :
    ((s.append t).append u).Rearranges ((s.append u).append t) where
  rules := by
    simp only [Selection.append, List.append_assoc]
    exact List.perm_append_comm.append_left _
  externals := by
    simp only [Selection.append, List.append_assoc]
    exact List.perm_append_comm.append_left _
  shown := by
    change Option.Rel List.Perm (appendShown (appendShown s.shown t.shown) u.shown)
      (appendShown (appendShown s.shown u.shown) t.shown)
    cases t.shown with
    | none => exact shown_refl _
    | some xs =>
      cases u.shown with
      | none => exact shown_refl _
      | some ys =>
        have hperm : (s.shown.getD [] ++ xs ++ ys).Perm (s.shown.getD [] ++ ys ++ xs) := by
          rw [List.append_assoc, List.append_assoc]
          exact List.perm_append_comm.append_left _
        exact .some hperm

variable {α : Type} (f : α → Selection)

theorem foldl_append {xs : List α} (h : s.Rearranges t) :
    (xs.foldl (fun s x => s.append (f x)) s).Rearranges
      (xs.foldl (fun s x => s.append (f x)) t) := by
  induction xs generalizing s t with
  | nil => exact h
  | cons x xs ih => exact ih (h.append (f x))

theorem foldl_append_perm {xs ys : List α} (hperm : xs.Perm ys) (s : Selection) :
    (xs.foldl (fun s x => s.append (f x)) s).Rearranges
      (ys.foldl (fun s x => s.append (f x)) s) := by
  induction hperm generalizing s with
  | nil => exact .refl s
  | cons x _ ih => exact ih (s.append (f x))
  | swap x y xs => exact foldl_append f (append_comm s (f y) (f x))
  | trans _ _ ih ih' => exact (ih s).trans (ih' s)

end Rearranges

end Selection

namespace Program

def ofPart (p : Program) (part : Part) : Selection :=
  (p.statementsOf part.name).foldl (Selection.add ((p.parametersOf part.name).zip part.args)) .empty

def Takes (p : Program) (part : Part) : Prop :=
  (p.parametersOf part.name).length = part.args.length

variable {p : Program} {part : Part} {parts parts' : List Part}

theorem selectPart_of_takes (h : p.Takes part) (s : Selection) :
    p.selectPart s part = .ok (s.append (p.ofPart part)) := by
  rw [selectPart, ofPart, ← Selection.foldl_add]
  exact if_neg (not_not_intro h)

theorem selectPart_of_not_takes (h : ¬ p.Takes part) (s : Selection) :
    ∃ fault, p.selectPart s part = .error fault := by
  rw [selectPart]
  exact ⟨_, if_pos h⟩

theorem foldlM_selectPart (p : Program) (parts : List Part) (s : Selection) :
    ((∀ part ∈ parts, p.Takes part) ∧
      parts.foldlM p.selectPart s = .ok (parts.foldl (fun s part => s.append (p.ofPart part)) s)) ∨
    ((∃ part ∈ parts, ¬ p.Takes part) ∧ ∃ fault, parts.foldlM p.selectPart s = .error fault) := by
  induction parts generalizing s with
  | nil => exact .inl ⟨by simp, rfl⟩
  | cons part parts ih =>
    rw [List.foldlM_cons]
    by_cases h : p.Takes part
    · rw [selectPart_of_takes h]
      rcases ih (s.append (p.ofPart part)) with ⟨hall, hok⟩ | ⟨⟨part', hmem, hnot⟩, fault, herror⟩
      · exact .inl ⟨List.forall_mem_cons.2 ⟨h, hall⟩, hok⟩
      · exact .inr ⟨⟨part', List.mem_cons_of_mem _ hmem, hnot⟩, fault, herror⟩
    · obtain ⟨fault, herror⟩ := selectPart_of_not_takes h s
      rw [herror]
      exact .inr ⟨⟨part, List.mem_cons_self, h⟩, fault, rfl⟩

/-- The order of parts only matters for the order of what is selected. -/
theorem select_perm (p : Program) (h : parts.Perm parts') :
    SameOutcome Selection.Rearranges (p.select parts) (p.select parts') := by
  have hperm : (firstOccurrences parts).Perm (firstOccurrences parts') := by
    refine (List.perm_ext_iff_of_nodup (nodup_firstOccurrences _) (nodup_firstOccurrences _)).2 ?_
    intro part
    rw [mem_firstOccurrences, mem_firstOccurrences, h.mem_iff]
  rw [select, select]
  have hcases := foldlM_selectPart p (firstOccurrences parts) .empty
  have hcases' := foldlM_selectPart p (firstOccurrences parts') .empty
  rcases hcases with ⟨hall, hok⟩ | ⟨⟨part, hmem, hnot⟩, fault, herror⟩
  · rcases hcases' with ⟨-, hok'⟩ | ⟨⟨part, hmem, hnot⟩, -⟩
    · rw [hok, hok']
      exact .ok (Selection.Rearranges.foldl_append_perm p.ofPart hperm .empty)
    · exact absurd (hall part (hperm.mem_iff.2 hmem)) hnot
  · rcases hcases' with ⟨hall, -⟩ | ⟨-, fault', herror'⟩
    · exact absurd (hall part (hperm.mem_iff.1 hmem)) hnot
    · rw [herror, herror']
      exact .error

end Program

end AnswerSetTest
