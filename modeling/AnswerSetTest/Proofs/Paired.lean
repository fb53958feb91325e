import Mathlib.Data.Set.Basic

/-!
# Paired sets

Sets that correspond to each other up to a relation.
-/

namespace AnswerSetTest

/-- Every element of one set has a related one in the other. -/
structure Paired {α : Type} (A : α → α → Prop) (S T : Set α) : Prop where
  left : ∀ a ∈ S, ∃ b ∈ T, A a b
  right : ∀ b ∈ T, ∃ a ∈ S, A a b

namespace Paired

variable {α : Type} {A : α → α → Prop} {S S' T T' : Set α}

theorem union (h : Paired A S T) (h' : Paired A S' T') : Paired A (S ∪ S') (T ∪ T') where
  left := by
    rintro a (ha | ha)
    · obtain ⟨b, hb, hab⟩ := h.left a ha
      exact ⟨b, .inl hb, hab⟩
    · obtain ⟨b, hb, hab⟩ := h'.left a ha
      exact ⟨b, .inr hb, hab⟩
  right := by
    rintro b (hb | hb)
    · obtain ⟨a, ha, hab⟩ := h.right b hb
      exact ⟨a, .inl ha, hab⟩
    · obtain ⟨a, ha, hab⟩ := h'.right b hb
      exact ⟨a, .inr ha, hab⟩

theorem eq (h : Paired Eq S T) : S = T := by
  refine Set.Subset.antisymm (fun a ha => ?_) fun b hb => ?_
  · obtain ⟨b, hb, rfl⟩ := h.left a ha
    exact hb
  · obtain ⟨a, ha, rfl⟩ := h.right b hb
    exact ha

theorem of_symm (hA : ∀ a b, A a b → A b a) (left : ∀ a ∈ S, ∃ b ∈ T, A a b)
    (right : ∀ b ∈ T, ∃ a ∈ S, A b a) : Paired A S T where
  left := left
  right b hb := by
    obtain ⟨a, ha, hba⟩ := right b hb
    exact ⟨a, ha, hA b a hba⟩

theorem symm (hA : ∀ a b, A a b → A b a) (h : Paired A S T) : Paired A T S where
  left b hb := by
    obtain ⟨a, ha, hab⟩ := h.right b hb
    exact ⟨a, ha, hA a b hab⟩
  right a ha := by
    obtain ⟨b, hb, hab⟩ := h.left a ha
    exact ⟨b, hb, hA a b hab⟩

theorem refl (S : Set α) : Paired Eq S S := ⟨fun a ha => ⟨a, ha, rfl⟩, fun b hb => ⟨b, hb, rfl⟩⟩

theorem flatMap {β : Type} {B : β → β → Prop} {xs ys : List α} {f g : α → List β}
    (h : Paired A {a | a ∈ xs} {a | a ∈ ys})
    (hfg : ∀ a b, A a b → Paired B {c | c ∈ f a} {c | c ∈ g b}) :
    Paired B {c | c ∈ xs.flatMap f} {c | c ∈ ys.flatMap g} where
  left c hc := by
    obtain ⟨a, ha, hc⟩ := List.mem_flatMap.1 hc
    obtain ⟨b, hb, hab⟩ := h.left a ha
    obtain ⟨d, hd, hcd⟩ := (hfg a b hab).left c hc
    exact ⟨d, List.mem_flatMap.2 ⟨b, hb, hd⟩, hcd⟩
  right d hd := by
    obtain ⟨b, hb, hd⟩ := List.mem_flatMap.1 hd
    obtain ⟨a, ha, hab⟩ := h.right b hb
    obtain ⟨c, hc, hcd⟩ := (hfg a b hab).right d hd
    exact ⟨c, List.mem_flatMap.2 ⟨a, ha, hc⟩, hcd⟩

end Paired

end AnswerSetTest
