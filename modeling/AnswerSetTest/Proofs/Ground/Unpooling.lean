import AnswerSetTest.Ground.Selection
import AnswerSetTest.Proofs.Ground.Instance

/-!
# Unpooling

The terms that a term with pools stands for have no pools, so the selected rules have none outside
their count elements.
-/

namespace AnswerSetTest

theorem mem_product {α : Type} {row : List α} {xss : List (List α)} :
    row ∈ product xss ↔ List.Forall₂ (· ∈ ·) row xss := by
  induction xss generalizing row with
  | nil => rw [product, List.mem_singleton, List.forall₂_nil_right_iff]
  | cons xs xss ih =>
    rw [List.forall₂_cons_right_iff, product]
    simp only [List.mem_flatMap, List.mem_map, ih]
    constructor
    · rintro ⟨x, hx, row, hrow, rfl⟩
      exact ⟨x, row, hx, hrow, rfl⟩
    · rintro ⟨x, row, hx, hrow, rfl⟩
      exact ⟨x, hx, row, hrow, rfl⟩

namespace Term

mutual

theorem poolFree_of_mem_unpool : (t : Term) → ∀ u ∈ t.unpool, u.PoolFree
  | .number n, u, hu => by
    rw [unpool, List.mem_singleton] at hu
    exact hu ▸ .number n
  | .text s, u, hu => by
    rw [unpool, List.mem_singleton] at hu
    exact hu ▸ .text s
  | .variable v, u, hu => by
    rw [unpool, List.mem_singleton] at hu
    exact hu ▸ .variable v
  | .function name args, u, hu => by
    rw [unpool, List.mem_map] at hu
    obtain ⟨row, hrow, rfl⟩ := hu
    refine .function name fun t ht => ?_
    obtain ⟨us, hus, ht⟩ := (exists_mem_of_forall₂ (mem_product.1 hrow)).1 t ht
    exact poolFree_of_mem_unpoolAll args us hus t ht
  | .call name args, u, hu => by
    rw [unpool, List.mem_map] at hu
    obtain ⟨row, hrow, rfl⟩ := hu
    refine .call name fun t ht => ?_
    obtain ⟨us, hus, ht⟩ := (exists_mem_of_forall₂ (mem_product.1 hrow)).1 t ht
    exact poolFree_of_mem_unpoolAll args us hus t ht
  | .interval low high, u, hu => by
    simp only [unpool, List.mem_flatMap, List.mem_map] at hu
    obtain ⟨l, hl, h, hh, rfl⟩ := hu
    exact .interval (poolFree_of_mem_unpool low l hl) (poolFree_of_mem_unpool high h hh)
  | .pool alternatives, u, hu => by
    rw [unpool, List.mem_flatten] at hu
    obtain ⟨us, hus, hu⟩ := hu
    exact poolFree_of_mem_unpoolAll alternatives us hus u hu

theorem poolFree_of_mem_unpoolAll : (ts : List Term) → ∀ us ∈ unpoolAll ts, ∀ u ∈ us, u.PoolFree
  | [], us, hus, _, _ => by
    rw [unpoolAll] at hus
    cases hus
  | t :: ts, us, hus, u, hu => by
    rw [unpoolAll, List.mem_cons] at hus
    rcases hus with rfl | hus
    · exact poolFree_of_mem_unpool t u hu
    · exact poolFree_of_mem_unpoolAll ts us hus u hu

end

end Term

theorem Head.poolFree_of_mem_unpool {h h' : Head} (hmem : h' ∈ h.unpool) {t : Term}
    (ht : h'.HasTerm t) : t.PoolFree := by
  have hterms : ∀ ts : List Term, t ∈ ts.flatMap Term.unpool → t.PoolFree := by
    intro ts ht
    obtain ⟨u, -, ht⟩ := List.mem_flatMap.1 ht
    exact u.poolFree_of_mem_unpool t ht
  cases h with
  | atom u =>
    obtain ⟨u', hu', rfl⟩ := List.mem_map.1 hmem
    cases ht
    exact u.poolFree_of_mem_unpool _ hu'
  | disjunction ts =>
    obtain rfl := List.mem_singleton.1 hmem
    cases ht with
    | disjunction mem => exact hterms ts mem
  | choice ts =>
    obtain rfl := List.mem_singleton.1 hmem
    cases ht with
    | choice mem => exact hterms ts mem
  | falsity =>
    obtain rfl := List.mem_singleton.1 hmem
    cases ht

theorem Literal.poolFree_of_mem_unpool {l l' : Literal} (hmem : l' ∈ l.unpool) :
    ∀ t ∈ l'.outerTerms, t.PoolFree := by
  cases l with
  | atom negated u =>
    obtain ⟨t, ht, rfl⟩ := List.mem_map.1 hmem
    exact fun t' ht' => List.mem_singleton.1 ht' ▸ u.poolFree_of_mem_unpool t ht
  | comparison left op right =>
    simp only [unpool, List.mem_flatMap, List.mem_map] at hmem
    obtain ⟨l, hl, r, hr, rfl⟩ := hmem
    intro t ht
    rcases List.mem_pair.1 ht with rfl | rfl
    · exact left.poolFree_of_mem_unpool t hl
    · exact right.poolFree_of_mem_unpool t hr
  | count elements op bound =>
    obtain ⟨t, ht, rfl⟩ := List.mem_map.1 hmem
    exact fun t' ht' => List.mem_singleton.1 ht' ▸ bound.poolFree_of_mem_unpool t ht

namespace Rule

theorem mem_unpool {r s : Rule} : s ∈ r.unpool ↔ ∃ head ∈ r.head.unpool, ∃ body,
    List.Forall₂ (fun l' l => l' ∈ Literal.unpool l) body r.body ∧ s = { r with head, body } := by
  simp only [unpool, List.mem_flatMap, List.mem_map, mem_product, List.forall₂_map_right_iff]
  grind

/-- A rule without pools outside its count elements. -/
def PoolFree (r : Rule) : Prop := ∀ t, r.HasOuterTerm t → t.PoolFree

theorem poolFree_of_mem_unpool {r s : Rule} (h : s ∈ r.unpool) : s.PoolFree := by
  obtain ⟨head, hhead, body, hbody, rfl⟩ := mem_unpool.1 h
  intro t ht
  rcases ht with ht | ⟨l', hl', ht⟩
  · exact Head.poolFree_of_mem_unpool hhead ht
  · obtain ⟨l, -, hl⟩ := (exists_mem_of_forall₂ hbody).1 l' hl'
    exact Literal.poolFree_of_mem_unpool hl t ht

theorem PoolFree.positives {r : Rule} (hr : r.PoolFree) : ∀ t ∈ r.positives, t.PoolFree :=
  fun t ht => hr t (hasOuterTerm_iff.2 (.inr (.inl ht)))

end Rule

end AnswerSetTest
