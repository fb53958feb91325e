import Mathlib.Data.Finset.Card
import Mathlib.Data.Nat.Bitwise
import AnswerSetTest.Search
import AnswerSetTest.Proofs.GroundProgram.LeastModel

/-!
# Masks

A mask stands for a set of listed atoms together with the facts. The masks below a power of two
stand for all such sets, each for one, and of two masks the larger has the last listed atom on
which the two sets differ.
-/

namespace AnswerSetTest

open Interpretation (ofArray ofMask)

section Places

theorem getD_foldl_places_of_not_mem (l : List (Nat × Nat)) (xs : Array (Option Nat)) {a : Nat}
    (ha : a ∉ l.map Prod.fst) :
    (l.foldl (fun ps (a, i) => ps.setIfInBounds a (some i)) xs).getD a none = xs.getD a none := by
  induction l generalizing xs with
  | nil => rfl
  | cons e l ih =>
    rw [List.map_cons, List.mem_cons, not_or] at ha
    rw [List.foldl_cons, ih _ ha.2]
    simp [Array.getElem?_setIfInBounds_ne (Ne.symm ha.1)]

theorem getD_foldl_places_of_mem (l : List (Nat × Nat)) (xs : Array (Option Nat)) {a i : Nat}
    (hl : (l.map Prod.fst).Nodup) (ha : (a, i) ∈ l) (hlt : a < xs.size) :
    (l.foldl (fun ps (a, i) => ps.setIfInBounds a (some i)) xs).getD a none = some i := by
  induction l generalizing xs with
  | nil => exact absurd ha List.not_mem_nil
  | cons e l ih =>
    rw [List.map_cons, List.nodup_cons] at hl
    rw [List.foldl_cons]
    rcases List.mem_cons.1 ha with rfl | ha
    · rw [getD_foldl_places_of_not_mem l _ hl.1]
      simp [hlt]
    · exact ih _ hl.2 ha (by rwa [Array.size_setIfInBounds])

theorem getD_places {size : Nat} {listed : List Nat} (hn : listed.Nodup)
    (hlt : ∀ a ∈ listed, a < size) {a i : Nat} :
    (places size listed).getD a none = some i ↔ listed[i]? = some a := by
  have hfst : (listed.zipIdx.map Prod.fst).Nodup := by rwa [List.zipIdx_map_fst]
  have hget : ∀ j, listed[j]? = some a → (places size listed).getD a none = some j := by
    intro j hj
    refine getD_foldl_places_of_mem _ _ hfst (List.mk_mem_zipIdx_iff_getElem?.2 hj) ?_
    simpa using hlt a (List.mem_of_getElem? hj)
  refine ⟨fun h => ?_, hget i⟩
  by_cases ha : a ∈ listed
  · obtain ⟨j, hj⟩ := List.mem_iff_getElem?.1 ha
    obtain rfl := Option.some.inj ((hget j hj).symm.trans h)
    exact hj
  · rw [places, getD_foldl_places_of_not_mem _ _ (by rwa [List.zipIdx_map_fst])] at h
    simp only [Array.getD_eq_getD_getElem?, Array.getElem?_replicate] at h
    split at h <;> cases h

end Places

section Masks

variable {facts : Array Bool} {listed : List Nat}

theorem ofMask_iff (hn : listed.Nodup) (hlt : ∀ a ∈ listed, a < facts.size) {mask a : Nat} :
    ofMask facts (places facts.size listed) mask a ↔
      ofArray facts a ∨ ∃ i, listed[i]? = some a ∧ mask.testBit i := by
  simp only [ofMask, ofArray, Bool.or_eq_true, ← getD_places hn hlt]
  cases (places facts.size listed).getD a none <;> simp

theorem exists_mask (hn : listed.Nodup) (hlt : ∀ a ∈ listed, a < facts.size) {I : Interpretation}
    (hfacts : ∀ a, ofArray facts a → I a) (hI : ∀ a, I a → ofArray facts a ∨ a ∈ listed) :
    ∃ mask < 2 ^ listed.length, ofMask facts (places facts.size listed) mask = I := by
  let bits : Fin listed.length → Bool := fun i => I (listed.get i)
  refine ⟨Nat.ofBits bits, Nat.ofBits_lt_two_pow bits, funext fun a => ?_⟩
  rw [Bool.eq_iff_iff, ofMask_iff hn hlt]
  constructor
  · rintro (ha | ⟨i, hi, hbit⟩)
    · exact hfacts a ha
    · obtain ⟨hlt, rfl⟩ := List.getElem?_eq_some_iff.1 hi
      rwa [Nat.testBit_ofBits_lt bits i hlt] at hbit
  · intro ha
    rcases hI a ha with hf | hmem
    · exact .inl hf
    · obtain ⟨i, hi⟩ := List.mem_iff_getElem?.1 hmem
      obtain ⟨hlt, rfl⟩ := List.getElem?_eq_some_iff.1 hi
      exact .inr ⟨i, hi, by rwa [Nat.testBit_ofBits_lt bits i hlt]⟩

/-- The most significant bit on which two numbers differ is set in the larger. -/
theorem exists_testBit_of_lt {m n : Nat} (h : m < n) :
    ∃ i, ¬ m.testBit i ∧ n.testBit i ∧ ∀ j, i < j → m.testBit j = n.testBit j := by
  have hne : m ^^^ n ≠ 0 := fun h0 => Nat.ne_of_lt h (Nat.xor_eq_zero_iff.1 h0)
  obtain ⟨i, hi, habove⟩ := Nat.exists_most_significant_bit hne
  have heq : ∀ j, i < j → m.testBit j = n.testBit j := by
    intro j hj
    have hj := habove j hj
    rwa [Nat.testBit_xor, bne_eq_false_iff_eq] at hj
  rw [Nat.testBit_xor, bne_iff_ne] at hi
  cases hm : m.testBit i with
  | false =>
    rw [hm] at hi
    exact ⟨i, by simp [hm], by simpa using hi.symm, heq⟩
  | true =>
    have hn : n.testBit i = false := by
      rw [hm] at hi
      simpa using hi.symm
    have hgt := Nat.lt_of_testBit i hn hm fun j hj => (heq j hj).symm
    omega

/-- Of two masks, the larger has the last listed atom on which the two differ. -/
theorem exists_atom_of_mask_lt (hp : listed.Pairwise (· < ·)) (hlt : ∀ a ∈ listed, a < facts.size)
    (hdisj : ∀ a ∈ listed, ¬ ofArray facts a) {m n : Nat} (h : m < n)
    (hn : n < 2 ^ listed.length) :
    ∃ a ∈ listed, ¬ ofMask facts (places facts.size listed) m a ∧
      ofMask facts (places facts.size listed) n a ∧
      ∀ b, a < b → ofMask facts (places facts.size listed) m b =
        ofMask facts (places facts.size listed) n b := by
  have hnodup : listed.Nodup := hp.imp fun h => Nat.ne_of_lt h
  obtain ⟨i, hm, hni, habove⟩ := exists_testBit_of_lt h
  have hi : i < listed.length := by
    by_contra hge
    have hpow : 2 ^ listed.length ≤ 2 ^ i := Nat.pow_le_pow_right (by omega) (by omega)
    rw [Nat.testBit_lt_two_pow (by omega)] at hni
    cases hni
  have hget : listed[i]? = some listed[i] := List.getElem?_eq_getElem hi
  refine ⟨listed[i], List.getElem_mem hi, ?_, ?_, ?_⟩
  · rw [ofMask_iff hnodup hlt, not_or]
    refine ⟨hdisj _ (List.getElem_mem hi), ?_⟩
    rintro ⟨j, hj, hbit⟩
    obtain rfl := (List.getElem?_inj hi hnodup).1 (hget.trans hj.symm)
    exact hm hbit
  · exact (ofMask_iff hnodup hlt).2 (.inr ⟨i, hget, hni⟩)
  · intro b hb
    rw [Bool.eq_iff_iff, ofMask_iff hnodup hlt, ofMask_iff hnodup hlt]
    refine or_congr_right (exists_congr fun j => and_congr_right fun hj => ?_)
    obtain ⟨hlj, rfl⟩ := List.getElem?_eq_some_iff.1 hj
    have hij : i < j := by
      by_contra hge
      rcases Nat.lt_or_eq_of_le (Nat.le_of_not_lt hge) with hji | rfl
      · have := List.pairwise_iff_getElem.1 hp j i hlj hi hji
        omega
      · omega
    rw [habove j hij]

theorem anyFrom_iff {test : Nat → Bool} {count first : Nat} :
    anyFrom test count first ↔ ∃ m, first ≤ m ∧ m < first + count ∧ test m := by
  induction count generalizing first with
  | zero =>
    simp only [anyFrom, Bool.false_eq_true, false_iff, not_exists]
    omega
  | succ count ih =>
    rw [anyFrom, Bool.or_eq_true, ih]
    constructor
    · rintro (h | ⟨m, hle, hlt, h⟩)
      · exact ⟨first, by omega, by omega, h⟩
      · exact ⟨m, by omega, by omega, h⟩
    · rintro ⟨m, hle, hlt, h⟩
      rcases Nat.eq_or_lt_of_le hle with rfl | hle
      · exact .inl h
      · exact .inr ⟨m, hle, by omega, h⟩

end Masks

end AnswerSetTest
