import Mathlib.Data.Finset.Card
import Mathlib.Data.List.Forall2
import Std.Data.HashMap.Lemmas
import AnswerSetTest.Ground.Simplification
import AnswerSetTest.Proofs.Ground.Ascending

/-!
# Numbers of symbols

The atoms of a ground program are numbered from one in ascending order of their symbols, so the
numbers of known symbols are unique and ordered like the symbols.
-/

namespace AnswerSetTest

def Numbered (symbols : List Symbol) (s : Symbol) (a : AtomId) : Prop :=
  (s, a) ∈ symbols.zipIdx 1

namespace Numbered

variable {symbols : List Symbol} {s t : Symbol} {a b : Nat}

theorem iff_getElem? : Numbered symbols s a ↔ 1 ≤ a ∧ symbols[a - 1]? = some s :=
  List.mk_mem_zipIdx_iff_le_and_getElem?_sub

theorem mem (h : Numbered symbols s a) : s ∈ symbols :=
  List.mem_of_getElem? (iff_getElem?.1 h).2

theorem one_le (h : Numbered symbols s a) : 1 ≤ a := (iff_getElem?.1 h).1

theorem le_length (h : Numbered symbols s a) : a ≤ symbols.length := by
  obtain ⟨hone, hget⟩ := iff_getElem?.1 h
  have hlt : a - 1 < symbols.length := (List.getElem?_eq_some_iff.1 hget).1
  omega

theorem exists_of_mem (h : s ∈ symbols) : ∃ a, Numbered symbols s a := by
  obtain ⟨i, hi⟩ := List.mem_iff_getElem?.1 h
  exact ⟨i + 1, iff_getElem?.2 ⟨by omega, by simpa using hi⟩⟩

theorem exists_of_le (hone : 1 ≤ a) (hle : a ≤ symbols.length) : ∃ s, Numbered symbols s a := by
  have hlt : a - 1 < symbols.length := by omega
  exact ⟨symbols[a - 1], iff_getElem?.2 ⟨hone, List.getElem?_eq_getElem hlt⟩⟩

theorem symbol_unique (hs : Numbered symbols s a) (ht : Numbered symbols t a) : s = t := by
  have h := (iff_getElem?.1 hs).2.symm.trans (iff_getElem?.1 ht).2
  exact Option.some.inj h

theorem lt_of_lt (hp : symbols.Pairwise (· < ·)) (hs : Numbered symbols s a)
    (ht : Numbered symbols t b) (h : a < b) : s < t := by
  obtain ⟨ha, hsa⟩ := iff_getElem?.1 hs
  obtain ⟨hb, htb⟩ := iff_getElem?.1 ht
  obtain ⟨hla, rfl⟩ := List.getElem?_eq_some_iff.1 hsa
  obtain ⟨hlb, rfl⟩ := List.getElem?_eq_some_iff.1 htb
  exact List.pairwise_iff_getElem.1 hp (a - 1) (b - 1) hla hlb (by omega)

theorem lt_iff (hp : symbols.Pairwise (· < ·)) (hs : Numbered symbols s a)
    (ht : Numbered symbols t b) : s < t ↔ a < b := by
  refine ⟨fun h => ?_, hs.lt_of_lt hp ht⟩
  rcases Nat.lt_trichotomy a b with hab | rfl | hba
  · exact hab
  · rw [hs.symbol_unique ht] at h
    exact absurd h (Symbol.lt_irrefl t)
  · exact absurd (ht.lt_of_lt hp hs hba) (Symbol.lt_asymm h)

theorem number_unique (hp : symbols.Pairwise (· < ·)) (ha : Numbered symbols s a)
    (hb : Numbered symbols s b) : a = b := by
  rcases Nat.lt_trichotomy a b with hab | hab | hab
  · exact absurd (ha.lt_of_lt hp hb hab) (Symbol.lt_irrefl s)
  · exact hab
  · exact absurd (hb.lt_of_lt hp ha hab) (Symbol.lt_irrefl s)

end Numbered

theorem getElem?_ofList_zipIdx {α : Type} [DecidableEq α] [Hashable α] {xs : List α} {k : Nat}
    (hn : xs.Nodup) {x : α} {a : Nat} :
    (Std.HashMap.ofList (xs.zipIdx k))[x]? = some a ↔ (x, a) ∈ xs.zipIdx k := by
  have hdistinct : (xs.zipIdx k).Pairwise fun x y => (x.1 == y.1) = false := by
    have hfst : ((xs.zipIdx k).map Prod.fst).Nodup := by rwa [List.zipIdx_map_fst]
    exact (List.pairwise_map.1 hfst).imp fun h => beq_eq_false_iff_ne.2 h
  have hget : ∀ b, (x, b) ∈ xs.zipIdx k → (Std.HashMap.ofList (xs.zipIdx k))[x]? = some b :=
    fun b hb => Std.HashMap.getElem?_ofList_of_mem (beq_self_eq_true x) hdistinct hb
  refine ⟨fun h => ?_, hget a⟩
  by_cases hmem : x ∈ xs
  · obtain ⟨i, hi⟩ := List.mem_iff_getElem?.1 hmem
    have hi' : (x, k + i) ∈ xs.zipIdx k := List.mk_mem_zipIdx_iff_le_and_getElem?_sub.2
      ⟨Nat.le_add_right k i, by rwa [Nat.add_sub_cancel_left]⟩
    rw [hget _ hi'] at h
    exact Option.some.inj h ▸ hi'
  · have hnone : (Std.HashMap.ofList (xs.zipIdx k))[x]? = none :=
      Std.HashMap.getElem?_ofList_of_contains_eq_false (by simpa [List.zipIdx_map_fst] using hmem)
    rw [hnone] at h
    exact absurd h nofun

namespace Numbering

variable {symbols : List Symbol} {s : Symbol} {a : Nat}

theorem getElem?_ofSymbols (hp : symbols.Pairwise (· < ·)) :
    (ofSymbols symbols)[s]? = some a ↔ Numbered symbols s a :=
  getElem?_ofList_zipIdx (Symbol.nodup_of_ascending hp)

theorem mem_numbers (hp : symbols.Pairwise (· < ·)) {ss : List Symbol} :
    a ∈ (ofSymbols symbols).numbers ss ↔ ∃ s ∈ ss, Numbered symbols s a := by
  simp only [numbers, List.mem_filterMap, getElem?_ofSymbols hp]

theorem numbers_eq_of_forall₂ (hp : symbols.Pairwise (· < ·)) {ss : List Symbol}
    {as : List AtomId} (h : List.Forall₂ (Numbered symbols) ss as) :
    (ofSymbols symbols).numbers ss = as := by
  induction h with
  | nil => rfl
  | cons hs _ ih =>
    rw [numbers, List.filterMap_cons_some ((getElem?_ofSymbols hp).2 hs), ← numbers, ih]

end Numbering

end AnswerSetTest
