import Mathlib.Data.List.Pairwise
import AnswerSetTest.Proofs.Syntax.ByteScan

/-!
# Ranges of tokens

The pieces of a text take its bytes from the first to the last, one piece after the other. So the
tokens have disjoint ranges in order, which start and end between characters, and what lies outside
them is blank.
-/

namespace AnswerSetTest

namespace Piece

variable {cs : List Char} {offset : Nat}

theorem exists_of_mem_all {p : Nat × Piece} (h : p ∈ all cs.length offset cs) :
    ∃ pre, cs = pre ++ (p.2.taken ++ p.2.rest) ∧ p.1 = offset + byteSize pre ∧ p.2.taken ≠ [] ∧
      (p.2.outcome = .blank → Blank p.2.taken p.2.rest) := by
  induction cs using text_induction generalizing offset with
  | nil => cases h
  | cut c body rest outcome hread hcut ih =>
    rw [all_cut hread, List.mem_cons] at h
    rcases h with rfl | h
    · refine ⟨[], rfl, rfl, List.cons_ne_nil c body, ?_⟩
      rintro rfl
      cases hcut with
      | blank h => exact h
    · obtain ⟨pre, hrest, hstart, hp⟩ := ih h
      refine ⟨c :: (body ++ pre), ?_, ?_, hp⟩
      · rw [List.cons_append, List.append_assoc, ← hrest]
      · rw [hstart, ← List.cons_append, byteSize_append, Nat.add_assoc]

theorem pairwise_all (offset : Nat) (cs : List Char) :
    (all cs.length offset cs).Pairwise fun p q => p.1 + byteSize p.2.taken ≤ q.1 := by
  induction cs using text_induction generalizing offset with
  | nil => exact .nil
  | cut c body rest outcome hread _ ih =>
    rw [all_cut hread]
    refine .cons (fun q hq => ?_) (ih _)
    obtain ⟨pre, -, hstart, -⟩ := exists_of_mem_all hq
    rw [hstart]
    exact Nat.le_add_right _ _

/-- One of two pieces ends where the other starts, or before. -/
def Apart (p q : Nat × Piece) : Prop :=
  p.1 + byteSize p.2.taken ≤ q.1 ∨ q.1 + byteSize q.2.taken ≤ p.1

instance : Std.Symm Apart := ⟨fun _ _ => Or.symm⟩

theorem pairwise_apart (cs : List Char) : (all cs.length 0 cs).Pairwise Apart :=
  (pairwise_all 0 cs).imp Or.inl

/-- Every byte of a text lies in one of its pieces. -/
theorem exists_mem_all {i : Nat} (hstart : offset ≤ i) (hstop : i < offset + byteSize cs) :
    ∃ p ∈ all cs.length offset cs, p.1 ≤ i ∧ i < p.1 + byteSize p.2.taken := by
  induction cs using text_induction generalizing offset with
  | nil => exact absurd hstop (Nat.not_lt.2 hstart)
  | cut c body rest outcome hread _ ih =>
    rw [all_cut hread]
    by_cases hi : i < offset + byteSize (c :: body)
    · exact ⟨_, List.mem_cons_self, hstart, hi⟩
    · rw [← List.cons_append, byteSize_append, ← Nat.add_assoc] at hstop
      obtain ⟨p, hp, hrange⟩ := ih (Nat.not_lt.1 hi) hstop
      exact ⟨p, List.mem_cons_of_mem _ hp, hrange⟩

end Piece

namespace Token

open Octets

variable {source : Source} {t : Token}

theorem tokenAt_eq_some_iff {p : Nat × Piece} : tokenAt p = some t ↔
    p.2.outcome = .token t.kind ∧ t.start = p.1 ∧ t.stop = p.1 + byteSize p.2.taken := by
  cases h : p.2.outcome with
  | token kind =>
    obtain ⟨kind', start, stop⟩ := t
    simp [tokenAt, h, eq_comm]
  | _ => simp [tokenAt, h]

theorem mem_tokens_iff : t ∈ tokens source ↔ ∃ p ∈ pieces source,
    p.2.outcome = .token t.kind ∧ t.start = p.1 ∧ t.stop = p.1 + byteSize p.2.taken := by
  have htokens : tokens source = (pieces source).filterMap tokenAt := rfl
  simp only [htokens, List.mem_filterMap, tokenAt_eq_some_iff]

/-- The range of a token is not empty, and the text can be cut at both its ends. -/
theorem range_of_mem_tokens {text : String} {file : Option String}
    (h : t ∈ tokens ⟨text.toList, file⟩) :
    t.start < t.stop ∧ t.stop ≤ text.utf8ByteSize ∧
      (⟨t.start⟩ : String.Pos.Raw).IsValid text ∧ (⟨t.stop⟩ : String.Pos.Raw).IsValid text := by
  obtain ⟨p, hp, -, hstart, hstop⟩ := mem_tokens_iff.1 h
  obtain ⟨pre, htext, hpre, hne, -⟩ := Piece.exists_of_mem_all hp
  have htext : text.toList = pre ++ (p.2.taken ++ p.2.rest) := htext
  have hpos := byteSize_pos hne
  have hsize := byteSize_toList text
  rw [htext, byteSize_append, byteSize_append] at hsize
  rw [Nat.zero_add] at hpre
  refine ⟨by omega, by omega, ?_, ?_⟩
  · rw [← isSome_splitAt?_iff, hstart, hpre, htext, splitAt?_append]
    rfl
  · rw [← isSome_splitAt?_iff, hstop, hpre, htext, ← List.append_assoc, ← byteSize_append,
      splitAt?_append]
    rfl

theorem pairwise_tokens (source : Source) :
    (tokens source).Pairwise fun t u => t.stop ≤ u.start := by
  have htokens : tokens source = (pieces source).filterMap tokenAt := rfl
  rw [htokens, List.pairwise_filterMap]
  refine (Piece.pairwise_all 0 source.chars).imp fun hpq t ht u hu => ?_
  obtain ⟨-, -, hstop⟩ := tokenAt_eq_some_iff.1 ht
  obtain ⟨-, hstart, -⟩ := tokenAt_eq_some_iff.1 hu
  rw [hstop, hstart]
  exact hpq

theorem disjoint_of_mem_pieces {p : Nat × Piece} (hp : p ∈ pieces source)
    (hout : ∀ kind, p.2.outcome ≠ .token kind) (ht : t ∈ tokens source) :
    t.stop ≤ p.1 ∨ p.1 + byteSize p.2.taken ≤ t.start := by
  obtain ⟨q, hq, hkind, hstart, hstop⟩ := mem_tokens_iff.1 ht
  have hne : q ≠ p := by
    rintro rfl
    exact hout _ hkind
  rw [hstart, hstop]
  exact (Piece.pairwise_apart source.chars).forall hq hp hne

theorem exists_blank {ts : List Token} (hscan : scan source = .ok ts) {i : Nat}
    (hi : i < byteSize source.chars) (hout : ∀ t ∈ ts, ¬ (t.start ≤ i ∧ i < t.stop)) :
    ∃ pre blank post, source.chars = pre ++ (blank ++ post) ∧ Piece.Blank blank post ∧
      byteSize pre ≤ i ∧ i < byteSize pre + byteSize blank ∧
      ∀ t ∈ ts, t.stop ≤ byteSize pre ∨ byteSize pre + byteSize blank ≤ t.start := by
  obtain ⟨hok, rfl⟩ := scan_eq_ok_iff.1 hscan
  obtain ⟨p, hp, hstart, hstop⟩ :=
    Piece.exists_mem_all (Nat.zero_le i) (by rwa [Nat.zero_add])
  change p ∈ pieces source at hp
  obtain ⟨pre, hsource, hpre, -, hblank⟩ := Piece.exists_of_mem_all hp
  rw [Nat.zero_add] at hpre
  have hnot : ∀ kind, p.2.outcome ≠ .token kind := fun kind hkind =>
    hout ⟨kind, p.1, p.1 + byteSize p.2.taken⟩ (mem_tokens_iff.2 ⟨p, hp, hkind, rfl, rfl⟩)
      ⟨hstart, hstop⟩
  have houtcome : p.2.outcome = .blank := by
    cases h : p.2.outcome with
    | blank => rfl
    | token kind => exact absurd h (hnot kind)
    | fault problem => exact absurd rfl (hok _ (List.mem_map.2 ⟨p, hp, h⟩) problem)
  rw [hpre] at hstart hstop
  refine ⟨pre, p.2.taken, p.2.rest, hsource, hblank houtcome, hstart, hstop, fun t ht => ?_⟩
  rw [← hpre]
  exact disjoint_of_mem_pieces hp hnot ht

/-- The scan of a text by bytes ends, never cuts a character, and finds the tokens of the text.
These have disjoint ranges in order, which are not empty and start and end between characters.
Every byte outside them belongs to white space or to a comment. -/
theorem scan_covers (text : String) (file : Option String) :
    (∀ i, (splitAt? text.toList i).isSome ↔ (⟨i⟩ : String.Pos.Raw).IsValid text) ∧
    (∀ limit, text.utf8ByteSize < limit →
      scan? ⟨text.toList, file⟩ limit = some (scan ⟨text.toList, file⟩)) ∧
    ∀ tokens, scan ⟨text.toList, file⟩ = .ok tokens →
      (∀ t ∈ tokens, t.start < t.stop ∧ t.stop ≤ text.utf8ByteSize ∧
        (⟨t.start⟩ : String.Pos.Raw).IsValid text ∧ (⟨t.stop⟩ : String.Pos.Raw).IsValid text) ∧
      tokens.Pairwise (fun t u => t.stop ≤ u.start) ∧
      ∀ i < text.utf8ByteSize, (∀ t ∈ tokens, ¬ (t.start ≤ i ∧ i < t.stop)) →
        ∃ pre blank post, text.toList = pre ++ (blank ++ post) ∧ Piece.Blank blank post ∧
          byteSize pre ≤ i ∧ i < byteSize pre + byteSize blank ∧
          ∀ t ∈ tokens, t.stop ≤ byteSize pre ∨ byteSize pre + byteSize blank ≤ t.start := by
  refine ⟨isSome_splitAt?_iff text, fun limit hlimit => scan?_eq _ ?_, fun ts hscan => ?_⟩
  · rw [← byteSize_toList] at hlimit
    exact Nat.lt_of_le_of_lt (length_le_byteSize _) hlimit
  obtain ⟨-, rfl⟩ := scan_eq_ok_iff.1 hscan
  refine ⟨fun t => range_of_mem_tokens, pairwise_tokens _, fun i hi hout => ?_⟩
  rw [← byteSize_toList] at hi
  exact exists_blank hscan hi hout

end Token

end AnswerSetTest
