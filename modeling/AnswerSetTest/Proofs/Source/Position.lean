import AnswerSetTest.Proofs.Syntax.Octets

/-!
# Lines and columns

The line and the column of a place are those reached by reading the text before it character by
character. Every character leads to a later place, on the same line or at the start of the next.
So two places at which a text can be cut never have the same line and column, and every other
offset is taken for such a place.
-/

namespace AnswerSetTest

namespace Span

def place (span : Span) : Nat × Nat := (span.line, span.column)

def Precedes (p q : Nat × Nat) : Prop := p.1 < q.1 ∨ p.1 = q.1 ∧ p.2 < q.2

theorem Precedes.trans {p q r : Nat × Nat} (hpq : Precedes p q) (hqr : Precedes q r) :
    Precedes p r := by
  unfold Precedes at *
  omega

theorem Precedes.irrefl (p : Nat × Nat) : ¬ Precedes p p := by
  unfold Precedes
  omega

theorem place_locate (source : Source) (start stop : Nat) :
    (locate source start stop).place = position 1 1 source.chars start := rfl

end Span

namespace Octets

open AnswerSetTest.Span

variable {pre post : List Char}

theorem precedes_advance (p : Nat × Nat) (c : Char) : Precedes p (advance p c) := by
  unfold Precedes advance
  by_cases hc : c = '\n'
  · rw [if_pos hc]
    exact .inl (Nat.lt_succ_self p.1)
  · rw [if_neg hc]
    exact .inr ⟨rfl, Nat.lt_succ_self p.2⟩

theorem precedes_foldl_advance (p : Nat × Nat) {cs : List Char} (h : cs ≠ []) :
    Precedes p (cs.foldl advance p) := by
  induction cs generalizing p with
  | nil => exact absurd rfl h
  | cons c cs ih =>
    have hc := precedes_advance p c
    by_cases hcs : cs = []
    · subst hcs
      exact hc
    · exact hc.trans (ih (advance p c) hcs)

theorem floor_byteSize (pre post : List Char) : Floor pre post (byteSize pre) := by
  refine ⟨Nat.le_refl _, fun c _ => ?_⟩
  have hc := c.utf8Size_pos
  omega

theorem position_byteSize (pre post : List Char) :
    Span.position 1 1 (pre ++ post) (byteSize pre) = pre.foldl advance (1, 1) :=
  position_of_floor (floor_byteSize pre post) (1, 1)

theorem exists_of_isValid {text : String} {i : Nat}
    (h : (⟨i⟩ : String.Pos.Raw).IsValid text) :
    ∃ pre post, text.toList = pre ++ post ∧ i = byteSize pre := by
  rw [← isSome_splitAt?_iff] at h
  obtain ⟨⟨pre, post⟩, hsplit⟩ := Option.isSome_iff_exists.1 h
  exact ⟨pre, post, splitAt?_eq_some hsplit⟩

theorem isValid_byteSize {text : String} (h : text.toList = pre ++ post) :
    (⟨byteSize pre⟩ : String.Pos.Raw).IsValid text := by
  rw [← isSome_splitAt?_iff, h, splitAt?_append]
  rfl

/-- Of two places, the one that stands before the other has a smaller line and column. -/
theorem precedes_position {text : String} {a b : Nat}
    (ha : (⟨a⟩ : String.Pos.Raw).IsValid text) (hb : (⟨b⟩ : String.Pos.Raw).IsValid text)
    (hab : a < b) :
    Precedes (Span.position 1 1 text.toList a) (Span.position 1 1 text.toList b) := by
  obtain ⟨pre, post, htext, rfl⟩ := exists_of_isValid ha
  obtain ⟨pre', post', htext', rfl⟩ := exists_of_isValid hb
  obtain ⟨ds, rfl, -⟩ := exists_of_byteSize_le (htext'.symm.trans htext) hab.le
  have hds : ds ≠ [] := by
    rintro rfl
    rw [List.append_nil] at hab
    exact absurd hab (Nat.lt_irrefl _)
  have hplace := precedes_foldl_advance (pre.foldl advance (1, 1)) hds
  rw [htext', position_byteSize, ← htext', htext, position_byteSize, List.foldl_append]
  exact hplace

section Order

variable {text : String} {a b : Nat} (ha : (⟨a⟩ : String.Pos.Raw).IsValid text)
  (hb : (⟨b⟩ : String.Pos.Raw).IsValid text)

include ha hb

theorem precedes_position_iff :
    Precedes (Span.position 1 1 text.toList a) (Span.position 1 1 text.toList b) ↔ a < b := by
  refine ⟨fun h => ?_, precedes_position ha hb⟩
  rcases Nat.lt_trichotomy a b with hab | rfl | hba
  · exact hab
  · exact absurd h (Precedes.irrefl _)
  · exact absurd (h.trans (precedes_position hb ha hba)) (Precedes.irrefl _)

theorem position_eq_iff :
    Span.position 1 1 text.toList a = Span.position 1 1 text.toList b ↔ a = b := by
  refine ⟨fun h => ?_, fun h => by rw [h]⟩
  have hab := mt (precedes_position_iff ha hb).2 (h ▸ Precedes.irrefl _)
  have hba := mt (precedes_position_iff hb ha).2 (h ▸ Precedes.irrefl _)
  omega

end Order

/-- Every offset has the line and the column of the last place at or before it. -/
theorem exists_boundary (text : String) (i : Nat) :
    ∃ boundary, (⟨boundary⟩ : String.Pos.Raw).IsValid text ∧ boundary ≤ i ∧
      (∀ a, (⟨a⟩ : String.Pos.Raw).IsValid text → a ≤ i → a ≤ boundary) ∧
      Span.position 1 1 text.toList i = Span.position 1 1 text.toList boundary := by
  obtain ⟨pre, post, htext, hfloor⟩ := exists_floor text.toList i
  refine ⟨byteSize pre, isValid_byteSize htext, hfloor.1, fun a ha hai => ?_, ?_⟩
  · obtain ⟨pre', post', htext', rfl⟩ := exists_of_isValid ha
    by_contra hlt
    obtain ⟨ds, rfl, hpost⟩ :=
      exists_of_byteSize_le (htext'.symm.trans htext) (Nat.le_of_not_le hlt)
    rw [byteSize_append] at hai hlt
    cases ds with
    | nil => exact hlt (Nat.le_refl _)
    | cons c ds =>
      have hc : i < byteSize pre + c.utf8Size := hfloor.2 c (by rw [hpost]; rfl)
      rw [byteSize_cons] at hai
      omega
  · rw [htext, position_byteSize]
    exact position_of_floor hfloor (1, 1)

theorem position_of_le {text : String} {i : Nat} (h : text.utf8ByteSize ≤ i) :
    Span.position 1 1 text.toList i = Span.position 1 1 text.toList text.utf8ByteSize := by
  obtain ⟨boundary, hvalid, -, hlast, hplace⟩ := exists_boundary text i
  have hend : (⟨text.utf8ByteSize⟩ : String.Pos.Raw).IsValid text := by
    rw [← byteSize_toList]
    exact isValid_byteSize (List.append_nil _).symm
  have hle : boundary ≤ text.utf8ByteSize := hvalid.le_rawEndPos
  have heq : boundary = text.utf8ByteSize := Nat.le_antisymm hle (hlast _ hend h)
  rw [hplace, heq]

end Octets

namespace Span

open Octets

/-- Line and column are found for every offset. They grow strictly from one place to the next at
which the text can be cut, so that no two such places share them. Any other offset is taken for the
last such place before it: within a character for its start, and behind the text for its end. -/
theorem locate_identifies (text : String) (file : Option String) :
    let source : Source := ⟨text.toList, file⟩
    (∀ start stop, locate? source start stop = some (locate source start stop)) ∧
    (∀ a b stop stop', (⟨a⟩ : String.Pos.Raw).IsValid text → (⟨b⟩ : String.Pos.Raw).IsValid text →
      (Precedes (locate source a stop).place (locate source b stop').place ↔ a < b) ∧
      ((locate source a stop).place = (locate source b stop').place ↔ a = b)) ∧
    (∀ i, ∃ boundary, (⟨boundary⟩ : String.Pos.Raw).IsValid text ∧ boundary ≤ i ∧
      (∀ a, (⟨a⟩ : String.Pos.Raw).IsValid text → a ≤ i → a ≤ boundary) ∧
      ∀ stop stop', (locate source i stop).place = (locate source boundary stop').place) ∧
    ∀ i stop stop', text.utf8ByteSize ≤ i →
      (locate source i stop).place = (locate source text.utf8ByteSize stop').place := by
  intro source
  simp only [place_locate]
  refine ⟨locate?_eq source, fun a b _ _ ha hb => ?_, fun i => ?_, fun i _ _ => position_of_le⟩
  · exact ⟨precedes_position_iff ha hb, position_eq_iff ha hb⟩
  · obtain ⟨boundary, hvalid, hle, hlast, hplace⟩ := exists_boundary text i
    exact ⟨boundary, hvalid, hle, hlast, fun _ _ => hplace⟩

/-- A letter of two bytes on the second line, an offset within it, and one behind the text. -/
example : [2, 3, 4, 5, 9].map (fun i => (locate ⟨"a\né".toList, none⟩ i i).place) =
    [(2, 1), (2, 1), (2, 2), (2, 2), (2, 2)] := by
  decide

end Span

end AnswerSetTest
