import Mathlib.Data.List.DropRight
import AnswerSetTest.Proofs.Syntax.Pieces

/-!
# Texts byte by byte

A text is scanned by its bytes. A character of one byte is its byte, and all bytes of a longer one
lie above those: so a scan that looks for short characters goes as it would over characters, and
stops where a character starts. There the text can be cut.
-/

namespace AnswerSetTest

/-- The bytes of a text, each as the character of the same number. -/
def octets (cs : List Char) : List Char :=
  cs.flatMap fun c => (String.utf8EncodeChar c).map Char.ofUInt8

theorem utf8ByteSize_ofList (cs : List Char) : (String.ofList cs).utf8ByteSize = byteSize cs := by
  induction cs with
  | nil => rfl
  | cons c cs ih =>
    rw [← List.singleton_append, String.ofList_append, String.utf8ByteSize_append, ih,
      List.singleton_append, byteSize_cons]
    simp

theorem byteSize_toList (s : String) : byteSize s.toList = s.utf8ByteSize := by
  rw [← utf8ByteSize_ofList, String.ofList_toList]

namespace Octets

variable {c d x : Char} {cs pre post : List Char} {p : Char → Bool}

/-- A character of one byte. -/
def IsShort (c : Char) : Prop := c.val ≤ 127

instance (c : Char) : Decidable (IsShort c) := inferInstanceAs (Decidable (_ ≤ _))

theorem octets_append (cs ds : List Char) : octets (cs ++ ds) = octets cs ++ octets ds :=
  List.flatMap_append

theorem octets_cons (c : Char) (cs : List Char) : octets (c :: cs) = octets [c] ++ octets cs :=
  octets_append [c] cs

theorem length_octets (cs : List Char) : (octets cs).length = byteSize cs := by
  induction cs with
  | nil => rfl
  | cons c cs ih =>
    rw [octets_cons, List.length_append, ih, byteSize_cons]
    simp [octets]

theorem length_le_byteSize (cs : List Char) : cs.length ≤ byteSize cs := by
  induction cs with
  | nil => exact Nat.le_refl 0
  | cons c cs ih =>
    have hc := c.utf8Size_pos
    rw [List.length_cons, byteSize_cons]
    omega

theorem isShort_iff : IsShort c ↔ c.val.toNat ≤ 127 := UInt32.le_iff_toNat_le

theorem val_ofUInt8 (b : UInt8) : (Char.ofUInt8 b).val = b.toUInt32 := rfl

theorem octets_of_isShort (h : IsShort c) : octets [c] = [c] := by
  have hencode := String.utf8EncodeChar_eq_singleton (Char.utf8Size_eq_one_iff.2 h)
  have hbyte : Char.ofUInt8 c.val.toUInt8 = c := by
    apply Char.ext
    apply UInt32.toNat_inj.1
    have hnat := isShort_iff.1 h
    rw [val_ofUInt8, UInt8.toNat_toUInt32, UInt32.toNat_toUInt8]
    omega
  simp only [octets, List.flatMap_singleton, hencode, List.map_singleton, hbyte]

theorem not_isShort_of_mem_octets (h : ¬ IsShort c) : ∀ o ∈ octets [c], ¬ IsShort o := by
  intro o ho
  rw [octets, List.flatMap_singleton, List.mem_map] at ho
  obtain ⟨b, hb, rfl⟩ := ho
  rw [isShort_iff] at h ⊢
  rw [val_ofUInt8, UInt8.toNat_toUInt32]
  unfold String.utf8EncodeChar at hb
  simp only [if_neg h] at hb
  -- every byte has its own marker in the highest bits
  split at hb
  · simp only [List.mem_cons, List.not_mem_nil, or_false] at hb
    rcases hb with rfl | rfl <;> rw [UInt8.toNat_ofNat'] <;> omega
  · split at hb
    · simp only [List.mem_cons, List.not_mem_nil, or_false] at hb
      rcases hb with rfl | rfl | rfl <;> rw [UInt8.toNat_ofNat'] <;> omega
    · simp only [List.mem_cons, List.not_mem_nil, or_false] at hb
      rcases hb with rfl | rfl | rfl | rfl <;> rw [UInt8.toNat_ofNat'] <;> omega

theorem ne_of_mem_octets (hx : IsShort x) (hc : c ≠ x) : ∀ o ∈ octets [c], o ≠ x := by
  rintro o ho rfl
  by_cases hshort : IsShort c
  · rw [octets_of_isShort hshort, List.mem_singleton] at ho
    exact hc ho.symm
  · exact not_isShort_of_mem_octets hshort o ho hx

theorem octets_ne_nil (c : Char) : octets [c] ≠ [] := by
  simp [octets, String.utf8EncodeChar_ne_nil]

theorem exists_head?_octets (c : Char) (cs : List Char) :
    ∃ o ∈ octets [c], (octets (c :: cs)).head? = some o := by
  obtain ⟨o, os, hos⟩ := List.exists_cons_of_ne_nil (octets_ne_nil c)
  refine ⟨o, hos ▸ List.mem_cons_self, ?_⟩
  rw [octets_cons, hos]
  rfl

/-- The first byte of a text, if it is asked only for what no longer character has. -/
theorem head?_octets {β : Type} {f : Option Char → β}
    (hf : ∀ d, ¬ IsShort d → f (some d) = f none) (cs : List Char) :
    f (octets cs).head? = f cs.head? := by
  cases cs with
  | nil => rfl
  | cons c cs =>
    obtain ⟨o, ho, hhead⟩ := exists_head?_octets c cs
    rw [hhead, List.head?_cons]
    by_cases hc : IsShort c
    · rw [octets_of_isShort hc, List.mem_singleton] at ho
      rw [ho]
    · rw [hf o (not_isShort_of_mem_octets hc o ho), hf c hc]

theorem head?_octets_eq_some_iff (hx : IsShort x) (cs : List Char) :
    (octets cs).head? = some x ↔ cs.head? = some x := by
  refine iff_of_eq (head?_octets (f := (· = some x)) (fun d hd => ?_) cs)
  rw [Option.some_inj, eq_false (fun h : d = x => hd (h ▸ hx))]
  exact (eq_false nofun).symm

/-- What the bytes of a character have if and only if it has it. -/
def Bytewise (p : Char → Bool) : Prop := ∀ c, ∀ o ∈ octets [c], p o = p c

theorem bytewise_of_short (b : Bool) (h : ∀ c, ¬ IsShort c → p c = b) : Bytewise p := by
  intro c o ho
  by_cases hc : IsShort c
  · rw [octets_of_isShort hc, List.mem_singleton] at ho
    rw [ho]
  · rw [h c hc, h o (not_isShort_of_mem_octets hc o ho)]

theorem takeWhile_octets (hp : Bytewise p) (cs : List Char) :
    (octets cs).takeWhile p = octets (cs.takeWhile p) := by
  induction cs with
  | nil => rfl
  | cons c cs ih =>
    rw [octets_cons]
    cases hc : p c with
    | true =>
      rw [List.takeWhile_append_of_pos fun o ho => (hp c o ho).trans hc, ih,
        List.takeWhile_cons_of_pos hc, ← octets_cons]
    | false =>
      obtain ⟨o, os, hos⟩ := List.exists_cons_of_ne_nil (octets_ne_nil c)
      have ho : ¬ p o := by
        rw [hp c o (hos ▸ List.mem_cons_self), hc]
        exact Bool.false_ne_true
      rw [hos, List.cons_append, List.takeWhile_cons_of_neg ho,
        List.takeWhile_cons_of_neg (Bool.not_eq_true _ ▸ hc)]
      rfl

open Piece

theorem blockComment?_append_of_ne {os : List Char} (hos : ∀ o ∈ os, o ≠ '*') (bytes : List Char) :
    blockComment? (os ++ bytes) = (blockComment? bytes).map fun p => (os ++ p.1, p.2) := by
  induction os with
  | nil => simp
  | cons o os ih =>
    rw [List.forall_mem_cons] at hos
    rw [List.cons_append, blockComment?_cons fun _ h => absurd h hos.1, ih hos.2, Option.map_map]
    rfl

theorem blockComment?_octets (cs : List Char) :
    blockComment? (octets cs) = (blockComment? cs).map fun p => (octets p.1, octets p.2) := by
  induction cs using blockComment?.induct with
  | case1 => rfl
  | case2 cs => rfl
  | case3 c cs hopen ih =>
    have hbytes : blockComment? (octets [c] ++ octets cs) =
        (blockComment? (octets cs)).map fun p => (octets [c] ++ p.1, p.2) := by
      by_cases hstar : c = '*'
      · subst hstar
        rw [octets_of_isShort (by decide), List.singleton_append]
        apply blockComment?_cons
        intro bytes _ hbytes
        have hnext := (head?_octets_eq_some_iff (x := '%') (by decide) cs).1 (by rw [hbytes]; rfl)
        obtain ⟨cs, rfl⟩ := List.head?_eq_some_iff.1 hnext
        exact hopen cs rfl rfl
      · exact blockComment?_append_of_ne (ne_of_mem_octets (by decide) hstar) _
    rw [octets_cons, hbytes, ih, blockComment?_cons hopen, Option.map_map, Option.map_map]
    congr 1
    funext p
    exact congrArg (·, octets p.2) (octets_cons c p.1).symm

theorem isShort_of_isSpace (h : isSpace c) : IsShort c := by
  rcases eq_or_of_isSpace h with rfl | rfl | rfl | rfl | rfl <;> decide

theorem isShort_of_isWordChar (h : isWordChar c) : IsShort c := by
  -- every class is a range of characters of one byte
  rcases Bool.or_eq_true_iff.1 h with halphanum | hunderscore
  · rcases Bool.or_eq_true_iff.1 halphanum with halpha | hdigit
    · rcases Bool.or_eq_true_iff.1 halpha with hupper | hlower
      · exact UInt32.le_trans (of_decide_eq_true hupper).2 (by decide)
      · exact UInt32.le_trans (of_decide_eq_true (Bool.and_eq_true_iff.1 hlower).2) (by decide)
    · exact UInt32.le_trans (of_decide_eq_true (Bool.and_eq_true_iff.1 hdigit).2) (by decide)
  · rw [beq_iff_eq.1 hunderscore]
    decide

theorem isShort_of_symbol? {next : Option Char} (h : symbol? c next ≠ none) : IsShort c := by
  unfold symbol? at h
  split at h
  all_goals first | decide | exact absurd rfl h

theorem drop_octets (pre cs : List Char) :
    (octets (pre ++ cs)).drop (byteSize pre) = octets cs := by
  rw [octets_append, ← length_octets, List.drop_left]

theorem getElem?_octets (pre cs : List Char) :
    (octets (pre ++ cs))[byteSize pre]? = (octets cs).head? := by
  rw [← List.head?_drop, drop_octets]

section Slices

/-- Cuts a text before byte `i`, if a character starts there or the text ends there. -/
def splitAt? : List Char → Nat → Option (List Char × List Char)
  | cs, 0 => some ([], cs)
  | [], _ + 1 => none
  | c :: cs, i + 1 =>
    if c.utf8Size ≤ i + 1 then
      (splitAt? cs (i + 1 - c.utf8Size)).map fun (before, behind) => (c :: before, behind)
    else none

theorem splitAt?_append (pre post : List Char) :
    splitAt? (pre ++ post) (byteSize pre) = some (pre, post) := by
  induction pre with
  | nil => cases post <;> rfl
  | cons c pre ih =>
    obtain ⟨k, hk⟩ := Nat.exists_eq_add_one_of_ne_zero (byteSize_pos (List.cons_ne_nil c pre)).ne'
    rw [hk, List.cons_append, splitAt?, ← hk, byteSize_cons, if_pos (Nat.le_add_right _ _),
      Nat.add_sub_cancel_left, ih]
    rfl

theorem splitAt?_eq_some {cs : List Char} {i : Nat} (h : splitAt? cs i = some (pre, post)) :
    cs = pre ++ post ∧ i = byteSize pre := by
  induction cs, i using splitAt?.induct generalizing pre with
  | case1 cs =>
    rw [splitAt?] at h
    cases h
    exact ⟨rfl, rfl⟩
  | case2 => cases h
  | case3 c cs i hsize ih =>
    rw [splitAt?, if_pos hsize] at h
    obtain ⟨⟨pre, post⟩, hcs, hpre⟩ := Option.map_eq_some_iff.1 h
    cases hpre
    obtain ⟨rfl, hi⟩ := ih hcs
    refine ⟨rfl, ?_⟩
    rw [byteSize_cons, ← hi]
    omega
  | case4 c cs i hsize =>
    rw [splitAt?, if_neg hsize] at h
    cases h

theorem isSome_splitAt?_iff (text : String) (i : Nat) :
    (splitAt? text.toList i).isSome ↔ (⟨i⟩ : String.Pos.Raw).IsValid text := by
  rw [String.Pos.Raw.isValid_iff_exists_append, Option.isSome_iff_exists]
  constructor
  · rintro ⟨⟨pre, post⟩, h⟩
    obtain ⟨htext, rfl⟩ := splitAt?_eq_some h
    refine ⟨String.ofList pre, String.ofList post, ?_, ?_⟩
    · rw [← String.ofList_append, ← htext, String.ofList_toList]
    · rw [← utf8ByteSize_ofList]
      rfl
  · rintro ⟨s, t, rfl, hi⟩
    have hi : i = byteSize s.toList := by
      rw [byteSize_toList]
      exact congrArg String.Pos.Raw.byteIdx hi
    rw [hi, String.toList_append]
    exact ⟨_, splitAt?_append _ _⟩

/-- The text from byte `i` to byte `j`. -/
def slice? (text : List Char) (i j : Nat) : Option (List Char) :=
  if i ≤ j then do
    let (_, behind) ← splitAt? text i
    let (slice, _) ← splitAt? behind (j - i)
    return slice
  else none

theorem slice?_append (pre slice post : List Char) :
    slice? (pre ++ (slice ++ post)) (byteSize pre) (byteSize pre + byteSize slice) =
      some slice := by
  rw [slice?, if_pos (Nat.le_add_right _ _), splitAt?_append, Nat.add_sub_cancel_left]
  simp only [Option.bind_eq_bind, Option.bind_some, splitAt?_append]
  rfl

end Slices

section Places

/-- The last place at or before byte `i` at which a text can be cut. -/
def floorBoundary (text : List Char) : Nat → Nat
  | 0 => 0
  | i + 1 => if (splitAt? text (i + 1)).isSome then i + 1 else floorBoundary text i

/-- Byte `i` lies at the end of `pre`, or in the character behind it. -/
def Floor (pre post : List Char) (i : Nat) : Prop :=
  byteSize pre ≤ i ∧ ∀ c ∈ post.head?, i < byteSize pre + c.utf8Size

theorem exists_floor (text : List Char) (i : Nat) :
    ∃ pre post, text = pre ++ post ∧ Floor pre post i := by
  induction text generalizing i with
  | nil => exact ⟨[], [], rfl, Nat.zero_le i, nofun⟩
  | cons c text ih =>
    by_cases hc : i < c.utf8Size
    · refine ⟨[], c :: text, rfl, Nat.zero_le i, fun d hd => ?_⟩
      cases hd
      exact Nat.lt_of_lt_of_le hc (Nat.le_add_left _ _)
    · obtain ⟨pre, post, rfl, hpre, hpost⟩ := ih (i - c.utf8Size)
      refine ⟨c :: pre, post, rfl, ?_, fun d hd => ?_⟩
      · rw [byteSize_cons]
        omega
      · have := hpost d hd
        rw [byteSize_cons]
        omega

theorem splitAt?_eq_none {c : Char} {i : Nat} (hpre : byteSize pre < i)
    (hc : i < byteSize pre + c.utf8Size) (post : List Char) :
    splitAt? (pre ++ c :: post) i = none := by
  cases h : splitAt? (pre ++ c :: post) i with
  | none => rfl
  | some p =>
    obtain ⟨htext, rfl⟩ := splitAt?_eq_some h
    obtain ⟨as, hp, -⟩ := exists_of_byteSize_le htext.symm hpre.le
    have has : as ≠ [] := by
      rintro rfl
      rw [hp, List.append_nil] at hpre
      exact absurd hpre (Nat.lt_irrefl _)
    obtain ⟨d, as, rfl⟩ := List.exists_cons_of_ne_nil has
    rw [hp, List.append_assoc] at htext
    cases List.append_cancel_left htext
    rw [hp, byteSize_append, byteSize_cons] at hc
    omega

theorem floorBoundary_byteSize (pre post : List Char) :
    floorBoundary (pre ++ post) (byteSize pre) = byteSize pre := by
  cases hsize : byteSize pre with
  | zero => rfl
  | succ i => rw [floorBoundary, ← hsize, splitAt?_append, if_pos Option.isSome_some]

theorem floorBoundary_append (pre : List Char) (c : Char) (post : List Char) {k : Nat}
    (hk : k < c.utf8Size) :
    floorBoundary (pre ++ c :: post) (byteSize pre + k) = byteSize pre := by
  induction k with
  | zero => exact floorBoundary_byteSize pre (c :: post)
  | succ k ih =>
    rw [← Nat.add_assoc, floorBoundary, splitAt?_eq_none (by omega) (by omega),
      if_neg (by simp), ih (by omega)]

theorem floorBoundary_of_floor {i : Nat} (h : Floor pre post i) :
    floorBoundary (pre ++ post) (min i (byteSize (pre ++ post))) = byteSize pre := by
  obtain ⟨hpre, hpost⟩ := h
  cases post with
  | nil =>
    rw [List.append_nil, Nat.min_eq_right hpre]
    simpa using floorBoundary_byteSize pre []
  | cons c post =>
    have hc := hpost c rfl
    obtain ⟨k, rfl⟩ := Nat.exists_eq_add_of_le hpre
    rw [byteSize_append, byteSize_cons, Nat.min_eq_left (by omega)]
    exact floorBoundary_append pre c post (by omega)

/-- The span from byte `start` to byte `stop`, with its line and column: those of the place at or
before `start` at which the text can be cut. -/
def locate? (source : Source) (start stop : Nat) : Option Span := do
  let boundary := floorBoundary source.chars (min start (octets source.chars).length)
  let (before, _) ← splitAt? source.chars boundary
  let (_, line) ← splitAt? before (byteSize (before.rdropWhile (· != '\n')))
  return ⟨start, stop, before.count '\n' + 1, line.length + 1, source.file⟩

def advance (place : Nat × Nat) (c : Char) : Nat × Nat :=
  if c = '\n' then (place.1 + 1, 1) else (place.1, place.2 + 1)

theorem position_of_floor {i : Nat} (h : Floor pre post i) (place : Nat × Nat) :
    Span.position place.1 place.2 (pre ++ post) i = pre.foldl advance place := by
  induction pre generalizing i place with
  | nil =>
    cases post with
    | nil => rfl
    | cons c post =>
      have hc := h.2 c rfl
      rw [List.nil_append, Span.position, if_pos (by simpa [byteSize] using hc)]
      rfl
  | cons c pre ih =>
    obtain ⟨hpre, hpost⟩ := h
    rw [byteSize_cons] at hpre hpost
    have hfloor : Floor pre post (i - c.utf8Size) :=
      ⟨by omega, fun d hd => by have := hpost d hd; omega⟩
    rw [List.cons_append, Span.position, if_neg (by omega), List.foldl_cons, ← ih hfloor]
    unfold advance
    split <;> rfl

theorem foldl_advance (before : List Char) : before.foldl advance (1, 1) =
    (before.count '\n' + 1, (before.rtakeWhile (· != '\n')).length + 1) := by
  induction before using List.reverseRecOn with
  | nil => rfl
  | append_singleton before c ih =>
    rw [List.foldl_append, ih, List.foldl_cons, List.foldl_nil, List.count_append]
    by_cases hc : c = '\n'
    · subst hc
      rw [List.rtakeWhile_concat_neg _ _ _ (by decide)]
      rfl
    · have hcount : [c].count '\n' = 0 := List.count_eq_zero.2 (by simpa using Ne.symm hc)
      rw [List.rtakeWhile_concat_pos (· != '\n') before c (by simpa using hc), List.length_append,
        hcount, advance, if_neg hc]
      rfl

/-- No offset is too large for a place, or within a character. -/
theorem locate?_eq (source : Source) (start stop : Nat) :
    locate? source start stop = some (Span.locate source start stop) := by
  obtain ⟨chars, file⟩ := source
  obtain ⟨before, behind, rfl, hfloor⟩ := exists_floor chars start
  have hline := splitAt?_append (before.rdropWhile (· != '\n')) (before.rtakeWhile (· != '\n'))
  rw [List.rdropWhile_append_rtakeWhile] at hline
  have hplace := position_of_floor hfloor (1, 1)
  rw [foldl_advance] at hplace
  rw [locate?, length_octets]
  simp only [floorBoundary_of_floor hfloor, splitAt?_append, Option.bind_eq_bind,
    Option.bind_some, hline, Span.locate, hplace]
  rfl

end Places

end Octets

end AnswerSetTest
