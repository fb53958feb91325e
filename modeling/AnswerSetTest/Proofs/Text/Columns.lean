import Mathlib.Data.Char
import Mathlib.Data.List.DropRight
import Mathlib.Data.List.Permutation
import Mathlib.Tactic.Common
import AnswerSetTest.Text.Columns

/-!
# Columns are read back

A row of cells, each padded to the same width, loses nothing when the blanks at its end go: the
last cell does not end in a blank, so it ends where the row ends, and every cell before it fills
its column. Cutting the row every `w` characters and trimming each piece gives the cells again.
With as many cells in each row as the layout puts there, the lines of the text hold the sorted
cells in order.
-/

namespace AnswerSetTest.Text

section Rows

variable {α : Type} {size : Nat} {xs : List α}

@[simp]
theorem rows_nil : rows size ([] : List α) = [] := by
  rw [rows]

theorem rows_of_ne_nil (hs : 0 < size) (hx : xs ≠ []) :
    rows size xs = xs.take size :: rows size (xs.drop size) := by
  obtain ⟨x, rest, rfl⟩ := List.exists_cons_of_ne_nil hx
  obtain ⟨k, rfl⟩ : ∃ k, size = k + 1 := ⟨size - 1, by omega⟩
  rw [rows]
  rfl

theorem flatten_rows : (rows size xs).flatten = xs := by
  induction xs using rows.induct size with
  | case1 => rw [rows_nil, List.flatten_nil]
  | case2 x rest ih => rw [rows, List.flatten_cons, ih, List.cons_append, List.take_append_drop]

/-- The row with a number, and where it starts. -/
theorem getElem?_rows (hs : 0 < size) (i : Nat) :
    (rows size xs)[i]? =
      if i * size < xs.length then some ((xs.drop (i * size)).take size) else none := by
  induction i generalizing xs with
  | zero =>
    rcases eq_or_ne xs [] with rfl | hx
    · simp
    · rw [rows_of_ne_nil hs hx, Nat.zero_mul, if_pos (List.length_pos_iff.mpr hx),
        List.drop_zero, List.getElem?_cons_zero]
  | succ i ih =>
    rcases eq_or_ne xs [] with rfl | hx
    · simp
    · rw [rows_of_ne_nil hs hx, List.getElem?_cons_succ, ih, List.length_drop, List.drop_drop,
        Nat.succ_mul, Nat.add_comm size]
      exact if_congr (by omega) rfl rfl

theorem length_rows (hs : 0 < size) : (rows size xs).length = (xs.length + size - 1) / size := by
  have past (i : Nat) : (rows size xs).length ≤ i ↔ xs.length ≤ i * size := by
    rw [← List.getElem?_eq_none_iff, getElem?_rows hs]
    split <;> simp only [reduceCtorEq, false_iff, true_iff] <;> omega
  have quotient (i : Nat) : (xs.length + size - 1) / size ≤ i ↔ xs.length ≤ i * size := by
    rw [← Nat.lt_succ_iff, Nat.div_lt_iff_lt_mul hs, Nat.succ_mul]
    omega
  apply Nat.le_antisymm
  · exact (past _).mpr ((quotient _).mp le_rfl)
  · exact (quotient _).mpr ((past _).mp le_rfl)

theorem of_mem_rows (hs : 0 < size) {row : List α} (h : row ∈ rows size xs) :
    row ≠ [] ∧ row.length ≤ size ∧ ∀ x ∈ row, x ∈ xs := by
  obtain ⟨i, hi⟩ := List.mem_iff_getElem?.mp h
  rw [getElem?_rows hs] at hi
  split at hi
  next bound =>
    obtain rfl := Option.some.inj hi
    constructor
    · intro hnil
      have hlength := congrArg List.length hnil
      rw [List.length_take, List.length_drop, List.length_nil] at hlength
      omega
    · constructor
      · exact List.length_take_le ..
      · intro x hx
        exact List.mem_of_mem_drop (List.mem_of_mem_take hx)
  next => cases hi

theorem rows_flatten_append (hs : 0 < size) {chunks : List (List α)} {last : List α}
    (full : ∀ chunk ∈ chunks, chunk.length = size) (hne : last ≠ []) (hlast : last.length ≤ size) :
    rows size (chunks.flatten ++ last) = chunks ++ [last] := by
  induction chunks with
  | nil =>
    rw [List.flatten_nil, List.nil_append, List.nil_append, rows_of_ne_nil hs hne,
      List.take_of_length_le hlast, List.drop_of_length_le hlast, rows_nil]
  | cons chunk chunks ih =>
    have hlength : chunk.length = size := full chunk (List.mem_cons_self ..)
    have hrest := ih fun chunk h => full chunk (List.mem_cons_of_mem _ h)
    rw [List.flatten_cons, List.append_assoc, rows_of_ne_nil hs (by simp [hne]),
      List.take_left' hlength, List.drop_left' hlength, hrest, List.cons_append]

end Rows

theorem isPrefix_trimEnd (cs : List Char) : trimEnd cs <+: cs :=
  List.rdropWhile_prefix isBlank cs

theorem trimEnd_trimEnd (cs : List Char) : trimEnd (trimEnd cs) = trimEnd cs :=
  List.rdropWhile_idempotent isBlank cs

theorem trimEnd_append_blanks (cs : List Char) (n : Nat) :
    trimEnd (cs ++ List.replicate n ' ') = trimEnd cs := by
  induction n with
  | zero => rw [List.replicate_zero, List.append_nil]
  | succ n ih =>
    rw [List.replicate_succ', ← List.append_assoc, ← ih]
    exact List.rdropWhile_concat_pos isBlank _ ' ' rfl

/-- Only the end counts: what stands before a text that ends in no blank is kept. -/
theorem trimEnd_append_of_tight (before : List Char) {cs : List Char} (hne : cs ≠ [])
    (tight : trimEnd cs = cs) : trimEnd (before ++ cs) = before ++ cs := by
  have hlast : ¬isBlank (cs.getLast hne) := List.rdropWhile_eq_self_iff.mp tight hne
  apply List.rdropWhile_eq_self_iff.mpr
  intro h
  rwa [List.getLast_append_of_ne_nil _ hne]

theorem isBlank_getLast?_trimEnd {cs : List Char} {c : Char}
    (h : (trimEnd cs).getLast? = some c) : isBlank c = false := by
  have hne : trimEnd cs ≠ [] := by
    intro hnil
    rw [hnil] at h
    cases h
  rw [List.getLast?_eq_getLast_of_ne_nil hne] at h
  rw [← Option.some.inj h]
  exact Bool.eq_false_iff.mpr (List.rdropWhile_last_not isBlank cs hne)

/-- A text that a column of a width holds whole: it has characters, ends in no blank, and fits. -/
structure Fits (w : Nat) (cell : List Char) : Prop where
  ne_nil : cell ≠ []
  tight : trimEnd cell = cell
  length_le : cell.length ≤ w

/-- The cells of a row, read back by their columns. -/
def readCells (w : Nat) (line : List Char) : List (List Char) := (rows w line).map trimEnd

section Row

variable {w : Nat} {cells : List (List Char)}

theorem length_padEnd {cell : List Char} (h : cell.length ≤ w) : (padEnd w cell).length = w := by
  rw [padEnd, List.length_append, List.length_replicate]
  omega

theorem trimEnd_padEnd {cell : List Char} (h : Fits w cell) : trimEnd (padEnd w cell) = cell := by
  rw [padEnd, trimEnd_append_blanks, h.tight]

theorem row_concat (before : List (List Char)) {last : List Char} (h : Fits w last) :
    row w (before ++ [last]) = (before.map (padEnd w)).flatten ++ last := by
  rw [row, List.flatMap_append, List.flatMap_singleton, padEnd, ← List.append_assoc,
    trimEnd_append_blanks, trimEnd_append_of_tight _ h.ne_nil h.tight, List.flatMap_def]

/-- The columns of a row hold its cells, and nothing else. -/
theorem readCells_row (hne : cells ≠ []) (fits : ∀ cell ∈ cells, Fits w cell) :
    readCells w (row w cells) = cells := by
  obtain ⟨before, last, rfl⟩ := cells.eq_nil_or_concat'.resolve_left hne
  have hlast : Fits w last := fits last (by simp)
  have hbefore : ∀ cell ∈ before, Fits w cell := fun cell h => fits cell (by simp [h])
  have hw : 0 < w := Nat.lt_of_lt_of_le (List.length_pos_iff.mpr hlast.ne_nil) hlast.length_le
  have full : ∀ chunk ∈ before.map (padEnd w), chunk.length = w := by
    intro chunk h
    obtain ⟨cell, hcell, rfl⟩ := List.mem_map.mp h
    exact length_padEnd (hbefore cell hcell).length_le
  have back : before.map (trimEnd ∘ padEnd w) = before := by
    calc before.map (trimEnd ∘ padEnd w) = before.map id :=
          List.map_congr_left fun cell h => trimEnd_padEnd (hbefore cell h)
      _ = before := List.map_id before
  rw [readCells, row_concat before hlast, rows_flatten_append hw full hlast.ne_nil hlast.length_le,
    List.map_append, List.map_map, back, List.map_singleton, hlast.tight]

theorem cell_prefix_row (fits : ∀ cell ∈ cells, Fits w cell) {j : Nat} {cell : List Char}
    (h : cells[j]? = some cell) : cell <+: (row w cells).drop (j * w) := by
  have hmem : cell ∈ cells := List.mem_of_getElem? h
  have hcell : Fits w cell := fits cell hmem
  have hw : 0 < w := Nat.lt_of_lt_of_le (List.length_pos_iff.mpr hcell.ne_nil) hcell.length_le
  have hread : (readCells w (row w cells))[j]? = some cell := by
    rw [readCells_row (List.ne_nil_of_mem hmem) fits, h]
  rw [readCells, List.getElem?_map, getElem?_rows hw] at hread
  split at hread
  next =>
    rw [Option.map_some, Option.some.injEq] at hread
    rw [← hread]
    apply (isPrefix_trimEnd _).trans
    exact List.take_prefix ..
  next => cases hread

theorem length_row_le (fits : ∀ cell ∈ cells, Fits w cell) :
    (row w cells).length ≤ cells.length * w := by
  calc (row w cells).length ≤ (cells.flatMap (padEnd w)).length := (isPrefix_trimEnd _).length_le
    _ = (cells.map fun cell => (padEnd w cell).length).sum := List.length_flatMap
    _ = (cells.map fun _ => w).sum :=
      congrArg List.sum (List.map_congr_left fun cell h => length_padEnd (fits cell h).length_le)
    _ = cells.length * w := by rw [List.map_const', List.sum_replicate_nat]

theorem mem_row {c : Char} (h : c ∈ row w cells) : c = ' ' ∨ ∃ cell ∈ cells, c ∈ cell := by
  obtain ⟨cell, hcell, hc⟩ := List.mem_flatMap.mp ((isPrefix_trimEnd _).subset h)
  rcases List.mem_append.mp hc with hc | hc
  · exact .inr ⟨cell, hcell, hc⟩
  · exact .inl (List.eq_of_mem_replicate hc)

end Row

/-- Texts set in lines of `c` columns, each of `w` characters. -/
def setLines (w c : Nat) (texts : List (List Char)) : List (List Char) :=
  (rows c texts).map (row w)

section Lines

variable {w c : Nat} {texts : List (List Char)}

theorem length_setLines (hc : 0 < c) :
    (setLines w c texts).length = (texts.length + c - 1) / c := by
  rw [setLines, List.length_map, length_rows hc]

theorem setLines_ne_nil (hc : 0 < c) (hne : texts ≠ []) : setLines w c texts ≠ [] := by
  rw [setLines, rows_of_ne_nil hc hne, List.map_cons]
  exact List.cons_ne_nil _ _

theorem fits_of_mem_rows (hc : 0 < c) (fits : ∀ text ∈ texts, Fits w text)
    {cells : List (List Char)} (h : cells ∈ rows c texts) : ∀ cell ∈ cells, Fits w cell :=
  fun cell hcell => fits cell ((of_mem_rows hc h).2.2 cell hcell)

/-- The line with a number holds as many texts as there are columns, and which ones. -/
theorem getElem?_setLines (hc : 0 < c) (i : Nat) :
    (setLines w c texts)[i]? =
      if i * c < texts.length then some (row w ((texts.drop (i * c)).take c)) else none := by
  rw [setLines, List.getElem?_map, getElem?_rows hc]
  split <;> rfl

theorem readCells_setLines (hc : 0 < c) (fits : ∀ text ∈ texts, Fits w text) {i : Nat}
    {line : List Char} (h : (setLines w c texts)[i]? = some line) :
    readCells w line = (texts.drop (i * c)).take c := by
  rw [getElem?_setLines hc] at h
  split at h
  next bound =>
    have hmem := List.mem_of_getElem? ((getElem?_rows hc i).trans (if_pos bound))
    rw [← Option.some.inj h]
    exact readCells_row (of_mem_rows hc hmem).1 (fits_of_mem_rows hc fits hmem)
  next => cases h

theorem cell_prefix_setLines (hc : 0 < c) (fits : ∀ text ∈ texts, Fits w text) {i j : Nat}
    {cell : List Char} (hj : j < c) (h : texts[i * c + j]? = some cell) :
    ∃ line, (setLines w c texts)[i]? = some line ∧ cell <+: line.drop (j * w) := by
  have bound : i * c < texts.length := by
    have := (List.getElem?_eq_some_iff.mp h).1
    omega
  have hmem := List.mem_of_getElem? ((getElem?_rows hc i).trans (if_pos bound))
  refine ⟨row w ((texts.drop (i * c)).take c), ?_, ?_⟩
  · rw [getElem?_setLines hc, if_pos bound]
  · apply cell_prefix_row (fits_of_mem_rows hc fits hmem)
    rw [List.getElem?_take_of_lt hj, List.getElem?_drop, h]

theorem flatMap_readCells_setLines (hc : 0 < c) (fits : ∀ text ∈ texts, Fits w text) :
    (setLines w c texts).flatMap (readCells w) = texts := by
  have back : ∀ cells ∈ rows c texts, (readCells w ∘ row w) cells = id cells := fun cells h =>
    readCells_row (of_mem_rows hc h).1 (fits_of_mem_rows hc fits h)
  calc (setLines w c texts).flatMap (readCells w)
      = ((rows c texts).map (readCells w ∘ row w)).flatten := by
        rw [setLines, List.flatMap_def, List.map_map]
    _ = ((rows c texts).map id).flatten := congrArg List.flatten (List.map_congr_left back)
    _ = texts := by rw [List.map_id, flatten_rows]

theorem length_le_of_mem_setLines (hc : 0 < c) (fits : ∀ text ∈ texts, Fits w text)
    {line : List Char} (h : line ∈ setLines w c texts) : line.length ≤ c * w := by
  obtain ⟨cells, hcells, rfl⟩ := List.mem_map.mp h
  calc (row w cells).length ≤ cells.length * w := length_row_le (fits_of_mem_rows hc fits hcells)
    _ ≤ c * w := Nat.mul_le_mul_right w (of_mem_rows hc hcells).2.1

theorem isBlank_getLast?_setLines {line : List Char} (h : line ∈ setLines w c texts) {last : Char}
    (hlast : line.getLast? = some last) : isBlank last = false := by
  obtain ⟨cells, _, rfl⟩ := List.mem_map.mp h
  exact isBlank_getLast?_trimEnd hlast

theorem not_newline_mem_setLines (hc : 0 < c) (noLines : ∀ text ∈ texts, '\n' ∉ text)
    {line : List Char} (h : line ∈ setLines w c texts) : '\n' ∉ line := by
  intro hnewline
  obtain ⟨cells, hcells, rfl⟩ := List.mem_map.mp h
  rcases mem_row hnewline with hblank | ⟨text, htext, hmem⟩
  · exact absurd hblank (by decide)
  · exact noLines text ((of_mem_rows hc hcells).2.2 text htext) hmem

end Lines

theorem columnWidth_spec {cells : List (List Char)} (hne : cells ≠ []) :
    (∃ cell ∈ cells, columnWidth cells = cell.length + 2) ∧
      ∀ cell ∈ cells, cell.length + 2 ≤ columnWidth cells := by
  obtain ⟨greatest, hmax⟩ : ∃ n, (cells.map List.length).max? = some n :=
    Option.ne_none_iff_exists'.mp (by simpa using hne)
  have width : columnWidth cells = greatest + 2 := by
    rw [columnWidth, List.foldl_max, hmax, Option.getD_some, Nat.zero_max]
  obtain ⟨hmem, hle⟩ := List.max?_eq_some_iff.mp hmax
  constructor
  · obtain ⟨cell, hcell, hlength⟩ := List.mem_map.mp hmem
    exact ⟨cell, hcell, by omega⟩
  · intro cell hcell
    have := hle _ (List.mem_map_of_mem hcell)
    omega

theorem sortCells_perm (cells : List (List Char)) : (sortCells cells).Perm cells :=
  List.mergeSort_perm ..

theorem pairwise_sortCells (cells : List (List Char)) :
    (sortCells cells).Pairwise fun a b => ¬List.Lex (fun c d => c < d) b a := by
  apply (List.pairwise_mergeSort ?trans ?total cells).imp
  · intro a b h
    rwa [Bool.not_eq_true', List.lex_eq_false_iff_ge] at h
  case trans =>
    intro a b c hab hbc
    rw [Bool.not_eq_true', List.lex_eq_false_iff_ge] at hab hbc ⊢
    exact List.le_trans hab hbc
  case total =>
    intro a b
    rw [Bool.or_eq_true, Bool.not_eq_true', Bool.not_eq_true', List.lex_eq_false_iff_ge,
      List.lex_eq_false_iff_ge]
    exact List.le_total a b

theorem columnCount_pos (width w : Nat) : 0 < columnCount width w :=
  Nat.lt_of_lt_of_le Nat.one_pos (Nat.le_max_left ..)

/-- As many columns as are set are no wider than the text may be, or there is only one. -/
theorem columnCount_mul_le (width w : Nat) : columnCount width w * w ≤ max width w := by
  rcases Nat.le_total (width / w) 1 with h | h
  · rw [columnCount, Nat.max_eq_left h, Nat.one_mul]
    exact Nat.le_max_right ..
  · rw [columnCount, Nat.max_eq_right h]
    exact (Nat.div_mul_le_self width w).trans (Nat.le_max_left ..)

/-- The trimmed texts in the order in which they are set. -/
def entries (cells : List String) : List (List Char) :=
  sortCells (cells.map fun cell => trim cell.toList)

section Layout

variable {width : Nat} {cells : List String}

theorem entries_perm (cells : List String) :
    (entries cells).Perm (cells.map fun cell => trim cell.toList) :=
  sortCells_perm _

theorem length_entries (cells : List String) : (entries cells).length = cells.length := by
  rw [(entries_perm cells).length_eq, List.length_map]

theorem entries_ne_nil (hne : cells ≠ []) : entries cells ≠ [] := by
  rw [← List.length_pos_iff, length_entries]
  exact List.length_pos_iff.mpr hne

theorem mem_entries {text : List Char} :
    text ∈ entries cells ↔ ∃ cell ∈ cells, trim cell.toList = text := by
  rw [(entries_perm cells).mem_iff, List.mem_map]

theorem lines_columns (hne : cells ≠ []) (noLines : ∀ text ∈ entries cells, '\n' ∉ text) :
    (columns width cells).toList.splitOn '\n' =
      setLines (columnWidth (entries cells)) (columnCount width (columnWidth (entries cells)))
        (entries cells) := by
  have hentries := entries_ne_nil hne
  have hc := columnCount_pos width (columnWidth (entries cells))
  have text : (columns width cells).toList = ['\n'].intercalate
      (setLines (columnWidth (entries cells)) (columnCount width (columnWidth (entries cells)))
        (entries cells)) := by
    rw [columns, if_neg (by rwa [List.isEmpty_iff]), String.toList_intercalate, List.map_map]
    congr 1
    exact List.map_congr_left fun cells _ => String.toList_ofList ..
  rw [text]
  apply List.splitOn_intercalate
  · intro line hline
    exact not_newline_mem_setLines hc noLines hline
  · exact setLines_ne_nil hc hentries

theorem fits_of_mem_entries (some : ∀ cell ∈ cells, trim cell.toList ≠ []) {text : List Char}
    (h : text ∈ entries cells) : Fits (columnWidth (entries cells)) text := by
  obtain ⟨cell, hcell, rfl⟩ := mem_entries.mp h
  have wide := (columnWidth_spec (List.ne_nil_of_mem h)).2 _ h
  exact ⟨some cell hcell, trimEnd_trimEnd _, by omega⟩

end Layout

/-- A text set in columns loses nothing. With `w` two characters more than the longest entry and
`c` columns, the entries stand in order, `c` to a line, each at the start of its column; reading
all columns of all lines gives the entries back; no line ends in a blank or is wider than it may
be. -/
theorem columns_readBack (width : Nat) (cells : List String) (hne : cells ≠ [])
    (hsome : ∀ cell ∈ cells, trim cell.toList ≠ [])
    (noLines : ∀ cell ∈ cells, '\n' ∉ trim cell.toList) :
    let texts := cells.map fun cell => trim cell.toList
    let sorted := entries cells
    let w := columnWidth sorted
    let c := max 1 (width / w)
    let lines := (columns width cells).toList.splitOn '\n'
    (sorted.Perm texts ∧ sorted.Pairwise fun a b => ¬List.Lex (fun c d => c < d) b a) ∧
    ((∃ text ∈ texts, w = text.length + 2) ∧ ∀ text ∈ texts, text.length + 2 ≤ w) ∧
    lines.length = (cells.length + c - 1) / c ∧
    (∀ i j, j < c → i * c + j < cells.length → ∃ line cell, lines[i]? = some line ∧
      sorted[i * c + j]? = some cell ∧ cell <+: line.drop (j * w)) ∧
    (∀ i line, lines[i]? = some line → readCells w line = (sorted.drop (i * c)).take c) ∧
    lines.flatMap (readCells w) = sorted ∧
    ∀ line ∈ lines, (∀ last, line.getLast? = some last → isBlank last = false) ∧
      line.length ≤ max width w := by
  intro texts sorted w c lines
  have hc : 0 < c := columnCount_pos width w
  have hlength : sorted.length = cells.length := length_entries cells
  have fits : ∀ text ∈ sorted, Fits w text := fun text h => fits_of_mem_entries hsome h
  have hlines : lines = setLines w c sorted := by
    apply lines_columns hne
    intro text htext
    obtain ⟨cell, hcell, rfl⟩ := mem_entries.mp htext
    exact noLines cell hcell
  refine ⟨⟨entries_perm cells, pairwise_sortCells _⟩, ?width, ?count, ?position, ?line, ?all, ?ends⟩
  case width =>
    obtain ⟨⟨widest, hwidest, hw⟩, hle⟩ := columnWidth_spec (entries_ne_nil hne)
    constructor
    · exact ⟨widest, (entries_perm cells).mem_iff.mp hwidest, hw⟩
    · intro text htext
      exact hle text ((entries_perm cells).mem_iff.mpr htext)
  case count =>
    rw [hlines, length_setLines hc, hlength]
  case position =>
    intro i j hj hij
    obtain ⟨cell, hcell⟩ : ∃ cell, sorted[i * c + j]? = some cell :=
      ⟨_, List.getElem?_eq_getElem (by omega)⟩
    obtain ⟨line, hline, starts⟩ := cell_prefix_setLines hc fits hj hcell
    rw [hlines]
    exact ⟨line, cell, hline, hcell, starts⟩
  case line =>
    intro i line hline
    rw [hlines] at hline
    exact readCells_setLines hc fits hline
  case all =>
    rw [hlines, flatMap_readCells_setLines hc fits]
  case ends =>
    intro line hline
    rw [hlines] at hline
    constructor
    · intro last hlast
      exact isBlank_getLast?_setLines hline hlast
    · exact (length_le_of_mem_setLines hc fits hline).trans (columnCount_mul_le width w)

theorem columns_readBack_sample :
    entries ["é x ", "b", "a"] = [['a'], ['b'], ['é', ' ', 'x']] ∧
      columns 10 ["é x ", "b", "a"] = "a    b\né x" ∧
      ("a    b\né x".toList.splitOn '\n').flatMap (readCells 5) =
        [['a'], ['b'], ['é', ' ', 'x']] := by
  have ordered : entries ["é x ", "b", "a"] = [['a'], ['b'], ['é', ' ', 'x']] := by cbv
  have text : columns 10 ["é x ", "b", "a"] = "a    b\né x" := by cbv
  obtain ⟨-, -, -, -, -, back, -⟩ :=
    columns_readBack 10 ["é x ", "b", "a"] (by decide) (by decide) (by decide)
  rw [ordered, text] at back
  exact ⟨ordered, text, back⟩

end AnswerSetTest.Text
