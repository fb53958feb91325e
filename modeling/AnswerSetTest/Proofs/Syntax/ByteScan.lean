import AnswerSetTest.Proofs.Syntax.Octets

/-!
# Scanning by bytes

The tokens of a source are also found by one scan over its bytes, which cuts the text at the
places that it comes to. The scan ends, the text can be cut at all these places, and tokens and
diagnostics are those of the pieces of the text.
-/

namespace AnswerSetTest

namespace Octets

open Piece

variable {source : Source} {pre cs : List Char} {c : Char}

def skip (bytes : List Char) (p : Char → Bool) (i : Nat) : Nat :=
  i + ((bytes.drop i).takeWhile p).length

/-- Reads a quoted text from byte `i` on: its value, whether it is closed, and the byte behind it.
There is no result if it takes more than `limit` rounds or the text is cut within a character. -/
def quotedFrom (text : List Char) : (limit : Nat) → (i : Nat) → Option (List Char × Bool × Nat)
  | 0, _ => none
  | limit + 1, i =>
    match (octets text)[i]? with
    | none => some ([], false, i)
    | some o =>
      if o = '\\' ∧ i + 1 < (octets text).length then do
        let (_, behind) ← splitAt? text (i + 1)
        let c := behind.head?.getD '\\'
        let (value, closed, stop) ← quotedFrom text limit (i + 1 + c.utf8Size)
        return (unescape c :: value, closed, stop)
      else if o = '"' then some ([], true, i + 1)
      else do
        let (_, behind) ← splitAt? text i
        let c := behind.head?.getD o
        let (value, closed, stop) ← quotedFrom text limit (i + c.utf8Size)
        return (c :: value, closed, stop)

/-- What one round of the scan finds, and the byte at which the next round starts. -/
structure Round where
  found : List (Except Diagnostic Token)
  stop : Nat

def diagnose (source : Source) (problem : Problem) (start stop : Nat) : Option Diagnostic := do
  return ⟨.parse, problem, some (← locate? source start stop)⟩

def scanComment (source : Source) (i : Nat) : Option Round :=
  let bytes := octets source.chars
  if bytes[i + 1]? = some '*' then
    match blockComment? (bytes.drop (i + 2)) with
    | some (taken, _) => some ⟨[], i + 2 + taken.length⟩
    | none => do
      return ⟨[.error (← diagnose source .unterminatedComment i bytes.length)], bytes.length⟩
  else some ⟨[], skip bytes (· != '\n') i⟩

/-- A quoted text that is not closed is a token, too, besides the diagnostic. -/
def scanQuoted (source : Source) (i : Nat) : Option Round := do
  let (value, closed, stop) ←
    quotedFrom source.chars ((octets source.chars).length + 1) (i + 1)
  let token := ⟨.text (String.ofList value), i, stop⟩
  if closed then return ⟨[.ok token], stop⟩
  else return ⟨[.error (← diagnose source .unterminatedText i stop), .ok token], stop⟩

def scanNumber (source : Source) (i : Nat) (negative : Bool) : Option Round := do
  let stop := skip (octets source.chars) Char.isDigit (if negative then i + 1 else i)
  let taken ← slice? source.chars i stop
  match integer? negative (if negative then taken.drop 1 else taken) with
  | some n => return ⟨[.ok ⟨.number n, i, stop⟩], stop⟩
  | none =>
    let problem := .integerOutOfRange (String.ofList taken)
    return ⟨[.error (← diagnose source problem i stop)], stop⟩

def scanName (source : Source) (i : Nat) (ch : Char) : Option Round := do
  let start := if ch = '@' ∨ ch = '#' then i + 1 else i
  let stop := skip (octets source.chars) isWordChar start
  let name ← slice? source.chars start stop
  match name with
  | [] => return ⟨[.error (← diagnose source (.missingName ch) i stop)], stop⟩
  | first :: _ =>
    let kind :=
      if ch = '@' then Token.Kind.call (String.ofList name)
      else if ch = '#' then .directive (String.ofList name)
      else if first.isUpper || first == '_' then .variable (String.ofList name)
      else .identifier (String.ofList name)
    return ⟨[.ok ⟨kind, i, stop⟩], stop⟩

def scanUnexpected (source : Source) (i : Nat) (ch : Char) : Option Round := do
  let (_, behind) ← splitAt? source.chars i
  let c := behind.head?.getD ch
  let stop := i + c.utf8Size
  return ⟨[.error (← diagnose source (.unexpectedCharacter c) i stop)], stop⟩

def scanRound (source : Source) (i : Nat) (ch : Char) : Option Round :=
  let next := (octets source.chars)[i + 1]?
  if isSpace ch then some ⟨[], i + 1⟩
  else if ch = '%' then scanComment source i
  else match symbol? ch next with
  | some (kind, n) => some ⟨[.ok ⟨kind, i, i + n⟩], i + n⟩
  | none =>
    if ch = '"' then scanQuoted source i
    else if startsNumber ch next then scanNumber source i (ch == '-')
    else if ch = '@' ∨ ch = '#' ∨ ch.isAlpha ∨ ch = '_' then scanName source i ch
    else scanUnexpected source i ch

/-- The rounds from byte `i` on. There is no result if they are not fewer than `limit`, or if the
text is cut within a character. -/
def scanFrom (source : Source) : (limit : Nat) → (i : Nat) → Option (List (Except Diagnostic Token))
  | 0, _ => none
  | limit + 1, i =>
    match (octets source.chars)[i]? with
    | none => some []
    | some ch => do
      let round ← scanRound source i ch
      return round.found ++ (← scanFrom source limit round.stop)

def diagnostic? : Except Diagnostic Token → Option Diagnostic
  | .error d => some d
  | .ok _ => none

def token? : Except Diagnostic Token → Option Token
  | .ok t => some t
  | .error _ => none

def scan? (source : Source) (limit : Nat) : Option (Except (List Diagnostic) (List Token)) := do
  let found ← scanFrom source limit 0
  match found.filterMap diagnostic? with
  | [] => return .ok (found.filterMap token?)
  | problems => return .error problems

/-- A round finds what the piece at byte `i` is, and ends behind the piece. -/
def Round.Finds (source : Source) (i : Nat) (piece : Piece) (round : Round) : Prop :=
  round.stop = i + byteSize piece.taken ∧
  match piece.outcome with
  | .blank => round.found = []
  | .token kind => round.found = [.ok ⟨kind, i, round.stop⟩]
  | .fault problem =>
    round.found.filterMap diagnostic? =
      [⟨.parse, problem, some (Span.locate source i round.stop)⟩]

theorem diagnose_eq (source : Source) (problem : Problem) (start stop : Nat) :
    diagnose source problem start stop =
      some ⟨.parse, problem, some (Span.locate source start stop)⟩ := by
  rw [diagnose, locate?_eq]
  rfl

theorem byteSize_concat (hc : IsShort c) (pre : List Char) :
    byteSize (pre ++ [c]) = byteSize pre + 1 := by
  rw [byteSize_append]
  exact congrArg (byteSize pre + ·) (Char.utf8Size_eq_one_iff.2 hc)

theorem getElem?_succ (hc : IsShort c) (pre cs : List Char) :
    (octets (pre ++ c :: cs))[byteSize pre + 1]? = (octets cs).head? := by
  rw [← byteSize_concat hc, List.append_cons, getElem?_octets]

theorem skip_octets {p : Char → Bool} (hp : Bytewise p) (pre cs : List Char) :
    skip (octets (pre ++ cs)) p (byteSize pre) = byteSize pre + byteSize (cs.takeWhile p) := by
  rw [skip, drop_octets, takeWhile_octets hp, length_octets]

section Rounds

variable (file : Option String) (pre cs : List Char)

theorem scanComment_finds : ∃ round,
    scanComment ⟨pre ++ '%' :: cs, file⟩ (byteSize pre) = some round ∧
      round.Finds ⟨pre ++ '%' :: cs, file⟩ (byteSize pre) (comment cs) := by
  have hnext := getElem?_succ (c := '%') (by decide) pre cs
  have hstar := head?_octets_eq_some_iff (x := '*') (by decide) cs
  by_cases hcs : cs.head? = some '*'
  · obtain ⟨cs, rfl⟩ := List.head?_eq_some_iff.1 hcs
    have hdrop : (octets (pre ++ '%' :: '*' :: cs)).drop (byteSize pre + 2) = octets cs := by
      have hdrop := drop_octets (pre ++ ['%', '*']) cs
      rw [byteSize_append, List.append_assoc] at hdrop
      exact hdrop
    rw [scanComment]
    simp only [hnext, hstar.2 rfl, if_true, hdrop, blockComment?_octets, comment]
    cases blockComment? cs with
    | none =>
      simp only [Option.map_none, diagnose_eq]
      exact ⟨_, rfl, by rw [length_octets, byteSize_append], rfl⟩
    | some p =>
      refine ⟨_, rfl, ?_, rfl⟩
      simp only [length_octets, byteSize_cons]
      rw [Nat.add_assoc, ← Nat.add_assoc ('%'.utf8Size)]
      rfl
  · rw [scanComment, comment_of_head? hcs]
    simp only [hnext, hstar, hcs, if_false]
    refine ⟨_, rfl, skip_octets ?_ pre ('%' :: cs), rfl⟩
    exact bytewise_of_short true fun d hd => bne_iff_ne.2 fun h => hd (h ▸ by decide)

section Quoted

variable (pre cs : List Char) (limit : Nat)

theorem quotedFrom_nil : quotedFrom (pre ++ []) (limit + 1) (byteSize pre) =
    some ([], false, byteSize pre) := by
  rw [quotedFrom, getElem?_octets]
  rfl

theorem quotedFrom_quote : quotedFrom (pre ++ '"' :: cs) (limit + 1) (byteSize pre) =
    some ([], true, byteSize pre + 1) := by
  rw [quotedFrom, getElem?_octets, octets_cons, octets_of_isShort (by decide)]
  rfl

theorem quotedFrom_escape (c : Char) :
    quotedFrom (pre ++ '\\' :: c :: cs) (limit + 1) (byteSize pre) =
      (quotedFrom (pre ++ '\\' :: c :: cs) limit (byteSize pre + byteSize ['\\', c])).map
        fun r => (unescape c :: r.1, r.2) := by
  have hhead : (octets (pre ++ '\\' :: c :: cs))[byteSize pre]? = some '\\' := by
    rw [getElem?_octets, octets_cons, octets_of_isShort (by decide)]
    rfl
  have hsplit : splitAt? (pre ++ '\\' :: c :: cs) (byteSize pre + 1) =
      some (pre ++ ['\\'], c :: cs) := by
    rw [← byteSize_concat (c := '\\') (by decide), List.append_cons, splitAt?_append]
  have hlength : byteSize pre + 1 < (octets (pre ++ '\\' :: c :: cs)).length := by
    have hc := c.utf8Size_pos
    have hbackslash : '\\'.utf8Size = 1 := rfl
    rw [length_octets, byteSize_append, byteSize_cons, byteSize_cons]
    omega
  have hsize : byteSize pre + 1 + c.utf8Size = byteSize pre + byteSize ['\\', c] :=
    Nat.add_assoc _ _ _
  rw [quotedFrom, hhead]
  simp only [true_and, if_pos hlength, hsplit, Option.bind_eq_bind, Option.bind_some,
    List.head?_cons, Option.getD_some, hsize]
  cases quotedFrom (pre ++ '\\' :: c :: cs) limit (byteSize pre + byteSize ['\\', c]) <;> rfl

theorem quotedFrom_char {c : Char} (hquote : c ≠ '"') (hbackslash : c = '\\' → cs = []) :
    quotedFrom (pre ++ c :: cs) (limit + 1) (byteSize pre) =
      (quotedFrom (pre ++ c :: cs) limit (byteSize pre + byteSize [c])).map
        fun r => (c :: r.1, r.2) := by
  obtain ⟨o, ho, hhead⟩ := exists_head?_octets c cs
  rw [← getElem?_octets pre] at hhead
  have hplain : ¬ (o = '\\' ∧ byteSize pre + 1 < (octets (pre ++ c :: cs)).length) := by
    rintro ⟨hslash, hlength⟩
    have hc : c = '\\' := by
      by_contra hc
      exact ne_of_mem_octets (by decide) hc o ho hslash
    rw [hbackslash hc, hc, length_octets, byteSize_concat (by decide)] at hlength
    exact absurd hlength (Nat.lt_irrefl _)
  rw [quotedFrom, hhead]
  simp only [if_neg hplain, if_neg (ne_of_mem_octets (by decide) hquote o ho), splitAt?_append,
    Option.bind_eq_bind, Option.bind_some, List.head?_cons, Option.getD_some]
  change (quotedFrom (pre ++ c :: cs) limit (byteSize pre + byteSize [c])).bind _ = _
  cases quotedFrom (pre ++ c :: cs) limit (byteSize pre + byteSize [c]) <;> rfl

/-- What is read of a quoted text that starts at byte `i`: the text to its end, or all of it if it
is not closed. -/
def ReadsQuoted (cs : List Char) (i : Nat) (r : List Char × Bool × Nat) : Prop :=
  match quoted? cs with
  | some q => r = (q.value, true, i + byteSize q.taken)
  | none => r.2 = (false, i + byteSize cs)

variable {pre cs limit}

theorem ReadsQuoted.step (ds : List Char) {c : Char}
    (hquoted : quoted? (ds ++ cs) =
      (quoted? cs).map fun q => ⟨c :: q.value, ds ++ q.taken, q.rest⟩)
    (hround : quotedFrom (pre ++ (ds ++ cs)) (limit + 1) (byteSize pre) =
      (quotedFrom (pre ++ (ds ++ cs)) limit (byteSize pre + byteSize ds)).map
        fun r => (c :: r.1, r.2))
    (h : ∃ r, quotedFrom (pre ++ ds ++ cs) limit (byteSize (pre ++ ds)) = some r ∧
      ReadsQuoted cs (byteSize (pre ++ ds)) r) :
    ∃ r, quotedFrom (pre ++ (ds ++ cs)) (limit + 1) (byteSize pre) = some r ∧
      ReadsQuoted (ds ++ cs) (byteSize pre) r := by
  obtain ⟨r, hread, hr⟩ := h
  rw [List.append_assoc, byteSize_append] at hread
  refine ⟨_, hround.trans (congrArg (Option.map _) hread), ?_⟩
  rw [ReadsQuoted, hquoted]
  rw [ReadsQuoted, byteSize_append] at hr
  cases hcs : quoted? cs with
  | none =>
    rw [hcs] at hr
    simp only [Option.map_none, hr, byteSize_append, Nat.add_assoc]
  | some q =>
    rw [hcs] at hr
    simp only [Option.map_some, hr, byteSize_append, Nat.add_assoc]

/-- The loop over a quoted text ends, and cuts the text where characters start only. -/
theorem exists_readsQuoted (pre cs : List Char) (hlimit : cs.length ≤ limit) :
    ∃ r, quotedFrom (pre ++ cs) (limit + 1) (byteSize pre) = some r ∧
      ReadsQuoted cs (byteSize pre) r := by
  induction cs using quoted?.induct generalizing pre limit with
  | case1 => exact ⟨_, quotedFrom_nil pre limit, rfl⟩
  | case2 cs => exact ⟨_, quotedFrom_quote pre cs limit, rfl⟩
  | case3 =>
    cases limit with
    | zero => exact absurd hlimit (by simp)
    | succ limit =>
      exact ReadsQuoted.step ['\\'] rfl
        (quotedFrom_char pre [] (limit + 1) (by decide) fun _ => rfl)
        ⟨_, quotedFrom_nil (pre ++ ['\\']) limit, rfl⟩
  | case4 c cs ih =>
    cases limit with
    | zero => exact absurd hlimit (by simp)
    | succ limit =>
      simp only [List.length_cons] at hlimit
      exact ReadsQuoted.step ['\\', c] rfl (quotedFrom_escape pre cs (limit + 1) c)
        (ih (pre ++ ['\\', c]) (by omega))
  | case5 c cs hquote hlast hescape ih =>
    cases limit with
    | zero => exact absurd hlimit (by simp)
    | succ limit =>
      simp only [List.length_cons] at hlimit
      have hbackslash := ne_backslash hlast hescape
      exact ReadsQuoted.step [c] (quoted?_cons hquote hbackslash cs)
        (quotedFrom_char pre cs (limit + 1) hquote fun hc => absurd hc hbackslash)
        (ih (pre ++ [c]) (by omega))

end Quoted

theorem scanQuoted_finds : ∃ round,
    scanQuoted ⟨pre ++ '"' :: cs, file⟩ (byteSize pre) = some round ∧
      round.Finds ⟨pre ++ '"' :: cs, file⟩ (byteSize pre) (quotedText cs) := by
  have hlimit : cs.length ≤ (octets (pre ++ '"' :: cs)).length := by
    have hcs := length_le_byteSize cs
    rw [length_octets, byteSize_append, byteSize_cons]
    omega
  obtain ⟨⟨value, closed, stop⟩, hread, hr⟩ := exists_readsQuoted (pre ++ ['"']) cs hlimit
  rw [byteSize_concat (by decide), ← List.append_cons] at hread
  simp only [ReadsQuoted, byteSize_concat (c := '"') (by decide), Nat.add_assoc] at hr
  rw [scanQuoted]
  simp only [hread, Option.bind_eq_bind, Option.bind_some, quotedText, diagnose_eq]
  cases hcs : quoted? cs with
  | none =>
    rw [hcs] at hr
    cases hr
    exact ⟨_, rfl, rfl, rfl⟩
  | some q =>
    rw [hcs] at hr
    cases hr
    exact ⟨_, rfl, rfl, rfl⟩

theorem bytewise_isDigit : Bytewise Char.isDigit :=
  bytewise_of_short false fun _ hd =>
    Bool.eq_false_iff.2 fun h => hd (isShort_of_isWordChar (isWordChar_of_isDigit h))

theorem bytewise_isWordChar : Bytewise isWordChar :=
  bytewise_of_short false fun _ hd => Bool.eq_false_iff.2 fun h => hd (isShort_of_isWordChar h)

theorem skip_number {c : Char} (h : startsNumber c cs.head?) :
    skip (octets (pre ++ c :: cs)) Char.isDigit
        (if (c == '-') = true then byteSize pre + 1 else byteSize pre) =
      byteSize pre + byteSize (c :: cs.takeWhile Char.isDigit) := by
  cases hc : c == '-' with
  | true =>
    rw [beq_iff_eq] at hc
    subst hc
    have hskip := skip_octets bytewise_isDigit (pre ++ ['-']) cs
    rw [byteSize_concat (by decide), ← List.append_cons, Nat.add_assoc] at hskip
    exact hskip
  | false =>
    have hdigit : c.isDigit := by simpa [startsNumber, hc] using h
    have hskip := skip_octets bytewise_isDigit pre (c :: cs)
    rw [List.takeWhile_cons_of_pos hdigit] at hskip
    exact hskip

theorem scanNumber_finds {c : Char} (h : startsNumber c cs.head?) : ∃ round,
    scanNumber ⟨pre ++ c :: cs, file⟩ (byteSize pre) (c == '-') = some round ∧
      round.Finds ⟨pre ++ c :: cs, file⟩ (byteSize pre) (read c cs) := by
  have hslice := slice?_append pre (c :: cs.takeWhile Char.isDigit) (cs.dropWhile Char.isDigit)
  rw [List.cons_append, List.takeWhile_append_dropWhile] at hslice
  rw [scanNumber, read_of_startsNumber h, number]
  simp only [skip_number pre cs h, hslice, Option.bind_eq_bind, Option.bind_some, diagnose_eq]
  cases integer? (c == '-') (if (c == '-') = true then (c :: cs.takeWhile Char.isDigit).drop 1
    else c :: cs.takeWhile Char.isDigit) with
  | none => exact ⟨_, rfl, rfl, rfl⟩
  | some n => exact ⟨_, rfl, rfl, rfl⟩

theorem scanName_sigiled {ch : Char} {kind : String → Token.Kind}
    (h : ch = '@' ∧ kind = .call ∨ ch = '#' ∧ kind = .directive) : ∃ round,
    scanName ⟨pre ++ ch :: cs, file⟩ (byteSize pre) ch = some round ∧
      round.Finds ⟨pre ++ ch :: cs, file⟩ (byteSize pre) (sigiled kind ch cs) := by
  have hshort : IsShort ch := by
    rcases h with ⟨rfl, -⟩ | ⟨rfl, -⟩ <;> decide
  have hsigil : ch = '@' ∨ ch = '#' := h.imp And.left And.left
  have hskip := skip_octets bytewise_isWordChar (pre ++ [ch]) cs
  have hslice := slice?_append (pre ++ [ch]) (cs.takeWhile isWordChar) (cs.dropWhile isWordChar)
  rw [List.takeWhile_append_dropWhile] at hslice
  rw [byteSize_concat hshort, ← List.append_cons, Nat.add_assoc] at hskip hslice
  rw [scanName, sigiled]
  simp only [if_pos hsigil, hskip, hslice, Option.bind_eq_bind, Option.bind_some, diagnose_eq]
  rcases h with ⟨rfl, rfl⟩ | ⟨rfl, rfl⟩
  · cases cs.takeWhile isWordChar <;> exact ⟨_, rfl, rfl, rfl⟩
  · cases cs.takeWhile isWordChar <;> exact ⟨_, rfl, rfl, rfl⟩

theorem scanName_word {c : Char} (hword : isWordChar c) : ∃ round,
    scanName ⟨pre ++ c :: cs, file⟩ (byteSize pre) c = some round ∧
      round.Finds ⟨pre ++ c :: cs, file⟩ (byteSize pre) (word c cs) := by
  have hsigil : ¬ (c = '@' ∨ c = '#') := by
    rintro (rfl | rfl) <;> cases hword
  have hskip := skip_octets bytewise_isWordChar pre (c :: cs)
  have hslice := slice?_append pre (c :: cs.takeWhile isWordChar) (cs.dropWhile isWordChar)
  rw [List.cons_append, List.takeWhile_append_dropWhile] at hslice
  rw [List.takeWhile_cons_of_pos hword] at hskip
  rw [not_or] at hsigil
  rw [scanName, word]
  simp only [hsigil.1, hsigil.2, or_self, if_false, hskip, hslice, Option.bind_eq_bind,
    Option.bind_some]
  exact ⟨_, rfl, rfl, rfl⟩

theorem scanName_finds {c : Char} (hdigit : ¬ c.isDigit)
    (h : c = '@' ∨ c = '#' ∨ c.isAlpha ∨ c = '_') : ∃ round,
    scanName ⟨pre ++ c :: cs, file⟩ (byteSize pre) c = some round ∧
      round.Finds ⟨pre ++ c :: cs, file⟩ (byteSize pre) (read c cs) := by
  rcases h with rfl | rfl | h
  · exact scanName_sigiled file pre cs (.inl ⟨rfl, rfl⟩)
  · exact scanName_sigiled file pre cs (.inr ⟨rfl, rfl⟩)
  · have hword := isWordChar_of_letter h
    rw [read_of_isWordChar hword, if_neg hdigit]
    exact scanName_word file pre cs hword

theorem scanUnexpected_finds (c o : Char) : ∃ round,
    scanUnexpected ⟨pre ++ c :: cs, file⟩ (byteSize pre) o = some round ∧
      round.Finds ⟨pre ++ c :: cs, file⟩ (byteSize pre)
        ⟨.fault (.unexpectedCharacter c), [c], cs⟩ := by
  rw [scanUnexpected]
  simp only [splitAt?_append, Option.bind_eq_bind, Option.bind_some, List.head?_cons,
    Option.getD_some, diagnose_eq]
  exact ⟨_, rfl, rfl, rfl⟩

theorem byteSize_symbol {c : Char} {cs : List Char} {kind : Token.Kind} {n : Nat}
    (h : symbol? c cs.head? = some (kind, n)) : byteSize (c :: cs.take (n - 1)) = n := by
  unfold symbol? at h
  split at h
  all_goals cases h
  all_goals first | rfl | skip
  -- left are the symbols of two characters
  all_goals
    obtain ⟨ds, rfl⟩ := List.head?_eq_some_iff.1 ‹_›
    rfl

/-- A character that starts a blank, a symbol, a text in quotes, a number or a name, if `next` is
the character behind it. -/
def Starts (c : Char) (next : Option Char) : Prop :=
  isSpace c ∨ c = '%' ∨ symbol? c next ≠ none ∨ c = '"' ∨ startsNumber c next ∨
    c = '@' ∨ c = '#' ∨ c.isAlpha ∨ c = '_'

theorem Starts.isShort {c : Char} {next : Option Char} (h : Starts c next) : IsShort c := by
  rcases h with h | rfl | h | rfl | h | rfl | rfl | h | rfl
  · exact isShort_of_isSpace h
  · decide
  · exact isShort_of_symbol? h
  · decide
  · rw [startsNumber, Bool.or_eq_true, Bool.and_eq_true, beq_iff_eq] at h
    rcases h with h | ⟨rfl, -⟩
    · exact isShort_of_isWordChar (isWordChar_of_isDigit h)
    · decide
  · decide
  · decide
  · exact isShort_of_isWordChar (isWordChar_of_letter (.inl h))
  · decide

theorem read_of_not_starts {c : Char} (h : ¬ Starts c cs.head?) :
    read c cs = ⟨.fault (.unexpectedCharacter c), [c], cs⟩ := by
  simp only [Starts, not_or, Ne, not_not] at h
  obtain ⟨hspace, hcomment, hsymbol, hquote, hnumber, hat, hnum, halpha, hunder⟩ := h
  rw [read_eq, if_neg hspace, if_neg hcomment, hsymbol]
  simp [hquote, hnumber, hat, hnum, halpha, hunder]

theorem scanRound_of_not_starts {source : Source} {i : Nat} {o : Char}
    (h : ¬ Starts o (octets source.chars)[i + 1]?) :
    scanRound source i o = scanUnexpected source i o := by
  simp only [Starts, not_or, Ne, not_not] at h
  obtain ⟨hspace, hcomment, hsymbol, hquote, hnumber, hat, hnum, halpha, hunder⟩ := h
  simp only [scanRound, hspace, hcomment, hsymbol, hquote, hnumber, hat, hnum, halpha, hunder,
    if_false]
  rfl

theorem symbol?_octets (c : Char) : symbol? c (octets cs).head? = symbol? c cs.head? := by
  refine head?_octets (fun d hd => symbol?_of_not_mem fun hmem => hd ?_) cs
  simp only [List.mem_cons, List.not_mem_nil, or_false] at hmem
  rcases hmem with rfl | rfl | rfl <;> decide

theorem startsNumber_octets (c : Char) :
    startsNumber c (octets cs).head? = startsNumber c cs.head? := by
  refine head?_octets (fun d hd => ?_) cs
  have hdigit : d.isDigit = false :=
    Bool.eq_false_iff.2 fun h => hd (isShort_of_isWordChar (isWordChar_of_isDigit h))
  simp [startsNumber, hdigit]

/-- A round that starts with a character finds the piece that starts with it. -/
theorem scanRound_finds {c o : Char} (ho : (octets (c :: cs)).head? = some o) : ∃ round,
    scanRound ⟨pre ++ c :: cs, file⟩ (byteSize pre) o = some round ∧
      round.Finds ⟨pre ++ c :: cs, file⟩ (byteSize pre) (read c cs) := by
  by_cases hc : IsShort c
  · rw [octets_cons, octets_of_isShort hc] at ho
    obtain rfl : c = o := Option.some.inj ho
    rw [scanRound]
    simp only [getElem?_succ hc pre cs, symbol?_octets, startsNumber_octets]
    split
    · next hspace =>
      rw [read_eq, if_pos hspace]
      exact ⟨_, rfl, congrArg (byteSize pre + ·) (byteSize_concat hc []).symm, rfl⟩
    split
    · next hcomment =>
      subst hcomment
      exact scanComment_finds file pre cs
    split
    · next hsymbol =>
      rw [read_of_symbol hsymbol]
      exact ⟨_, rfl, congrArg (byteSize pre + ·) (byteSize_symbol hsymbol).symm, rfl⟩
    split
    · next hquote =>
      subst hquote
      exact scanQuoted_finds file pre cs
    split
    · next hnumber => exact scanNumber_finds file pre cs hnumber
    split
    · next hnumber hname =>
      refine scanName_finds file pre cs (fun hdigit => hnumber ?_) hname
      rw [startsNumber, hdigit, Bool.true_or]
    · rw [read_of_not_starts cs (by simp_all [Starts])]
      exact scanUnexpected_finds file pre cs c c
  · obtain ⟨o', ho', hhead⟩ := exists_head?_octets c cs
    obtain rfl := Option.some.inj (hhead.symm.trans ho)
    have hnot := not_isShort_of_mem_octets hc o' ho'
    rw [scanRound_of_not_starts fun h => hnot h.isShort,
      read_of_not_starts cs fun h => hc h.isShort]
    exact scanUnexpected_finds file pre cs c o'

end Rounds

def faultAt (source : Source) (p : Nat × Piece) : Option Diagnostic :=
  match p.2.outcome with
  | .fault problem =>
    some ⟨.parse, problem, some (Span.locate source p.1 (p.1 + byteSize p.2.taken))⟩
  | _ => none

def tokenAt (p : Nat × Piece) : Option Token :=
  match p.2.outcome with
  | .token kind => some ⟨kind, p.1, p.1 + byteSize p.2.taken⟩
  | _ => none

/-- The scan finds the diagnostics of some pieces, and their tokens if there is no diagnostic. -/
def FindsAll (source : Source) (pieces : List (Nat × Piece))
    (found : List (Except Diagnostic Token)) : Prop :=
  found.filterMap diagnostic? = pieces.filterMap (faultAt source) ∧
    (pieces.filterMap (faultAt source) = [] → found.filterMap token? = pieces.filterMap tokenAt)

theorem Round.Finds.cons {i : Nat} {piece : Piece} {round : Round}
    {pieces : List (Nat × Piece)} {found : List (Except Diagnostic Token)}
    (h : round.Finds source i piece) (hs : FindsAll source pieces found) :
    FindsAll source ((i, piece) :: pieces) (round.found ++ found) := by
  obtain ⟨hstop, hfound⟩ := h
  obtain ⟨hfaults, htokens⟩ := hs
  rw [FindsAll, List.filterMap_append, List.filterMap_append, List.filterMap_cons,
    List.filterMap_cons, hfaults]
  cases hpiece : piece.outcome with
  | blank =>
    simp only [hpiece] at hfound
    simp only [hfound, faultAt, tokenAt, hpiece]
    exact ⟨rfl, htokens⟩
  | token kind =>
    simp only [hpiece] at hfound
    simp only [hfound, faultAt, tokenAt, hpiece, ← hstop]
    exact ⟨rfl, fun h => congrArg _ (htokens h)⟩
  | fault problem =>
    simp only [hpiece] at hfound
    simp only [hfound, faultAt, hpiece, ← hstop]
    exact ⟨rfl, nofun⟩

/-- The scan from the start of a piece on ends, and finds the pieces one after the other. -/
theorem exists_scanFrom (file : Option String) (pre cs : List Char) {limit : Nat}
    (hlimit : cs.length ≤ limit) :
    ∃ found, scanFrom ⟨pre ++ cs, file⟩ (limit + 1) (byteSize pre) = some found ∧
      FindsAll ⟨pre ++ cs, file⟩ (all cs.length (byteSize pre) cs) found := by
  induction cs using text_induction generalizing pre limit with
  | nil =>
    refine ⟨[], ?_, rfl, fun _ => rfl⟩
    rw [scanFrom, getElem?_octets]
    rfl
  | cut c body rest outcome hread _ ih =>
    rw [List.length_cons, List.length_append] at hlimit
    obtain ⟨limit, rfl⟩ : ∃ n, limit = n + 1 := Nat.exists_eq_add_one_of_ne_zero (by omega)
    have hrest : rest.length ≤ limit := by omega
    obtain ⟨o, -, ho⟩ := exists_head?_octets c (body ++ rest)
    obtain ⟨round, hround, hfinds⟩ := scanRound_finds file pre (body ++ rest) ho
    rw [hread] at hfinds
    obtain ⟨found, hfrom, hfound⟩ := ih (pre ++ c :: body) hrest
    rw [byteSize_append, List.append_assoc, List.cons_append] at hfrom hfound
    rw [← hfinds.1] at hfrom
    refine ⟨round.found ++ found, ?_, ?_⟩
    · rw [scanFrom, getElem?_octets, ho]
      simp only [hround, Option.bind_eq_bind, Option.bind_some, hfrom]
      rfl
    · rw [all_cut hread]
      exact hfinds.cons hfound

/-- The scan by bytes gives what the scan by pieces gives. -/
theorem scan?_eq (source : Source) {limit : Nat} (hlimit : source.chars.length < limit) :
    scan? source limit = some (Token.scan source) := by
  obtain ⟨limit, rfl⟩ := Nat.exists_eq_add_one_of_ne_zero (Nat.ne_of_gt (Nat.zero_lt_of_lt hlimit))
  obtain ⟨found, hfrom, hfaults, htokens⟩ :=
    exists_scanFrom source.file [] source.chars (Nat.le_of_lt_succ hlimit)
  have hfrom : scanFrom source (limit + 1) 0 = some found := hfrom
  change _ = Token.faults source at hfaults
  change Token.faults source = [] → _ = Token.tokens source at htokens
  simp only [scan?, hfrom, Option.bind_eq_bind, Option.bind_some, hfaults, Token.scan]
  cases hs : Token.faults source with
  | nil =>
    rw [htokens hs]
    rfl
  | cons d ds => rfl

/-- A character of two bytes behind a backslash, and another one at the end of a comment. -/
example : scan? ⟨"\"\\é\"%*é*%.%é".toList, none⟩ 20 =
    some (.ok [⟨.text "é", 0, 5⟩, ⟨.dot, 11, 12⟩]) := by
  cbv

end Octets

end AnswerSetTest
