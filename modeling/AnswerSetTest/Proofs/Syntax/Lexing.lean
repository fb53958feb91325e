import AnswerSetTest.Syntax.Lexer

/-!
# Lexing symbols

The text of a symbol is cut into the tokens that spell it, if no letter, digit or underscore
follows: numbers and strings are read back with their values, and names as identifiers.
-/

namespace AnswerSetTest

namespace Piece

variable {c : Char} {cs ds rest : List Char} {kind : Token.Kind} {kinds : List Token.Kind}

/-- A text that is cut into tokens of the given kinds, without blanks and faults. -/
inductive Lexes : List Char → List Token.Kind → Prop
  | nil : Lexes [] []
  | token {c : Char} {body rest : List Char} {kind : Token.Kind} {kinds : List Token.Kind}
    (h : read c (body ++ rest) = ⟨.token kind, c :: body, rest⟩) (hs : Lexes rest kinds) :
    Lexes (c :: (body ++ rest)) (kind :: kinds)

theorem Lexes.single (h : read c rest = ⟨.token kind, [c], rest⟩) (hs : Lexes rest kinds) :
    Lexes (c :: rest) (kind :: kinds) := by
  rw [← List.nil_append rest] at h ⊢
  exact .token h hs

def outcomes (cs : List Char) : List Outcome := (all cs.length 0 cs).map fun p => p.2.outcome

theorem outcomes_all (h : Lexes cs kinds) {length : Nat} (hlength : cs.length ≤ length)
    (offset : Nat) :
    (all length offset cs).map (fun p => p.2.outcome) = kinds.map Outcome.token := by
  induction h generalizing length offset with
  | nil => cases length <;> rfl
  | @token c body rest kind kinds h hs ih =>
    rw [List.length_cons, List.length_append] at hlength
    obtain ⟨n, rfl⟩ : ∃ n, length = n + 1 := Nat.exists_eq_add_one_of_ne_zero (by omega)
    rw [all]
    simp only [h, List.map_cons]
    rw [ih (by omega)]

/-- No letter, digit or underscore comes first. -/
def Delimits (cs : List Char) : Prop := ∀ c ∈ cs.head?, isWordChar c = false

theorem isWordChar_of_isDigit (h : c.isDigit) : isWordChar c := by
  simp [isWordChar, Char.isAlphanum, h]

/-- A property of letters, digits and underscores fails where there is none. -/
theorem eq_false_of_isWordChar {p : Char → Bool} (hp : ∀ c, p c → isWordChar c)
    (h : isWordChar c = false) : p c = false := by
  cases hc : p c with
  | false => rfl
  | true => exact absurd (hp c hc) (Bool.eq_false_iff.1 h)

theorem eq_or_of_isSpace (h : isSpace c) :
    c = ' ' ∨ c = '\t' ∨ c = '\n' ∨ c = '\x0c' ∨ c = '\r' := by
  simpa [isSpace, or_assoc] using h

theorem takeWhile_append_of_head? {p : Char → Bool} (hds : ∀ d ∈ ds, p d)
    (hrest : ∀ d ∈ rest.head?, p d = false) :
    (ds ++ rest).takeWhile p = ds ∧ (ds ++ rest).dropWhile p = rest := by
  rw [List.takeWhile_append_of_pos hds, List.dropWhile_append_of_pos hds]
  cases rest with
  | nil => simp
  | cons c rest => simp [hrest c rfl]

theorem takeWhile_append_of_delimits (p : Char → Bool) (hp : ∀ c, p c → isWordChar c)
    (hds : ∀ d ∈ ds, p d) (hrest : Delimits rest) :
    (ds ++ rest).takeWhile p = ds ∧ (ds ++ rest).dropWhile p = rest := by
  apply takeWhile_append_of_head? hds
  intro d hd
  exact eq_false_of_isWordChar hp (hrest d hd)

theorem exists_takeWhile (p : Char → Bool) (cs : List Char) :
    ∃ ds rest, cs = ds ++ rest ∧ (∀ d ∈ ds, p d) ∧ ∀ d ∈ rest.head?, p d = false := by
  refine ⟨cs.takeWhile p, cs.dropWhile p, List.takeWhile_append_dropWhile.symm,
    List.all_eq_true.1 List.all_takeWhile, fun d hd => ?_⟩
  have hhead := List.head?_dropWhile_not p cs
  rw [hd] at hhead
  exact hhead

theorem read_of_isWordChar (h : isWordChar c) (cs : List Char) :
    read c cs = if c.isDigit then number false c cs else word c cs := by
  have hspace : isSpace c = false := by
    cases hspace : isSpace c with
    | false => rfl
    | true => rcases eq_or_of_isSpace hspace with rfl | rfl | rfl | rfl | rfl <;> cases h
  have hletter : c.isDigit ∨ c.isAlpha || c == '_' := by
    simpa [isWordChar, Char.isAlphanum, or_assoc, or_comm, or_left_comm] using h
  unfold read
  split
  all_goals first | cases h | skip
  rw [if_neg (by simp [hspace])]
  split
  · rfl
  · next hdigit => rw [if_pos (hletter.resolve_left hdigit)]

theorem number_of_digits {negative : Bool} {n : Int64} (hds : ∀ d ∈ ds, d.isDigit)
    (hrest : Delimits rest) (hn : integer? negative (if negative then ds else c :: ds) = some n) :
    number negative c (ds ++ rest) = ⟨.token (.number n), c :: ds, rest⟩ := by
  obtain ⟨htake, hdrop⟩ := takeWhile_append_of_delimits Char.isDigit
    (fun _ => isWordChar_of_isDigit) hds hrest
  have hdigits : (if negative then (c :: ds).drop 1 else c :: ds) =
      if negative then ds else c :: ds := rfl
  simp only [number, htake, hdrop, hdigits, hn]

theorem not_le_of_isLower (h : c.isLower) {d : Char} (hd : ¬ 'a'.val ≤ d.val) :
    ¬ c.val ≤ d.val := by
  intro hle
  exact hd (UInt32.le_trans (of_decide_eq_true (Bool.and_eq_true_iff.1 h).1) hle)

theorem read_of_isLower (h : c.isLower) (hds : ∀ d ∈ ds, isWordChar d) (hrest : Delimits rest) :
    read c (ds ++ rest) =
      ⟨.token (.identifier (String.ofList (c :: ds))), c :: ds, rest⟩ := by
  have hletter : c.isAlpha := Bool.or_eq_true_iff.2 (.inr h)
  have hword : isWordChar c := by simp [isWordChar, Char.isAlphanum, hletter]
  have hdigit : ¬ c.isDigit := by
    intro hdigit
    exact not_le_of_isLower h (by decide) (of_decide_eq_true (Bool.and_eq_true_iff.1 hdigit).2)
  have hupper : c.isUpper = false := by
    apply Bool.eq_false_iff.2
    intro hupper
    exact not_le_of_isLower h (by decide) (of_decide_eq_true hupper).2
  have hunderscore : (c == '_') = false := by
    apply Bool.eq_false_iff.2
    intro hunderscore
    rw [beq_iff_eq.1 hunderscore] at h
    cases h
  obtain ⟨htake, hdrop⟩ := takeWhile_append_of_delimits isWordChar (fun _ => id) hds hrest
  rw [read_of_isWordChar hword, if_neg hdigit]
  simp only [word, htake, hdrop, hupper, hunderscore]
  rfl

theorem quoted?_escape (cs rest : List Char) :
    quoted? (Symbol.escape cs ++ '"' :: rest) = some ⟨cs, Symbol.escape cs ++ ['"'], rest⟩ := by
  induction cs using Symbol.escape.induct with
  | case1 => rfl
  | case2 cs ih => simp [Symbol.escape, quoted?, ih, unescape]
  | case3 cs ih => simp [Symbol.escape, quoted?, ih, unescape]
  | case4 cs ih => simp [Symbol.escape, quoted?, ih, unescape]
  | case5 c cs hquote hbackslash hfeed ih =>
    rw [Symbol.escape, List.cons_append, quoted?, ih]
    · rfl
    · exact hquote
    · intro h
      exact absurd h hbackslash
    · intro _ _ h
      exact absurd h hbackslash
    · exact hquote
    · exact hbackslash
    · exact hfeed

theorem integer?_toDigits (n : Int64) :
    integer? (decide (n.toInt < 0)) (Nat.toDigits 10 n.toInt.natAbs) = some n := by
  have hmagnitude : (if decide (n.toInt < 0) then -(n.toInt.natAbs : Int) else n.toInt.natAbs) =
      n.toInt := by
    split
    · next h =>
      have hneg := of_decide_eq_true h
      omega
    · next h =>
      have hpos : ¬ n.toInt < 0 := by simpa using h
      omega
  simp only [integer?, Nat.ofDigitChars_ten_toDigits, hmagnitude]
  rw [if_pos ⟨n.minValue_le_toInt, n.toInt_le⟩, Int64.ofInt_toInt]

theorem read_decimal (n : Int64) (hrest : Delimits rest) :
    ∃ c ds, Symbol.decimal n.toInt = c :: ds ∧
      read c (ds ++ rest) = ⟨.token (.number n), c :: ds, rest⟩ := by
  have hdigits : ∀ d ∈ Nat.toDigits 10 n.toInt.natAbs, d.isDigit :=
    fun d hd => Nat.isDigit_of_mem_toDigits (by decide) (by decide) hd
  have hvalue := integer?_toDigits n
  obtain ⟨d, ds, hds⟩ := List.exists_cons_of_ne_nil
    (Nat.toDigits_ne_nil (n := n.toInt.natAbs) (b := 10))
  rw [hds] at hdigits hvalue
  rw [List.forall_mem_cons] at hdigits
  unfold Symbol.decimal
  by_cases hneg : n.toInt < 0
  · rw [if_pos hneg, hds]
    rw [decide_eq_true hneg] at hvalue
    refine ⟨'-', d :: ds, rfl, ?_⟩
    have hread : read '-' (d :: ds ++ rest) = number true '-' (d :: ds ++ rest) := if_pos hdigits.1
    rw [hread, number_of_digits (List.forall_mem_cons.2 hdigits) hrest hvalue]
  · rw [if_neg hneg, hds]
    rw [decide_eq_false hneg] at hvalue
    refine ⟨d, ds, rfl, ?_⟩
    rw [read_of_isWordChar (isWordChar_of_isDigit hdigits.1), if_pos hdigits.1,
      number_of_digits hdigits.2 hrest hvalue]

end Piece

namespace Symbol

/-- A lower-case letter with letters, digits and underscores behind it. -/
def IsIdentifier (name : String) : Prop :=
  ∃ c cs, name.toList = c :: cs ∧ c.isLower ∧ ∀ d ∈ cs, Piece.isWordChar d

/-- All function terms in a symbol have a name and arguments in `P`. -/
inductive EachFunction (P : String → List Symbol → Prop) : Symbol → Prop
  | number (n : Int64) : EachFunction P (.number n)
  | text (s : String) : EachFunction P (.text s)
  | function {name : String} {args : List Symbol} (h : P name args)
    (hargs : ∀ a ∈ args, EachFunction P a) : EachFunction P (.function name args)

mutual

def spelling : Symbol → List Token.Kind
  | .number n => [.number n]
  | .text s => [.text s]
  | .function name [] => if name = "" then [.leftParen, .rightParen] else [.identifier name]
  | .function name (a :: as) =>
    (if name = "" then [] else [.identifier name]) ++
      .leftParen :: (spelling a ++ spellingRest as) ++
      (if name = "" ∧ as = [] then [.comma, .rightParen] else [.rightParen])

def spellingRest : List Symbol → List Token.Kind
  | [] => []
  | a :: as => .comma :: (spelling a ++ spellingRest as)

end

open Piece (Lexes Delimits)

/-- The text of `s` is cut into the tokens that spell it. -/
def Spells (s : Symbol) : Prop :=
  ∀ rest kinds, Delimits rest → Lexes rest kinds → Lexes (s.chars ++ rest) (s.spelling ++ kinds)

variable {name : String} {as : List Symbol} {rest : List Char} {kinds : List Token.Kind}

theorem spells_number (n : Int64) : (number n).Spells := by
  intro rest kinds hrest hkinds
  obtain ⟨c, ds, hdecimal, hread⟩ := Piece.read_decimal n hrest
  rw [chars, spelling, hdecimal]
  exact .token hread hkinds

theorem spells_text (s : String) : (text s).Spells := by
  intro rest kinds hrest hkinds
  have hquoted := Piece.quoted?_escape s.toList rest
  have hread : Piece.read '"' (escape s.toList ++ ['"'] ++ rest) =
      ⟨.token (.text s), '"' :: (escape s.toList ++ ['"']), rest⟩ := by
    rw [List.append_assoc, List.singleton_append]
    unfold Piece.read
    simp only [hquoted, String.ofList_toList]
  rw [chars, spelling]
  exact .token hread hkinds

theorem lexes_identifier (h : IsIdentifier name) (hrest : Delimits rest)
    (hkinds : Lexes rest kinds) : Lexes (name.toList ++ rest) (.identifier name :: kinds) := by
  obtain ⟨c, cs, hname, hlower, hcs⟩ := h
  have hread := Piece.read_of_isLower hlower hcs hrest
  rw [← hname, String.ofList_toList, hname] at hread
  rw [hname]
  exact .token hread hkinds

theorem delimits_charsRest (as : List Symbol) (h : Delimits rest) :
    Delimits (charsRest as ++ rest) := by
  cases as with
  | nil => exact h
  | cons a as =>
    intro c hc
    cases hc
    rfl

theorem lexes_charsRest (h : ∀ a ∈ as, a.Spells) (hrest : Delimits rest)
    (hkinds : Lexes rest kinds) : Lexes (charsRest as ++ rest) (spellingRest as ++ kinds) := by
  induction as with
  | nil => exact hkinds
  | cons a as ih =>
    rw [List.forall_mem_cons] at h
    simp only [charsRest, spellingRest, List.cons_append, List.append_assoc]
    apply Lexes.single rfl
    exact h.1 _ _ (delimits_charsRest as hrest) (ih h.2)

theorem IsIdentifier.ne_empty (h : IsIdentifier name) : name ≠ "" := by
  rintro rfl
  obtain ⟨c, cs, hname, -⟩ := h
  cases hname

theorem spells_function_nil (h : IsIdentifier name ∨ name = "") : (function name []).Spells := by
  intro rest kinds hrest hkinds
  rw [chars, spelling]
  rcases h with h | rfl
  · rw [if_neg h.ne_empty, if_neg h.ne_empty]
    exact lexes_identifier h hrest hkinds
  · rw [if_pos rfl, if_pos rfl]
    exact .single rfl (.single rfl hkinds)

theorem spells_function_cons {a : Symbol} (h : IsIdentifier name ∨ name = "")
    (hargs : ∀ b ∈ a :: as, b.Spells) : (function name (a :: as)).Spells := by
  intro rest kinds hrest hkinds
  rw [List.forall_mem_cons] at hargs
  have hclose : Lexes ((if name = "" ∧ as = [] then [',', ')'] else [')']) ++ rest)
      ((if name = "" ∧ as = [] then [.comma, .rightParen] else [.rightParen]) ++ kinds) := by
    split
    · exact .single rfl (.single rfl hkinds)
    · exact .single rfl hkinds
  have hdelimits : Delimits ((if name = "" ∧ as = [] then [',', ')'] else [')']) ++ rest) := by
    intro c hc
    split at hc
    · cases hc
      rfl
    · cases hc
      rfl
  have hargs := Lexes.single (c := '(') rfl (hargs.1 _ _ (delimits_charsRest as hdelimits)
    (lexes_charsRest hargs.2 hdelimits hclose))
  simp only [chars, spelling, List.append_assoc, List.cons_append]
  rcases h with h | rfl
  · rw [if_neg h.ne_empty, List.singleton_append]
    apply lexes_identifier h _ hargs
    intro c hc
    cases hc
    rfl
  · exact hargs

/-- The text of a symbol whose names are identifiers, or empty, is cut into the tokens that
spell it. -/
theorem EachFunction.spells {s : Symbol}
    (h : s.EachFunction fun name _ => IsIdentifier name ∨ name = "") : s.Spells := by
  induction h with
  | number n => exact spells_number n
  | text s => exact spells_text s
  | @function name args hname hargs ih =>
    cases args with
    | nil => exact spells_function_nil hname
    | cons a as => exact spells_function_cons hname ih

end Symbol

namespace Token

def kind? : Piece.Outcome → Option Token.Kind
  | .token kind => some kind
  | .blank | .fault _ => none

theorem kinds_tokens (source : Source) :
    (tokens source).map Token.kind = (Piece.outcomes source.chars).filterMap kind? := by
  rw [tokens, pieces, Piece.outcomes, List.map_filterMap, List.filterMap_map]
  congr 1
  funext ⟨offset, piece⟩
  cases h : piece.outcome <;> simp [h, kind?]

theorem faults_eq_nil_iff (source : Source) :
    faults source = [] ↔ ∀ o ∈ Piece.outcomes source.chars, ∀ problem, o ≠ .fault problem := by
  rw [faults, pieces, Piece.outcomes, List.filterMap_eq_nil_iff, List.forall_mem_map]
  refine forall₂_congr fun p _ => ?_
  cases h : p.2.outcome with
  | fault problem => simp [h]
  | _ => simp [h]

theorem scan_eq_ok_iff {source : Source} {ts : List Token} :
    scan source = .ok ts ↔
      (∀ o ∈ Piece.outcomes source.chars, ∀ problem, o ≠ .fault problem) ∧ ts = tokens source := by
  rw [← faults_eq_nil_iff, scan]
  cases faults source with
  | nil => simp [eq_comm]
  | cons d ds => simp

theorem scan_of_lexes {source : Source} {kinds : List Token.Kind}
    (h : Piece.Lexes source.chars kinds) :
    ∃ tokens, scan source = .ok tokens ∧ tokens.map Token.kind = kinds := by
  have houtcomes : Piece.outcomes source.chars = kinds.map Piece.Outcome.token :=
    Piece.outcomes_all h (Nat.le_refl _) 0
  refine ⟨tokens source, scan_eq_ok_iff.2 ⟨?_, rfl⟩, ?_⟩
  · rw [houtcomes, List.forall_mem_map]
    exact fun _ _ _ => nofun
  · rw [kinds_tokens, houtcomes, List.filterMap_map]
    exact List.filterMap_some

end Token

end AnswerSetTest
