import AnswerSetTest.Proofs.Syntax.Lexing

/-!
# Pieces of a text

The first character of a text, and for symbols the one behind it, tells what its first piece is.
What stands behind a token matters only as far as it could continue the token, which white space
and comments never do. So a token is read again wherever the text behind it begins alike, or with
a blank.
-/

namespace AnswerSetTest

theorem byteSize_cons (c : Char) (cs : List Char) :
    byteSize (c :: cs) = c.utf8Size + byteSize cs := rfl

theorem byteSize_append (cs ds : List Char) : byteSize (cs ++ ds) = byteSize cs + byteSize ds := by
  induction cs with
  | nil => exact (Nat.zero_add _).symm
  | cons c cs ih => rw [List.cons_append, byteSize_cons, byteSize_cons, ih, Nat.add_assoc]

theorem byteSize_pos {cs : List Char} (h : cs ≠ []) : 0 < byteSize cs := by
  cases cs with
  | nil => exact absurd rfl h
  | cons c cs => exact Nat.add_pos_left c.utf8Size_pos _

theorem exists_of_byteSize_le {pre post body rest : List Char} (h : pre ++ post = body ++ rest)
    (hsize : byteSize body ≤ byteSize pre) : ∃ pre', pre = body ++ pre' ∧ rest = pre' ++ post := by
  rcases List.append_eq_append_iff.1 h with ⟨ds, rfl, rfl⟩ | ⟨ds, rfl, rfl⟩
  · cases ds with
    | nil => exact ⟨[], by simp, rfl⟩
    | cons d ds =>
      have hpos := byteSize_pos (List.cons_ne_nil d ds)
      rw [byteSize_append] at hsize
      omega
  · exact ⟨ds, rfl, rfl⟩

namespace Piece

variable {c d : Char} {cs body rest taken : List Char} {kind : Token.Kind} {n : Nat}
  {next : Option Char}

/-- The symbol of one or two characters that starts with `c`, if `next` is the character behind
it. -/
def symbol? (c : Char) (next : Option Char) : Option (Token.Kind × Nat) :=
  match c, next with
  | '(', _ => some (.leftParen, 1)
  | ')', _ => some (.rightParen, 1)
  | '{', _ => some (.leftBrace, 1)
  | '}', _ => some (.rightBrace, 1)
  | ',', _ => some (.comma, 1)
  | ';', _ => some (.semicolon, 1)
  | '/', _ => some (.slash, 1)
  | '=', _ => some (.comparison .eq, 1)
  | '.', some '.' => some (.dots, 2)
  | '.', _ => some (.dot, 1)
  | ':', some '-' => some (.implies, 2)
  | ':', _ => some (.colon, 1)
  | '!', some '=' => some (.comparison .ne, 2)
  | '<', some '=' => some (.comparison .le, 2)
  | '<', _ => some (.comparison .lt, 1)
  | '>', some '=' => some (.comparison .ge, 2)
  | '>', _ => some (.comparison .gt, 1)
  | _, _ => none

/-- Only three characters continue a symbol. -/
theorem symbol?_of_not_mem (h : d ∉ ['.', '-', '=']) : symbol? c (some d) = symbol? c none := by
  simp only [List.mem_cons, List.not_mem_nil, or_false, not_or] at h
  obtain ⟨hdot, hminus, heq⟩ := h
  unfold symbol?
  split
  all_goals simp_all

theorem symbol?_cases (h : symbol? c next = some (kind, n)) :
    n = 1 ∧ symbol? c none = some (kind, 1) ∨
    n = 2 ∧ ∃ d, next = some d ∧ symbol? c (some d) = some (kind, 2) := by
  unfold symbol? at h
  split at h
  all_goals cases h
  all_goals first | exact .inl ⟨rfl, rfl⟩ | exact .inr ⟨rfl, _, rfl, rfl⟩

/-- A text in quotes, whose opening quote stands before `cs`. -/
def quotedText (cs : List Char) : Piece :=
  match quoted? cs with
  | some q => ⟨.token (.text (String.ofList q.value)), '"' :: q.taken, q.rest⟩
  | none => ⟨.fault .unterminatedText, '"' :: cs, []⟩

def startsNumber (c : Char) (next : Option Char) : Bool :=
  c.isDigit || (c == '-' && next.any Char.isDigit)

/-- The first piece of a text, by its first two characters. -/
theorem read_eq (c : Char) (cs : List Char) : read c cs =
    if isSpace c then ⟨.blank, [c], cs⟩
    else if c = '%' then comment cs
    else match symbol? c cs.head? with
    | some (kind, n) => ⟨.token kind, c :: cs.take (n - 1), cs.drop (n - 1)⟩
    | none =>
      if c = '"' then quotedText cs
      else if startsNumber c cs.head? then number (c == '-') c cs
      else if c = '@' then sigiled .call c cs
      else if c = '#' then sigiled .directive c cs
      else if c.isAlpha || c == '_' then word c cs
      else ⟨.fault (.unexpectedCharacter c), [c], cs⟩ := by
  unfold read
  split
  -- left are the symbols that a second character could have continued, and what is no symbol
  all_goals first | rfl | skip
  case h_23 =>
    have hsymbol : symbol? c cs.head? = none := by
      cases cs with
      | nil => unfold symbol?; split <;> simp_all
      | cons d cs => unfold symbol?; split <;> simp_all
    have hnumber : startsNumber c cs.head? = c.isDigit := by
      cases cs <;> simp_all [startsNumber]
    have hsign : c.isDigit → number (c == '-') c cs = number false c cs := by
      intro hdigit
      have hc : c ≠ '-' := by rintro rfl; cases hdigit
      rw [beq_eq_false_iff_ne.2 hc]
    rw [if_neg ‹c = '%' → False›, hsymbol, hnumber]
    simp only
    rw [if_neg ‹c = '"' → False›, if_neg ‹c = '@' → False›, if_neg ‹c = '#' → False›]
    by_cases hdigit : c.isDigit
    · rw [if_pos hdigit, if_pos hdigit, hsign hdigit]
    · rw [if_neg hdigit, if_neg hdigit]
  all_goals
    cases cs with
    | nil => rfl
    | cons d cs => simp_all [symbol?, isSpace]

theorem read_of_symbol (h : symbol? c cs.head? = some (kind, n)) :
    read c cs = ⟨.token kind, c :: cs.take (n - 1), cs.drop (n - 1)⟩ := by
  have hspace : ¬ isSpace c := by
    intro hspace
    rcases eq_or_of_isSpace hspace with rfl | rfl | rfl | rfl | rfl <;> cases h
  have hcomment : c ≠ '%' := by
    rintro rfl
    cases h
  rw [read_eq, if_neg hspace, if_neg hcomment, h]

theorem read_of_startsNumber (h : startsNumber c cs.head?) :
    read c cs = number (c == '-') c cs := by
  rw [startsNumber, Bool.or_eq_true, Bool.and_eq_true, beq_iff_eq] at h
  rcases h with hdigit | ⟨rfl, hnext⟩
  · have hc : c ≠ '-' := by rintro rfl; cases hdigit
    rw [read_of_isWordChar (isWordChar_of_isDigit hdigit), if_pos hdigit, beq_eq_false_iff_ne.2 hc]
  · cases cs with
    | nil => cases hnext
    | cons d cs => exact if_pos hnext

section Blanks

def Separates (d : Char) : Prop := isSpace d ∨ d = '%'

/-- White space and comments, each with the text behind it: a line comment extends to the end of
its line, a block comment to the first `*%`. -/
inductive Blank : List Char → List Char → Prop
  | space {c : Char} (h : isSpace c) (rest : List Char) : Blank [c] rest
  | line {body rest : List Char} (hstar : body.head? ≠ some '*') (hfeed : '\n' ∉ body)
    (hrest : ∀ d ∈ rest.head?, d = '\n') : Blank ('%' :: body) rest
  | block {body : List Char} (h : ¬ ['*', '%'] <:+: body) (rest : List Char) :
    Blank ('%' :: '*' :: (body ++ ['*', '%'])) rest

theorem blockComment?_cons (h : ∀ ds, c = '*' → cs = '%' :: ds → False) :
    blockComment? (c :: cs) = (blockComment? cs).map fun p => (c :: p.1, p.2) := by
  rw [blockComment?]
  exact h

theorem blockComment?_append (h : ¬ ['*', '%'] <:+: body) (rest : List Char) :
    blockComment? (body ++ ['*', '%'] ++ rest) = some (body ++ ['*', '%'], rest) := by
  induction body with
  | nil => rfl
  | cons c body ih =>
    rw [List.infix_cons_iff, not_or] at h
    have hopen : ∀ ds, c = '*' → body ++ ['*', '%'] ++ rest = '%' :: ds → False := by
      rintro ds rfl hds
      cases body with
      | nil => cases hds
      | cons d body =>
        cases hds
        exact h.1 ⟨body, rfl⟩
    rw [List.cons_append, List.cons_append, blockComment?_cons hopen, ih h.2]
    rfl

theorem exists_of_blockComment? {cs : List Char}
    (h : blockComment? cs = some (taken, rest)) :
    ∃ body, taken = body ++ ['*', '%'] ∧ cs = taken ++ rest ∧ ¬ ['*', '%'] <:+: body := by
  induction cs using blockComment?.induct generalizing taken with
  | case1 => cases h
  | case2 cs =>
    cases h
    exact ⟨[], rfl, rfl, by simp⟩
  | case3 c cs hopen ih =>
    rw [blockComment?_cons hopen] at h
    obtain ⟨⟨taken', rest'⟩, hcs, htaken⟩ := Option.map_eq_some_iff.1 h
    cases htaken
    obtain ⟨body, rfl, rfl, hbody⟩ := ih hcs
    refine ⟨c :: body, rfl, rfl, ?_⟩
    rw [List.infix_cons_iff, not_or]
    refine ⟨?_, hbody⟩
    rintro ⟨ds, hds⟩
    cases body with
    | nil => cases hds
    | cons d body =>
      cases hds
      exact hopen _ rfl rfl

theorem comment_of_head? (h : cs.head? ≠ some '*') :
    comment cs = ⟨.blank, '%' :: cs.takeWhile (· != '\n'), cs.dropWhile (· != '\n')⟩ := by
  unfold comment
  split
  · exact absurd rfl h
  · rfl

theorem Blank.read_append (h : Blank (c :: body) rest) :
    read c (body ++ rest) = ⟨.blank, c :: body, rest⟩ := by
  cases h with
  | space h =>
    rw [read_eq, if_pos h]
    rfl
  | line hstar hfeed hrest =>
    obtain ⟨htake, hdrop⟩ := takeWhile_append_of_head? (p := (· != '\n'))
      (fun d hd => bne_iff_ne.2 fun h => hfeed (h ▸ hd))
      (fun d hd => by rw [hrest d hd]; rfl)
    have hhead : (body ++ rest).head? ≠ some '*' := by
      cases body with
      | nil =>
        intro h
        cases hrest _ h
      | cons d body => exact hstar
    have hread : read '%' (body ++ rest) = comment (body ++ rest) := rfl
    rw [hread, comment_of_head? hhead, htake, hdrop]
  | @block body h =>
    have hread : read '%' ('*' :: (body ++ ['*', '%']) ++ rest) =
        comment ('*' :: (body ++ ['*', '%'] ++ rest)) := rfl
    rw [hread]
    simp only [comment, blockComment?_append h rest]

end Blanks

/-- What stands behind a piece still ends it: it begins like the text that was there, or with a
blank. -/
def Follows (rest rest' : List Char) : Prop :=
  rest'.head? = rest.head? ∨ ∀ d ∈ rest'.head?, Separates d

/-- The first piece of a text is `c` and `body`. If it is a token, it stays one wherever the rest
of the text changes to something that still ends it. -/
inductive Cut (c : Char) (body rest : List Char) : Piece → Prop
  | blank (h : Blank (c :: body) rest) : Cut c body rest ⟨.blank, c :: body, rest⟩
  | token {kind : Token.Kind} (h : ∀ rest', Follows rest rest' →
      read c (body ++ rest') = ⟨.token kind, c :: body, rest'⟩) :
    Cut c body rest ⟨.token kind, c :: body, rest⟩
  | fault (problem : Problem) : Cut c body rest ⟨.fault problem, c :: body, rest⟩

theorem cut_comment (cs : List Char) :
    ∃ body rest, cs = body ++ rest ∧ Cut '%' body rest (comment cs) := by
  by_cases hstar : cs.head? = some '*'
  · obtain ⟨cs, rfl⟩ := List.head?_eq_some_iff.1 hstar
    cases hcs : blockComment? cs with
    | none =>
      refine ⟨'*' :: cs, [], (List.append_nil _).symm, ?_⟩
      simp only [comment, hcs]
      exact .fault _
    | some p =>
      obtain ⟨taken, rest⟩ := p
      obtain ⟨body, rfl, rfl, hbody⟩ := exists_of_blockComment? hcs
      refine ⟨'*' :: (body ++ ['*', '%']), rest, rfl, ?_⟩
      simp only [comment, hcs]
      exact .blank (.block hbody rest)
  · obtain ⟨body, rest, rfl, hbody, hrest⟩ := exists_takeWhile (· != '\n') cs
    obtain ⟨htake, hdrop⟩ := takeWhile_append_of_head? hbody hrest
    rw [comment_of_head? hstar, htake, hdrop]
    refine ⟨body, rest, rfl, .blank (.line ?_ ?_ ?_)⟩
    · cases body with
      | nil => exact nofun
      | cons d body => exact hstar
    · exact fun h => absurd (hbody _ h) (by decide)
    · exact fun d hd => by simpa using hrest d hd

theorem symbol?_of_separates (h : Separates d) : symbol? c (some d) = symbol? c none := by
  refine symbol?_of_not_mem fun hmem => ?_
  simp only [List.mem_cons, List.not_mem_nil, or_false] at hmem
  rcases hmem with rfl | rfl | rfl <;> rcases h with h | h <;> cases h

theorem cut_symbol (h : symbol? c cs.head? = some (kind, n)) :
    ∃ body rest, cs = body ++ rest ∧
      Cut c body rest ⟨.token kind, c :: cs.take (n - 1), cs.drop (n - 1)⟩ := by
  rcases symbol?_cases h with ⟨rfl, hnone⟩ | ⟨rfl, d, hnext, hsome⟩
  · refine ⟨[], cs, rfl, .token fun rest' hrest' => read_of_symbol (n := 1) ?_⟩
    rcases hrest' with hhead | hseparates
    · rw [List.nil_append, hhead, h]
    · cases rest' with
      | nil => exact hnone
      | cons d rest' => exact (symbol?_of_separates (hseparates d rfl)).trans hnone
  · obtain ⟨rest, rfl⟩ := List.head?_eq_some_iff.1 hnext
    exact ⟨[d], rest, rfl, .token fun rest' _ => read_of_symbol (n := 2) hsome⟩

/-- A backslash at the end of a text stands for itself, and any other escapes a character. -/
theorem ne_backslash (hlast : c = '\\' → cs = [] → False)
    (hescape : ∀ d ds, c = '\\' → cs = d :: ds → False) : c ≠ '\\' := by
  intro hc
  cases cs with
  | nil => exact hlast hc rfl
  | cons d cs => exact hescape d cs hc rfl

theorem quoted?_cons (hquote : c ≠ '"') (hbackslash : c ≠ '\\') (cs : List Char) :
    quoted? (c :: cs) = (quoted? cs).map fun q => ⟨c :: q.value, c :: q.taken, q.rest⟩ := by
  rw [quoted?]
  · exact hquote
  · exact fun h => absurd h hbackslash
  · exact fun _ _ h => absurd h hbackslash

theorem quoted?_append {q : Quoted} (h : quoted? cs = some q) :
    cs = q.taken ++ q.rest ∧ ∀ rest, quoted? (q.taken ++ rest) = some ⟨q.value, q.taken, rest⟩ := by
  induction cs using quoted?.induct generalizing q with
  | case1 => cases h
  | case2 cs =>
    cases h
    exact ⟨rfl, fun _ => rfl⟩
  | case3 => cases h
  | case4 c cs ih =>
    obtain ⟨q, hq, rfl⟩ := Option.map_eq_some_iff.1 h
    obtain ⟨rfl, hread⟩ := ih hq
    refine ⟨rfl, fun rest => ?_⟩
    simp only [List.cons_append, quoted?, hread, Option.map_some]
  | case5 c cs hquote hlast hescape ih =>
    have hbackslash := ne_backslash hlast hescape
    rw [quoted?_cons hquote hbackslash] at h
    obtain ⟨q, hq, rfl⟩ := Option.map_eq_some_iff.1 h
    obtain ⟨rfl, hread⟩ := ih hq
    refine ⟨rfl, fun rest => ?_⟩
    rw [List.cons_append, quoted?_cons hquote hbackslash, hread]
    rfl

theorem cut_quotedText (cs : List Char) :
    ∃ body rest, cs = body ++ rest ∧ Cut '"' body rest (quotedText cs) := by
  cases hcs : quoted? cs with
  | none =>
    refine ⟨cs, [], (List.append_nil cs).symm, ?_⟩
    simp only [quotedText, hcs]
    exact .fault _
  | some q =>
    obtain ⟨rfl, hread⟩ := quoted?_append hcs
    refine ⟨q.taken, q.rest, rfl, ?_⟩
    simp only [quotedText, hcs]
    refine .token fun rest' _ => ?_
    have hquoted : read '"' (q.taken ++ rest') = quotedText (q.taken ++ rest') := rfl
    simp only [hquoted, quotedText, hread]

theorem isWordChar_of_letter (h : c.isAlpha ∨ c = '_') : isWordChar c := by
  rcases h with h | rfl
  · simp [isWordChar, Char.isAlphanum, h]
  · rfl

theorem isWordChar_of_separates (h : Separates d) : isWordChar d = false := by
  rcases h with h | rfl
  · rcases eq_or_of_isSpace h with rfl | rfl | rfl | rfl | rfl <;> rfl
  · rfl

/-- A scan for digits, or for letters, digits and underscores, ends where it ended. -/
theorem Cut.of_scan {p : Char → Bool} (hp : ∀ d, p d → isWordChar d)
    (hrest : ∀ d ∈ rest.head?, p d = false)
    (h : ∀ rest', (∀ d ∈ rest'.head?, p d = false) →
      read c (body ++ rest') = ⟨.token kind, c :: body, rest'⟩) :
    Cut c body rest ⟨.token kind, c :: body, rest⟩ := by
  refine .token fun rest' hrest' => h rest' ?_
  rcases hrest' with hhead | hseparates
  · rw [hhead]
    exact hrest
  · intro d hd
    exact eq_false_of_isWordChar hp (isWordChar_of_separates (hseparates d hd))

theorem cut_number (h : startsNumber c cs.head?) :
    ∃ body rest, cs = body ++ rest ∧ Cut c body rest (number (c == '-') c cs) := by
  obtain ⟨body, rest, rfl, hbody, hrest⟩ := exists_takeWhile Char.isDigit cs
  refine ⟨body, rest, rfl, ?_⟩
  have hnumber (rest' : List Char) (hrest' : ∀ d ∈ rest'.head?, d.isDigit = false) :
      number (c == '-') c (body ++ rest') =
        (integer? (c == '-') (if c == '-' then (c :: body).drop 1 else c :: body)).elim
          ⟨.fault (.integerOutOfRange (String.ofList (c :: body))), c :: body, rest'⟩
          fun n => ⟨.token (.number n), c :: body, rest'⟩ := by
    obtain ⟨htake, hdrop⟩ := takeWhile_append_of_head? hbody hrest'
    simp only [number, htake, hdrop]
    cases integer? (c == '-') (if c == '-' then (c :: body).drop 1 else c :: body) <;> rfl
  have hstarts (rest' : List Char) : startsNumber c (body ++ rest').head? := by
    cases body with
    | nil =>
      have hnext : rest.head?.any Char.isDigit = false := by
        cases rest with
        | nil => rfl
        | cons d rest => exact hrest d rfl
      rw [List.nil_append, startsNumber, hnext, Bool.and_false, Bool.or_false] at h
      rw [startsNumber, h, Bool.true_or]
    | cons d body => exact h
  rw [hnumber rest hrest]
  cases hn : integer? (c == '-') (if c == '-' then (c :: body).drop 1 else c :: body) with
  | none => exact .fault _
  | some n =>
    refine .of_scan (fun d => isWordChar_of_isDigit) hrest fun rest' hrest' => ?_
    rw [read_of_startsNumber (hstarts rest'), hnumber rest' hrest', hn, Option.elim_some]

theorem cut_sigiled {kind : String → Token.Kind} (h : ∀ cs, read c cs = sigiled kind c cs)
    (cs : List Char) : ∃ body rest, cs = body ++ rest ∧ Cut c body rest (sigiled kind c cs) := by
  obtain ⟨body, rest, rfl, hbody, hrest⟩ := exists_takeWhile isWordChar cs
  have hsigiled (rest' : List Char) (hrest' : ∀ d ∈ rest'.head?, isWordChar d = false) :
      sigiled kind c (body ++ rest') =
        if body.isEmpty then ⟨.fault (.missingName c), [c], rest'⟩
        else ⟨.token (kind (String.ofList body)), c :: body, rest'⟩ := by
    obtain ⟨htake, hdrop⟩ := takeWhile_append_of_head? hbody hrest'
    simp only [sigiled, htake, hdrop]
  refine ⟨body, rest, rfl, ?_⟩
  rw [hsigiled rest hrest]
  cases body with
  | nil => exact .fault _
  | cons d body =>
    exact .of_scan (fun d => id) hrest fun rest' hrest' => by rw [h, hsigiled rest' hrest']; rfl

theorem cut_word (h : ∀ cs, read c cs = word c cs) (cs : List Char) :
    ∃ body rest, cs = body ++ rest ∧ Cut c body rest (word c cs) := by
  obtain ⟨body, rest, rfl, hbody, hrest⟩ := exists_takeWhile isWordChar cs
  obtain ⟨htake, hdrop⟩ := takeWhile_append_of_head? hbody hrest
  refine ⟨body, rest, rfl, ?_⟩
  simp only [word, htake, hdrop]
  refine .of_scan (fun d => id) hrest fun rest' hrest' => ?_
  obtain ⟨htake', hdrop'⟩ := takeWhile_append_of_head? hbody hrest'
  simp only [h, word, htake', hdrop']

/-- Every text starts with a blank, with a token that does not depend on what follows, or with a
fault. -/
theorem cut_read (c : Char) (cs : List Char) :
    ∃ body rest, cs = body ++ rest ∧ Cut c body rest (read c cs) := by
  rw [read_eq]
  split
  · next h => exact ⟨[], cs, rfl, .blank (.space h cs)⟩
  split
  · next h =>
    subst h
    exact cut_comment cs
  split
  · next h => exact cut_symbol h
  split
  · next h =>
    subst h
    exact cut_quotedText cs
  split
  · next h => exact cut_number h
  split
  · next h =>
    subst h
    exact cut_sigiled (fun _ => rfl) cs
  split
  · next h =>
    subst h
    exact cut_sigiled (fun _ => rfl) cs
  split
  · next hnumber _ _ h =>
    have hdigit : ¬ c.isDigit := by
      intro hdigit
      rw [startsNumber, hdigit, Bool.true_or] at hnumber
      exact hnumber rfl
    have hword : isWordChar c := isWordChar_of_letter (by simpa using h)
    refine cut_word (fun cs => ?_) cs
    rw [read_of_isWordChar hword, if_neg hdigit]
  · exact ⟨[], cs, rfl, .fault _⟩

theorem Cut.eq_mk {piece : Piece} (h : Cut c body rest piece) :
    piece = ⟨piece.outcome, c :: body, rest⟩ := by
  cases h <;> rfl

theorem text_induction {P : List Char → Prop} (nil : P [])
    (cut : ∀ c body rest outcome, read c (body ++ rest) = ⟨outcome, c :: body, rest⟩ →
      Cut c body rest ⟨outcome, c :: body, rest⟩ → P rest → P (c :: (body ++ rest)))
    (cs : List Char) : P cs := by
  induction hlength : cs.length using Nat.strongRecOn generalizing cs with
  | ind n ih =>
    cases cs with
    | nil => exact nil
    | cons c cs =>
      obtain ⟨body, rest, rfl, hcut⟩ := cut_read c cs
      refine cut c body rest _ hcut.eq_mk (hcut.eq_mk ▸ hcut) (ih rest.length ?_ rest rfl)
      simp only [← hlength, List.length_cons, List.length_append]
      omega

/-- The pieces of a text do not depend on the limit if it is at least the length of the text. -/
theorem all_of_length_le {cs : List Char} (h : cs.length ≤ n) (offset : Nat) :
    all n offset cs = all cs.length offset cs := by
  induction cs using text_induction generalizing n offset with
  | nil => cases n <;> rfl
  | cut c body rest outcome hread _ ih =>
    rw [List.length_cons, List.length_append] at h
    obtain ⟨n, rfl⟩ : ∃ m, n = m + 1 := Nat.exists_eq_add_one_of_ne_zero (by omega)
    simp only [List.length_cons, all, hread]
    rw [ih (n := n) (by omega), ih (n := (body ++ rest).length) (by simp)]

theorem all_cut {outcome : Outcome} (hread : read c (body ++ rest) = ⟨outcome, c :: body, rest⟩)
    (offset : Nat) :
    all (c :: (body ++ rest)).length offset (c :: (body ++ rest)) =
      (offset, ⟨outcome, c :: body, rest⟩) ::
        all rest.length (offset + byteSize (c :: body)) rest := by
  simp only [List.length_cons, all, hread]
  rw [all_of_length_le (by simp)]

end Piece

end AnswerSetTest
