import AnswerSetTest.Proofs.Syntax.Pieces
import AnswerSetTest.Proofs.Syntax.Recovery

/-!
# Spacing

White space and comments may be inserted between the tokens of a text. The text behind a piece is
read as it stands, whatever the piece is. So an insertion leaves the pieces before it, if it still
ends the last of them, adds blanks, and leaves the pieces behind it. The program is the same up to
spans.
-/

namespace AnswerSetTest

namespace Piece

variable {c : Char} {body rest pre post gap taken : List Char}

theorem map_outcome_all (n offset : Nat) (cs : List Char) :
    (all n offset cs).map (fun p => p.2.outcome) = (all n 0 cs).map fun p => p.2.outcome := by
  induction n generalizing offset cs with
  | zero => rfl
  | succ n ih =>
    cases cs with
    | nil => rfl
    | cons c cs =>
      simp only [all, List.map_cons]
      rw [ih, ih (0 + _)]

theorem outcomes_cut {outcome : Outcome}
    (hread : read c (body ++ rest) = ⟨outcome, c :: body, rest⟩) :
    outcomes (c :: (body ++ rest)) = outcome :: outcomes rest := by
  rw [outcomes, all_cut hread, List.map_cons, map_outcome_all, outcomes]

theorem Blank.outcomes_append (h : Blank taken rest) :
    outcomes (taken ++ rest) = .blank :: outcomes rest := by
  cases taken with
  | nil => cases h
  | cons c body => exact outcomes_cut h.read_append

def IsLineComment (taken : List Char) : Prop :=
  taken.head? = some '%' ∧ taken.tail.head? ≠ some '*'

/-- Byte `k` stands before or behind each of the pieces, and not at the end of a line comment. -/
def Between (k : Nat) (pieces : List (Nat × Piece)) : Prop :=
  ∀ p ∈ pieces, (k ≤ p.1 ∨ p.1 + byteSize p.2.taken ≤ k) ∧
    (IsLineComment p.2.taken → k ≠ p.1 + byteSize p.2.taken)

instance (taken : List Char) : Decidable (IsLineComment taken) :=
  inferInstanceAs (Decidable (_ ∧ _))

instance (k : Nat) (pieces : List (Nat × Piece)) : Decidable (Between k pieces) :=
  inferInstanceAs (Decidable (∀ p ∈ pieces, _))

/-- White space, a line comment with the end of its line, or a block comment. -/
inductive Gap : List Char → Prop
  | spaces {c : Char} {cs : List Char} (h : ∀ d ∈ c :: cs, isSpace d) : Gap (c :: cs)
  | line {body : List Char} (hstar : body.head? ≠ some '*') (hfeed : '\n' ∉ body) :
    Gap ('%' :: (body ++ ['\n']))
  | block {body : List Char} (h : ¬ ['*', '%'] <:+: body) :
    Gap ('%' :: '*' :: (body ++ ['*', '%']))

theorem outcomes_spaces {spaces : List Char} (h : ∀ c ∈ spaces, isSpace c) (post : List Char) :
    outcomes (spaces ++ post) = List.replicate spaces.length .blank ++ outcomes post := by
  induction spaces with
  | nil => rfl
  | cons c spaces ih =>
    rw [List.forall_mem_cons] at h
    have hspace := (Blank.space h.1 (spaces ++ post)).outcomes_append
    rw [List.singleton_append] at hspace
    rw [List.cons_append, hspace, ih h.2]
    rfl

/-- A gap before a text is cut into blanks. -/
theorem Gap.outcomes_append (h : Gap gap) (post : List Char) :
    ∃ n, outcomes (gap ++ post) = List.replicate n .blank ++ outcomes post := by
  cases h with
  | spaces h => exact ⟨_, outcomes_spaces h post⟩
  | @line body hstar hfeed =>
    have hline : Blank ('%' :: body) ('\n' :: post) :=
      .line hstar hfeed fun d hd => (Option.some.inj hd).symm
    have hspace : Blank ['\n'] post := .space rfl post
    refine ⟨2, ?_⟩
    rw [List.cons_append, List.append_assoc, ← List.cons_append, List.singleton_append,
      hline.outcomes_append]
    exact congrArg _ hspace.outcomes_append
  | block h => exact ⟨1, (Blank.block h post).outcomes_append⟩

theorem Gap.separates (h : Gap gap) (post : List Char) :
    ∀ d ∈ (gap ++ post).head?, Separates d := by
  intro d hd
  cases h with
  | spaces h =>
    cases hd
    exact .inl (h _ List.mem_cons_self)
  | line =>
    cases hd
    exact .inr rfl
  | block =>
    cases hd
    exact .inr rfl

theorem Cut.read_append {outcome : Outcome} {rest' : List Char}
    (h : Cut c body rest ⟨outcome, c :: body, rest⟩) (hok : ∀ problem, outcome ≠ .fault problem)
    (hline : IsLineComment (c :: body) → rest'.head? = rest.head?) (hrest : Follows rest rest') :
    read c (body ++ rest') = ⟨outcome, c :: body, rest'⟩ := by
  cases h with
  | blank h =>
    apply Blank.read_append
    cases h with
    | space h => exact .space h rest'
    | block h => exact .block h rest'
    | line hstar hfeed hend =>
      refine .line hstar hfeed ?_
      rw [hline ⟨rfl, hstar⟩]
      exact hend
  | token h => exact h rest' hrest
  | fault problem => exact absurd rfl (hok problem)

/-- The pieces before a place do not change when what stands behind it changes to a text that
starts with a blank. -/
theorem outcomes_of_between {cs : List Char} (hcs : cs = pre ++ post) {offset : Nat}
    (hbetween : Between (offset + byteSize pre) (all cs.length offset cs))
    (hok : ∀ o ∈ outcomes cs, ∀ problem, o ≠ .fault problem) :
    ∃ os, outcomes cs = os ++ outcomes post ∧
      ∀ post', (∀ d ∈ post'.head?, Separates d) →
        outcomes (pre ++ post') = os ++ outcomes post' := by
  induction cs using text_induction generalizing pre offset with
  | nil =>
    obtain ⟨rfl, rfl⟩ := List.append_eq_nil_iff.1 hcs.symm
    exact ⟨[], rfl, fun _ _ => rfl⟩
  | cut c body rest outcome hread hcut ih =>
    by_cases hpre : pre = []
    · subst hpre
      exact ⟨[], by rw [hcs]; rfl, fun _ _ => rfl⟩
    rw [all_cut hread] at hbetween
    rw [outcomes_cut hread, List.forall_mem_cons] at hok
    obtain ⟨⟨hout, hline⟩, hbehind⟩ := List.forall_mem_cons.1 hbetween
    have hpos := byteSize_pos hpre
    simp only at hout hline
    have hsize : byteSize (c :: body) ≤ byteSize pre := by omega
    obtain ⟨pre', rfl, rfl⟩ := exists_of_byteSize_le (hcs.symm.trans rfl) hsize
    rw [byteSize_append, ← Nat.add_assoc] at hbehind hline
    obtain ⟨os, hos, hpost⟩ := ih rfl hbehind hok.2
    refine ⟨outcome :: os, by rw [outcomes_cut hread, hos]; rfl, fun post' hpost' => ?_⟩
    have hread' : read c (body ++ (pre' ++ post')) = ⟨outcome, c :: body, pre' ++ post'⟩ := by
      refine hcut.read_append hok.1 ?_ ?_
      · intro hcomment
        have hne : pre' ≠ [] := by
          rintro rfl
          exact hline hcomment rfl
        rw [List.head?_append_of_ne_nil _ hne, List.head?_append_of_ne_nil _ hne]
      · cases pre' with
        | nil => exact .inr hpost'
        | cons d pre' => exact .inl rfl
    rw [List.append_assoc, List.cons_append, outcomes_cut hread', hpost post' hpost']
    rfl

/-- A gap between the pieces of a text adds blanks to them. -/
theorem outcomes_insert (hgap : Gap gap)
    (hbetween : Between (byteSize pre) (all (pre ++ post).length 0 (pre ++ post)))
    (hok : ∀ o ∈ outcomes (pre ++ post), ∀ problem, o ≠ .fault problem) :
    ∃ os n, outcomes (pre ++ post) = os ++ outcomes post ∧
      outcomes (pre ++ gap ++ post) = os ++ (List.replicate n .blank ++ outcomes post) := by
  rw [← Nat.zero_add (byteSize pre)] at hbetween
  obtain ⟨os, hos, hpost⟩ := outcomes_of_between rfl hbetween hok
  obtain ⟨n, hn⟩ := hgap.outcomes_append post
  refine ⟨os, n, hos, ?_⟩
  rw [List.append_assoc, hpost _ (hgap.separates post), hn]

end Piece

namespace Token

theorem scan_of_outcomes {source : Source} (source' : Source) {ts : List Token}
    {os os' : List Piece.Outcome} {n : Nat} (hos : Piece.outcomes source.chars = os ++ os')
    (hos' : Piece.outcomes source'.chars = os ++ (List.replicate n .blank ++ os'))
    (h : scan source = .ok ts) :
    ∃ ts', scan source' = .ok ts' ∧ ts'.map Token.kind = ts.map Token.kind := by
  obtain ⟨hok, rfl⟩ := scan_eq_ok_iff.1 h
  refine ⟨tokens source', scan_eq_ok_iff.2 ⟨?_, rfl⟩, ?_⟩
  · rw [hos, List.forall_mem_append] at hok
    rw [hos', List.forall_mem_append, List.forall_mem_append]
    refine ⟨hok.1, fun o ho => ?_, hok.2⟩
    rw [(List.mem_replicate.1 ho).2]
    exact nofun
  · rw [kinds_tokens, kinds_tokens, hos, hos', List.filterMap_append, List.filterMap_append,
      List.filterMap_append, List.filterMap_replicate_of_none rfl, List.nil_append]

end Token

namespace Program

def unspanned (p : Program) : Program :=
  { p with statements := p.statements.map Statement.unspanned }

def unspannedResult : Except (List Diagnostic) Program → Except (List Diagnostic) Program
  | .ok p => .ok p.unspanned
  | .error ds => .error (ds.map Diagnostic.unspanned)

theorem unspannedResult_ofOutcomes (name : String) (outcomes : List (Except Diagnostic Statement)) :
    unspannedResult (ofOutcomes name outcomes) =
      ofOutcomes name (outcomes.map Statement.unspannedOutcome) := by
  induction outcomes with
  | nil => rfl
  | cons o outcomes ih =>
    rw [List.map_cons]
    cases o with
    | ok statement =>
      rw [Statement.unspannedOutcome, ofOutcomes_cons_ok, ofOutcomes_cons_ok, ← ih]
      cases ofOutcomes name outcomes <;> rfl
    | error d =>
      rw [Statement.unspannedOutcome]
      cases hos : ofOutcomes name outcomes with
      | ok p =>
        rw [hos] at ih
        rw [ofOutcomes_cons_error_of_ok d hos, ofOutcomes_cons_error_of_ok d.unspanned ih.symm]
        rfl
      | error ds =>
        rw [hos] at ih
        rw [ofOutcomes_cons_error_of_error d hos,
          ofOutcomes_cons_error_of_error d.unspanned ih.symm]
        rfl

theorem unspannedResult_ofTokens {source source' : Source} {tokens tokens' : List Token}
    (hfile : source'.file = source.file) (h : tokens'.map Token.kind = tokens.map Token.kind) :
    unspannedResult (ofTokens source' tokens') = unspannedResult (ofTokens source tokens) := by
  have hlength : tokens'.length = tokens.length := by simpa using congrArg List.length h
  rw [ofTokens, ofTokens, unspannedResult_ofOutcomes, unspannedResult_ofOutcomes,
    Statement.readAll, Statement.readAll, hlength, hfile, Statement.unspanned_readUpTo _ _ h]

/-- White space and comments between the tokens of a program do not change it. -/
theorem parse_insert {pre gap post : String} {file : Option String} {tokens : List Token}
    (hscan : Token.scan ⟨(pre ++ post).toList, file⟩ = .ok tokens)
    (hbetween : Piece.Between (byteSize pre.toList) (Token.pieces ⟨(pre ++ post).toList, file⟩))
    (hgap : Piece.Gap gap.toList) :
    (∃ tokens', Token.scan ⟨(pre ++ gap ++ post).toList, file⟩ = .ok tokens' ∧
      tokens'.map Token.kind = tokens.map Token.kind) ∧
    unspannedResult (parse (pre ++ gap ++ post) file) =
      unspannedResult (parse (pre ++ post) file) := by
  have hok := (Token.scan_eq_ok_iff.1 hscan).1
  simp only [Token.pieces, String.toList_append] at hbetween hok
  obtain ⟨os, n, hos, hinsert⟩ := Piece.outcomes_insert hgap hbetween hok
  simp only [← String.toList_append] at hos hinsert
  obtain ⟨tokens', hscan', hkinds⟩ :=
    Token.scan_of_outcomes ⟨(pre ++ gap ++ post).toList, file⟩ hos hinsert hscan
  refine ⟨⟨tokens', hscan', hkinds⟩, ?_⟩
  simp only [parse, hscan, hscan']
  exact unspannedResult_ofTokens rfl hkinds

/-- A comment with a dot and a per cent sign in it, between two tokens that nothing separates. -/
theorem parse_insert_comment :
    Token.scan ⟨("p:-" ++ "q.% r\n").toList, none⟩ = .ok [⟨.identifier "p", 0, 1⟩,
      ⟨.implies, 1, 3⟩, ⟨.identifier "q", 3, 4⟩, ⟨.dot, 4, 5⟩] ∧
    Piece.Between (byteSize "p:-".toList) (Token.pieces ⟨("p:-" ++ "q.% r\n").toList, none⟩) ∧
    Piece.Gap "%* é. % *%".toList ∧
    (∃ tokens', Token.scan ⟨("p:-" ++ "%* é. % *%" ++ "q.% r\n").toList, none⟩ = .ok tokens' ∧
      tokens'.map Token.kind = [.identifier "p", .implies, .identifier "q", .dot]) ∧
    unspannedResult (parse ("p:-" ++ "%* é. % *%" ++ "q.% r\n") none) =
      unspannedResult (parse ("p:-" ++ "q.% r\n") none) := by
  have hscan : Token.scan ⟨("p:-" ++ "q.% r\n").toList, none⟩ = .ok [⟨.identifier "p", 0, 1⟩,
      ⟨.implies, 1, 3⟩, ⟨.identifier "q", 3, 4⟩, ⟨.dot, 4, 5⟩] := rfl
  have hbetween : Piece.Between (byteSize "p:-".toList)
      (Token.pieces ⟨("p:-" ++ "q.% r\n").toList, none⟩) := by decide +kernel
  have hgap : Piece.Gap "%* é. % *%".toList :=
    @Piece.Gap.block " é. % ".toList (by decide)
  exact ⟨hscan, hbetween, hgap, parse_insert hscan hbetween hgap⟩

end Program

end AnswerSetTest
