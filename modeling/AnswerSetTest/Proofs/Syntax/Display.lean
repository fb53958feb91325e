import AnswerSetTest.Proofs.Symbol.Order
import AnswerSetTest.Proofs.Syntax.Lexing
import AnswerSetTest.Proofs.Syntax.Recovery

/-!
# Reading symbols back

The text of a symbol is read as the term that stands for the symbol. The exception is a tuple of
one, whose text ends in a comma that no term may have.
-/

namespace AnswerSetTest

open Reading Sides

def Token.bare (kind : Token.Kind) : Token := ⟨kind, 0, 0⟩

theorem take?_bare (kind : Token.Kind) (source : Source) (last : Option Token)
    (rest : List Token) : take? kind source ⟨last, .bare kind :: rest⟩ =
      (.ok true, ⟨some (.bare kind), rest⟩) :=
  take?_of_eq source last rest rfl

theorem take?_bare_of_ne {kind kind' : Token.Kind} (h : kind' ≠ kind) (source : Source)
    (last : Option Token) (rest : List Token) :
    take? kind source ⟨last, .bare kind' :: rest⟩ = (.ok false, ⟨last, .bare kind' :: rest⟩) :=
  take?_of_ne source last rest h

theorem expect_of_eq {kind : Token.Kind} (what : String) (source : Source) (last : Option Token)
    {t : Token} (rest : List Token) (h : t.kind = kind) :
    expect kind what source ⟨last, t :: rest⟩ = (.ok (), ⟨some t, rest⟩) := by
  rw [expect, bind_eq_of_ok (take?_of_eq source last rest h)]
  rfl

theorem expect_bare (kind : Token.Kind) (what : String) (source : Source) (last : Option Token)
    (rest : List Token) : expect kind what source ⟨last, .bare kind :: rest⟩ =
      (.ok (), ⟨some (.bare kind), rest⟩) :=
  expect_of_eq what source last rest rfl

theorem next?_bare (kind : Token.Kind) (source : Source) (last : Option Token)
    (rest : List Token) : next? source ⟨last, .bare kind :: rest⟩ =
      (.ok (some kind), ⟨last, .bare kind :: rest⟩) :=
  rfl

theorem separated_apply {α : Type} (separator : Reading Bool) (item : Reading α) (source : Source)
    (c : Cursor) : separated separator item source c =
      separatedUpTo separator item c.rest.length source c :=
  rfl

def Term.readArguments (term : Reading Term) : Reading (List Term) := do
  match ← next? with
  | some .rightParen | some .semicolon => return []
  | _ => separated (take? .comma) term

theorem Term.readAlternatives_eq (term : Reading Term) :
    readAlternatives term = separated (take? .semicolon) (readArguments term) :=
  rfl

namespace Symbol

mutual

theorem value?_ofSymbol : (s : Symbol) → (Term.ofSymbol s).value? = some s
  | .number n => rfl
  | .text s => rfl
  | .function name args => by
    rw [Term.ofSymbol, Term.value?, values?_ofSymbols args, Option.map_some]

theorem values?_ofSymbols : (ss : List Symbol) → Term.values? (Term.ofSymbols ss) = some ss
  | [] => rfl
  | s :: ss => by
    rw [Term.ofSymbols, Term.values?, value?_ofSymbol s, values?_ofSymbols ss]

end

theorem EachFunction.mono {P Q : String → List Symbol → Prop} {s : Symbol} (h : s.EachFunction P)
    (hPQ : ∀ name args, P name args → Q name args) : s.EachFunction Q := by
  induction h with
  | number n => exact .number n
  | text s => exact .text s
  | function h _ ih => exact .function (hPQ _ _ h) ih

/-- No tuple in a symbol has just one element. -/
def NoSingleton (s : Symbol) : Prop :=
  s.EachFunction fun name args => name = "" → args.length ≠ 1

def Ends (kind : Token.Kind) : Prop := kind = .comma ∨ kind = .rightParen ∨ kind = .dot

/-- A token behind which a list of arguments is not empty. -/
def begins : Token.Kind → Bool
  | .rightParen | .semicolon => false
  | _ => true

/-- From the tokens of `s` in front of one that may stand behind a term, `x` reads the term that
stands for `s`. -/
def ReadBy (source : Source) (x : Reading Term) (s : Symbol) : Prop :=
  ∀ last kind rest, Ends kind → ∃ last',
    x source ⟨last, s.spelling.map Token.bare ++ .bare kind :: rest⟩ =
      (.ok (.ofSymbol s), ⟨last', .bare kind :: rest⟩)

variable {source : Source} {item : Reading Term} {a : Symbol} {as : List Symbol}

theorem exists_spelling_function {name : String} (h : name ≠ "") (args : List Symbol) :
    ∃ kinds, (function name args).spelling = .identifier name :: kinds := by
  cases args with
  | nil => exact ⟨[], by rw [spelling, if_neg h]⟩
  | cons a as => exact ⟨_, by rw [spelling, if_neg h]; rfl⟩

theorem exists_spelling_tuple (args : List Symbol) :
    ∃ kinds, (function "" args).spelling = .leftParen :: kinds := by
  cases args with
  | nil => exact ⟨[.rightParen], rfl⟩
  | cons a as => exact ⟨_, by rw [spelling]; rfl⟩

theorem exists_spelling_eq (s : Symbol) :
    ∃ kind kinds, s.spelling = kind :: kinds ∧ begins kind := by
  cases s with
  | number n => exact ⟨.number n, [], by rw [spelling], rfl⟩
  | text s => exact ⟨.text s, [], by rw [spelling], rfl⟩
  | function name args =>
    by_cases h : name = ""
    · obtain ⟨kinds, hkinds⟩ := exists_spelling_tuple args
      exact ⟨.leftParen, kinds, h ▸ hkinds, rfl⟩
    · obtain ⟨kinds, hkinds⟩ := exists_spelling_function h args
      exact ⟨.identifier name, kinds, hkinds, rfl⟩

theorem length_le_spellingRest (as : List Symbol) : as.length ≤ (spellingRest as).length := by
  induction as with
  | nil => exact Nat.le_refl _
  | cons a as ih =>
    rw [spellingRest, List.length_cons, List.length_cons, List.length_append]
    omega

theorem separatedUpTo_spelling (h : ∀ b ∈ a :: as, b.ReadBy source item) {limit : Nat}
    (hlimit : as.length ≤ limit) (last : Option Token) (rest : List Token) :
    ∃ last', separatedUpTo (take? .comma) item limit source
        ⟨last, (a.spelling ++ spellingRest as).map Token.bare ++ .bare .rightParen :: rest⟩ =
      (.ok (Term.ofSymbols (a :: as)), ⟨last', .bare .rightParen :: rest⟩) := by
  induction as generalizing a limit last with
  | nil =>
    obtain ⟨last', ha⟩ := h a List.mem_cons_self last .rightParen rest (.inr (.inl rfl))
    refine ⟨last', ?_⟩
    rw [spellingRest, List.append_nil, separatedUpTo_eq, bind_eq_of_ok ha]
    exact separatedRest_of_false _ limit (take?_bare_of_ne (by decide) source last' rest)
  | cons b bs ih =>
    obtain ⟨n, rfl⟩ : ∃ n, limit = n + 1 :=
      Nat.exists_eq_add_one_of_ne_zero (by rw [List.length_cons] at hlimit; omega)
    rw [List.forall_mem_cons] at h
    obtain ⟨last₁, ha⟩ := h.1 last .comma
      ((b.spelling ++ spellingRest bs).map Token.bare ++ .bare .rightParen :: rest) (.inl rfl)
    obtain ⟨last', hbs⟩ := ih h.2 (Nat.le_of_succ_le_succ hlimit) (some (.bare .comma))
    refine ⟨last', ?_⟩
    rw [spellingRest, List.map_append, List.map_cons, List.append_assoc, List.cons_append,
      separatedUpTo_eq, bind_eq_of_ok ha, separatedRest_of_true _ n (take?_bare ..),
      bind_eq_of_ok hbs]
    rfl

theorem readArguments_of_begins {first : Token} (h : begins first.kind) (last : Option Token)
    (rest : List Token) : Term.readArguments item source ⟨last, first :: rest⟩ =
      separated (take? .comma) item source ⟨last, first :: rest⟩ := by
  obtain ⟨kind, start, stop⟩ := first
  cases kind with
  | rightParen | semicolon => cases h
  | _ => rfl

theorem readAlternatives_spelling (h : ∀ b ∈ a :: as, b.ReadBy source item) (last : Option Token)
    (rest : List Token) :
    ∃ last', Term.readAlternatives item source
        ⟨last, (a.spelling ++ spellingRest as).map Token.bare ++ .bare .rightParen :: rest⟩ =
      (.ok [Term.ofSymbols (a :: as)], ⟨last', .bare .rightParen :: rest⟩) := by
  have hlimit : as.length ≤
      ((a.spelling ++ spellingRest as).map Token.bare ++ .bare .rightParen :: rest).length := by
    have hle := length_le_spellingRest as
    simp only [List.length_append, List.length_map]
    omega
  obtain ⟨last', hargs⟩ := separatedUpTo_spelling h hlimit last rest
  obtain ⟨kind, kinds, hkind, hbegins⟩ := a.exists_spelling_eq
  have hfirst : begins (Token.bare kind).kind := hbegins
  rw [hkind, List.cons_append, List.map_cons, List.cons_append] at hargs ⊢
  refine ⟨last', ?_⟩
  rw [Term.readAlternatives_eq, separated_apply, separatedUpTo_eq, bind_apply,
    readArguments_of_begins hfirst, separated_apply, hargs]
  exact separatedRest_of_false _ _ (take?_bare_of_ne (by decide) source last' rest)

/-- What is read behind an opening parenthesis. -/
theorem readPrimary_identifier (name : String) (last : Option Token) (rest : List Token) :
    Term.readPrimary item source ⟨last, .bare (.identifier name) :: .bare .leftParen :: rest⟩ =
      (do
        let alternatives ← Term.readAlternatives item
        expect .rightParen "')'"
        return Term.ofAlternatives (.function name) alternatives : Reading Term) source
          ⟨some (.bare .leftParen), rest⟩ :=
  rfl

theorem readPrimary_leftParen {opening : Token} (h : opening.kind = .leftParen)
    (last : Option Token) (rest : List Token) :
    Term.readPrimary item source ⟨last, opening :: rest⟩ =
      (do
        let alternatives ← Term.readAlternatives item
        expect .rightParen "')'"
        match alternatives with
        | [[t]] => return t
        | _ => return Term.ofAlternatives (.function "") alternatives : Reading Term) source
          ⟨some opening, rest⟩ := by
  obtain ⟨kind, start, stop⟩ := opening
  obtain rfl : kind = .leftParen := h
  rfl

theorem readBy_function_nil (name : String) :
    (function name []).ReadBy source (Term.readPrimary item) := by
  intro last kind rest hkind
  rw [spelling]
  by_cases h : name = ""
  · subst h
    exact ⟨_, rfl⟩
  · rw [if_neg h]
    rcases hkind with rfl | rfl | rfl
    · exact ⟨_, rfl⟩
    · exact ⟨_, rfl⟩
    · exact ⟨_, rfl⟩

theorem readBy_function_cons {name : String} (hone : name = "" → as ≠ [])
    (hargs : ∀ b ∈ a :: as, b.ReadBy source item) :
    (function name (a :: as)).ReadBy source (Term.readPrimary item) := by
  intro last kind rest hkind
  obtain ⟨last', halternatives⟩ :=
    readAlternatives_spelling hargs (some (.bare .leftParen)) (.bare kind :: rest)
  refine ⟨some (.bare .rightParen), ?_⟩
  rw [spelling]
  by_cases h : name = ""
  · subst h
    obtain ⟨b, bs, rfl⟩ := List.exists_cons_of_ne_nil (hone rfl)
    rw [if_pos rfl, if_neg fun hnil => hone rfl hnil.2]
    simp only [List.map_append, List.map_cons, List.map_nil, List.append_assoc, List.cons_append,
      List.nil_append] at halternatives ⊢
    rw [readPrimary_leftParen rfl, bind_eq_of_ok halternatives, bind_eq_of_ok (expect_bare ..)]
    rfl
  · rw [if_neg h, if_neg fun hnil => h hnil.1]
    simp only [List.map_append, List.map_cons, List.map_nil, List.append_assoc, List.cons_append,
      List.nil_append] at halternatives ⊢
    rw [readPrimary_identifier, bind_eq_of_ok halternatives, bind_eq_of_ok (expect_bare ..)]
    rfl

theorem readBy_readWithin_succ {s : Symbol} {depth : Nat}
    (h : s.ReadBy source (Term.readPrimary (Term.readWithin depth))) :
    s.ReadBy source (Term.readWithin (depth + 1)) := by
  intro last kind rest hkind
  obtain ⟨last', hprimary⟩ := h last kind rest hkind
  refine ⟨last', ?_⟩
  have hdots : kind ≠ .dots := by
    rcases hkind with rfl | rfl | rfl <;> decide
  rw [Term.readWithin, bind_eq_of_ok hprimary, bind_eq_of_ok (take?_bare_of_ne hdots ..)]
  rfl

theorem length_spelling_le (h : a ∈ as) : a.spelling.length ≤ (spellingRest as).length := by
  induction as with
  | nil => cases h
  | cons b bs ih =>
    rw [spellingRest, List.length_cons, List.length_append]
    rcases List.mem_cons.1 h with rfl | h
    · omega
    · have hle := ih h
      omega

theorem length_spelling_lt (name : String) {args : List Symbol} (h : a ∈ args) :
    a.spelling.length < (function name args).spelling.length := by
  cases args with
  | nil => cases h
  | cons b bs =>
    have hle : a.spelling.length ≤ b.spelling.length + (spellingRest bs).length := by
      rcases List.mem_cons.1 h with rfl | h
      · omega
      · have hle := length_spelling_le h
        omega
    simp only [spelling, List.length_append, List.length_cons]
    omega

theorem readBy_readWithin {s : Symbol} {depth : Nat} (hdepth : s.spelling.length ≤ depth)
    (h : ∀ n, depth = n + 1 → s.ReadBy source (Term.readPrimary (Term.readWithin n))) :
    s.ReadBy source (Term.readWithin depth) := by
  obtain ⟨kind, kinds, hkind, -⟩ := s.exists_spelling_eq
  cases depth with
  | zero =>
    rw [hkind, List.length_cons] at hdepth
    omega
  | succ n => exact readBy_readWithin_succ (h n rfl)

/-- A symbol is read back if no tuple in it has just one element. -/
theorem NoSingleton.readBy {s : Symbol} (h : s.NoSingleton) {depth : Nat}
    (hdepth : s.spelling.length ≤ depth) : s.ReadBy source (Term.readWithin depth) := by
  unfold NoSingleton at h
  induction h generalizing depth with
  | number n => exact readBy_readWithin hdepth fun _ _ _ _ _ _ => ⟨_, rfl⟩
  | text s => exact readBy_readWithin hdepth fun _ _ _ _ _ _ => ⟨_, rfl⟩
  | @function name args hone hargs ih =>
    apply readBy_readWithin hdepth
    rintro m rfl
    have hread : ∀ b ∈ args, b.ReadBy source (Term.readWithin m) := by
      intro b hb
      have hlt := length_spelling_lt name hb
      exact ih b hb (by omega)
    cases args with
    | nil => exact readBy_function_nil name
    | cons a as =>
      apply readBy_function_cons _ hread
      rintro hname rfl
      exact hone hname rfl

end Symbol

section Fact

theorem Term.requireAtom_of_isAtom {t : Term} (h : t.isAtom) : requireAtom t = pure () := by
  rw [requireAtom, h]
  rfl

theorem Term.read_apply (source : Source) (c : Cursor) :
    Term.read source c = readWithin (c.rest.length + 1) source c := by
  have hget : (get : Reading Cursor) source c = (.ok c, c) := rfl
  rw [Term.read, bind_eq_of_ok hget]

theorem Statement.exists_eq_rule {statement : Statement} {head : Head} {body : List Literal}
    (h : statement.unspanned = .rule ⟨head, body, default⟩) :
    ∃ span, statement = .rule ⟨head, body, span⟩ := by
  cases statement with
  | rule r =>
    have hr : r.unspanned = ⟨head, body, default⟩ := Statement.rule.inj h
    rw [Rule.unspanned, Rule.mk.injEq] at hr
    exact ⟨r.span, by rw [← hr.1, ← hr.2.1]⟩
  | unit | external | showing | defined => cases h

variable {name : String} {args : List Symbol} (hname : name ≠ "")
  (h : (Symbol.function name args).NoSingleton)

include hname h

theorem Term.readAtom_spelling (source : Source) (last : Option Token) (rest : List Token) :
    ∃ last', readAtom source
        ⟨last, (Symbol.function name args).spelling.map Token.bare ++ .bare .dot :: rest⟩ =
      (.ok (.ofSymbol (.function name args)), ⟨last', .bare .dot :: rest⟩) := by
  have hdepth : (Symbol.function name args).spelling.length ≤
      ((Symbol.function name args).spelling.map Token.bare ++
        .bare .dot :: rest).length + 1 := by
    rw [List.length_append, List.length_map]
    omega
  obtain ⟨last', hread⟩ := h.readBy hdepth last .dot rest (.inr (.inr rfl))
  have hatom : (Term.ofSymbol (.function name args)).isAtom := by
    simpa [Term.ofSymbol, isAtom, isNamed] using hname
  refine ⟨last', ?_⟩
  rw [readAtom, bind_apply, read_apply, hread]
  change (requireAtom _ >>= fun _ => pure _ : Reading Term) source _ = _
  rw [requireAtom_of_isAtom hatom]
  rfl

theorem Head.read_spelling (source : Source) (last : Option Token) (rest : List Token) :
    ∃ last', Head.read source
        ⟨last, (Symbol.function name args).spelling.map Token.bare ++ .bare .dot :: rest⟩ =
      (.ok (.atom (.ofSymbol (.function name args))), ⟨last', .bare .dot :: rest⟩) := by
  obtain ⟨last', hatom⟩ := Term.readAtom_spelling hname h source last rest
  obtain ⟨kinds, hkinds⟩ := Symbol.exists_spelling_function hname args
  refine ⟨last', ?_⟩
  rw [hkinds, List.map_cons, List.cons_append] at hatom ⊢
  rw [read, bind_eq_of_ok (next?_bare ..), if_neg (by simp),
    bind_eq_of_ok (take?_bare_of_ne (by simp) ..), if_neg Bool.false_ne_true, bind_eq_of_ok hatom,
    bind_eq_of_ok (take?_bare_of_ne (by decide) ..)]
  rfl

theorem Rule.read_fact (start : Nat) (source : Source) (last : Option Token) (rest : List Token) :
    ∃ span, Rule.read start source
        ⟨last, (Symbol.function name args).spelling.map Token.bare ++ .bare .dot :: rest⟩ =
      (.ok ⟨.atom (.ofSymbol (.function name args)), [], span⟩, ⟨some (.bare .dot), rest⟩) := by
  obtain ⟨last', hhead⟩ := Head.read_spelling hname h source last rest
  have hbody : readBody source ⟨last', .bare .dot :: rest⟩ =
      (.ok [], ⟨last', .bare .dot :: rest⟩) := by
    rw [readBody, bind_eq_of_ok (take?_bare_of_ne (by decide) ..)]
    rfl
  obtain ⟨span, hspan⟩ : ∃ span, spanFrom start source ⟨some (.bare .dot), rest⟩ =
      (.ok span, ⟨some (.bare .dot), rest⟩) := ⟨_, rfl⟩
  refine ⟨span, ?_⟩
  rw [read, bind_eq_of_ok hhead, bind_eq_of_ok hbody, bind_eq_of_ok (expect_bare ..),
    bind_eq_of_ok hspan]
  rfl

/-- No directive stands before an atom. -/
theorem Statement.read_fact (source : Source) (rest : List Token) :
    ∃ span, Statement.read source
        ⟨none, (Symbol.function name args).spelling.map Token.bare ++ .bare .dot :: rest⟩ =
      (.ok (.rule ⟨.atom (.ofSymbol (.function name args)), [], span⟩),
        ⟨some (.bare .dot), rest⟩) := by
  obtain ⟨span, hrule⟩ := Rule.read_fact hname h 0 source none rest
  obtain ⟨kinds, hkinds⟩ := Symbol.exists_spelling_function hname args
  refine ⟨span, ?_⟩
  rw [hkinds, List.map_cons, List.cons_append] at hrule ⊢
  have hposition : position source ⟨none, .bare (.identifier name) ::
      (kinds.map Token.bare ++ .bare .dot :: rest)⟩ = (.ok 0, _) := rfl
  rw [read, bind_eq_of_ok hposition, bind_eq_of_ok (next?_bare ..)]
  dsimp only
  rw [bind_eq_of_ok hrule]
  rfl

theorem Statement.readUpTo_bare (source : Source) (limit : Nat) :
    ∃ span, readUpTo source (limit + 1)
        (((Symbol.function name args).spelling ++ [Token.Kind.dot]).map Token.bare) =
      [.ok (.rule ⟨.atom (.ofSymbol (.function name args)), [], span⟩)] := by
  obtain ⟨span, hread⟩ := read_fact hname h source []
  have hnext : next source
      ((Symbol.function name args).spelling.map Token.bare ++ [Token.bare .dot]) =
        (.ok (.rule ⟨.atom (.ofSymbol (.function name args)), [], span⟩), []) := by
    have hrun : (read source).run.run _ = _ := hread
    rw [next, hrun]
  refine ⟨span, ?_⟩
  rw [List.map_append, List.map_singleton, readUpTo_succ source limit (by simp), outcome, hnext,
    readUpTo_nil]

/-- The tokens of an atom and a dot are read as a fact, wherever they stand. -/
theorem Statement.readAll_fact (source : Source) {tokens : List Token}
    (htokens : tokens.map Token.kind = (Symbol.function name args).spelling ++ [Token.Kind.dot]) :
    ∃ span, readAll source tokens =
      [.ok (.rule ⟨.atom (.ofSymbol (.function name args)), [], span⟩)] := by
  have hlength : tokens.length = (Symbol.function name args).spelling.length + 1 := by
    rw [← List.length_map Token.kind, htokens, List.length_append, List.length_singleton]
  obtain ⟨span, hbare⟩ := readUpTo_bare hname h source (Symbol.function name args).spelling.length
  have hkinds : tokens.map Token.kind =
      (((Symbol.function name args).spelling ++ [Token.Kind.dot]).map Token.bare).map
        Token.kind := by
    rw [htokens, List.map_map]
    exact (List.map_id _).symm
  have hunspanned := unspanned_readUpTo source source hkinds tokens.length
  rw [hlength, hbare, List.map_singleton, ← hlength] at hunspanned
  obtain ⟨outcome, houtcome, hrule⟩ := List.map_eq_singleton_iff.1 hunspanned
  rw [readAll, houtcome]
  cases outcome with
  | error d => cases hrule
  | ok statement =>
    obtain ⟨span', rfl⟩ := exists_eq_rule (Except.ok.inj hrule)
    exact ⟨span', rfl⟩

end Fact

namespace Symbol

/-- The text of a symbol is read back as an argument of a fact, unless there is a tuple of one
in it. -/
theorem parse_display (s : Symbol) (file : Option String)
    (h : s.EachFunction fun name args =>
      IsIdentifier name ∨ name = "" ∧ args.length ≠ 1) :
    ∃ t span, Program.parse ("p(" ++ s.display ++ ").") file =
        .ok ⟨file.getD "<string>", [.rule ⟨.atom (.function "p" [t]), [], span⟩]⟩ ∧
      t.value? = some s := by
  have hfact : (function "p" [s]).EachFunction fun name args =>
      IsIdentifier name ∨ name = "" ∧ args.length ≠ 1 := by
    refine .function (.inl ⟨'p', [], rfl, rfl, nofun⟩) ?_
    rw [List.forall_mem_singleton]
    exact h
  have hspells := (hfact.mono fun name args h => h.imp_right And.left).spells ['.'] [.dot]
    (fun c hc => by cases hc; rfl) (.single rfl .nil)
  have htext : ("p(" ++ s.display ++ ").").toList = (function "p" [s]).chars ++ ['.'] := by
    simp [chars, charsRest, display]
  let source : Source := ⟨("p(" ++ s.display ++ ").").toList, file⟩
  have hlexes : Piece.Lexes source.chars _ := htext ▸ hspells
  obtain ⟨tokens, hscan, hkinds⟩ := Token.scan_of_lexes hlexes
  have hone := hfact.mono fun name args h hempty =>
    (h.resolve_left fun hname => hname.ne_empty hempty).2
  obtain ⟨span, hread⟩ := Statement.readAll_fact (by decide) hone source hkinds
  refine ⟨Term.ofSymbol s, span, ?_, value?_ofSymbol s⟩
  rw [Program.parse]
  change (Token.scan source >>= fun tokens => Program.ofTokens source tokens) = _
  rw [hscan]
  change Program.ofTokens source tokens = _
  rw [Program.ofTokens, hread]
  rfl

theorem parse_display_sample :
    let s : Symbol := tuple [.text "\"\\\n", .function "f" [.number Int64.minValue, .tuple []]]
    (s.EachFunction fun name args => IsIdentifier name ∨ name = "" ∧ args.length ≠ 1) ∧
      ∃ t span, Program.parse ("p(" ++ s.display ++ ").") none =
          .ok ⟨"<string>", [.rule ⟨.atom (.function "p" [t]), [], span⟩]⟩ ∧
        t.value? = some s := by
  intro s
  have hs : s.EachFunction fun name args => IsIdentifier name ∨ name = "" ∧ args.length ≠ 1 := by
    have hempty : (tuple []).EachFunction fun name args =>
        IsIdentifier name ∨ name = "" ∧ args.length ≠ 1 :=
      .function (.inr ⟨rfl, by decide⟩) nofun
    have hf : (function "f" [.number Int64.minValue, .tuple []]).EachFunction fun name args =>
        IsIdentifier name ∨ name = "" ∧ args.length ≠ 1 :=
      .function (.inl ⟨'f', [], rfl, rfl, nofun⟩)
        (List.forall_mem_cons.2 ⟨.number _, List.forall_mem_singleton.2 hempty⟩)
    exact .function (.inr ⟨rfl, by decide⟩)
      (List.forall_mem_cons.2 ⟨.text _, List.forall_mem_singleton.2 hf⟩)
  exact ⟨hs, parse_display s none hs⟩

/-- The text of a tuple of one is not read back: a term is expected behind its comma. -/
theorem not_parse_display_singleton :
    ((tuple [.number 1]).EachFunction fun name _ => IsIdentifier name ∨ name = "") ∧
      Program.parse ("p(" ++ (tuple [.number 1]).display ++ ").") none =
        .error [⟨.parse, .expected "a term" (some .rightParen), some ⟨5, 6, 1, 6, none⟩⟩] := by
  constructor
  · apply EachFunction.function (.inr rfl)
    exact List.forall_mem_singleton.2 (.number 1)
  · rfl

end Symbol

end AnswerSetTest
