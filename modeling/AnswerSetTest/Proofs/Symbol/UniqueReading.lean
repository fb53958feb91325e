import AnswerSetTest.Proofs.Syntax.Display

/-!
# Unique reading

The tokens that spell a symbol tell it from every other, also when more tokens follow, as long as
these do not go on with it: an opening parenthesis would turn a constant into a function term. A
text whose names are identifiers is cut into those tokens, so symbols with equal texts are equal.
-/

namespace AnswerSetTest.Symbol

def first : Symbol → Token.Kind
  | .number n => .number n
  | .text s => .text s
  | .function name _ => if name = "" then .leftParen else .identifier name

def spellingArguments (name : String) : List Symbol → List Token.Kind
  | [] => if name = "" then [.leftParen, .rightParen] else []
  | a :: as => .leftParen :: (spelling a ++ spellingRest as) ++
      (if name = "" ∧ as = [] then [.comma, .rightParen] else [.rightParen])

/-- Tokens that do not go on with a symbol. -/
def Stops (kinds : List Token.Kind) : Prop := kinds.head? ≠ some .leftParen

/-- Tokens that close a list of arguments, the list of a tuple of one with a comma. -/
inductive Closes : List Token.Kind → Prop
  | paren (kinds : List Token.Kind) : Closes (.rightParen :: kinds)
  | comma (kinds : List Token.Kind) : Closes (.comma :: .rightParen :: kinds)

/-- Where the tokens of `s` are read, no other symbol can be read. -/
def Unique (s : Symbol) : Prop :=
  ∀ t ks ls, Stops ks → Stops ls → s.spelling ++ ks = t.spelling ++ ls → s = t ∧ ks = ls

variable {name : String} {s t : Symbol} {as bs : List Symbol} {ks ls : List Token.Kind}

theorem spelling_function (name : String) (args : List Symbol) :
    (function name args).spelling =
      (if name = "" then [] else [.identifier name]) ++ spellingArguments name args := by
  cases args with
  | nil =>
    rw [spelling, spellingArguments]
    by_cases h : name = ""
    · rw [if_pos h, if_pos h, if_pos h, List.nil_append]
    · rw [if_neg h, if_neg h, if_neg h, List.append_nil]
  | cons a as => rw [spelling, spellingArguments, List.append_assoc]

theorem head?_spelling_append (s : Symbol) (ks : List Token.Kind) :
    (s.spelling ++ ks).head? = some s.first := by
  cases s with
  | number n => rfl
  | text s => rfl
  | function name args =>
    rw [spelling_function, first]
    by_cases h : name = ""
    · rw [if_pos h, if_pos h, List.nil_append]
      cases args with
      | nil =>
        rw [spellingArguments, if_pos h]
        rfl
      | cons a as => rfl
    · rw [if_neg h, if_neg h]
      rfl

theorem first_eq_of_append_eq (h : s.spelling ++ ks = t.spelling ++ ls) : s.first = t.first := by
  have hhead := congrArg List.head? h
  rw [head?_spelling_append, head?_spelling_append] at hhead
  exact Option.some.inj hhead

theorem first_function_ne {kind : Token.Kind} (hname : kind ≠ .identifier name)
    (hparen : kind ≠ .leftParen) : (function name as).first ≠ kind := by
  rw [first]
  by_cases h : name = ""
  · rw [if_pos h]
    exact hparen.symm
  · rw [if_neg h]
    exact hname.symm

theorem first_ne_rightParen (s : Symbol) : s.first ≠ .rightParen := by
  cases s with
  | number n => exact nofun
  | text s => exact nofun
  | function name args => exact first_function_ne nofun nofun

theorem name_eq_of_first_eq {f g : String} (h : (function f as).first = (function g bs).first) :
    f = g := by
  rw [first, first] at h
  by_cases hf : f = ""
  · by_cases hg : g = ""
    · rw [hf, hg]
    · rw [if_pos hf, if_neg hg] at h
      cases h
  · by_cases hg : g = ""
    · rw [if_neg hf, if_pos hg] at h
      cases h
    · rw [if_neg hf, if_neg hg] at h
      exact Token.Kind.identifier.inj h

theorem Closes.stops (h : Closes ks) : Stops ks := by
  cases h <;> exact nofun

theorem closes_closing (name : String) (as : List Symbol) (ks : List Token.Kind) :
    Closes ((if name = "" ∧ as = [] then [.comma, .rightParen] else [.rightParen]) ++ ks) := by
  split
  · exact .comma ks
  · exact .paren ks

theorem stops_spellingRest (as : List Symbol) (h : Closes ks) : Stops (spellingRest as ++ ks) := by
  cases as with
  | nil => exact h.stops
  | cons a as => exact nofun

/-- Behind the comma of a tuple of one stands no argument. -/
theorem Closes.ne_spellingRest_cons (h : Closes ks) (b : Symbol) (bs : List Symbol) :
    ks ≠ spellingRest (b :: bs) ++ ls := by
  intro heq
  rw [spellingRest, List.cons_append, List.append_assoc] at heq
  cases h with
  | paren ks => cases heq
  | comma ks =>
    have hhead := congrArg List.head? (List.cons.inj heq).2
    rw [head?_spelling_append] at hhead
    exact first_ne_rightParen b (Option.some.inj hhead).symm

theorem spellingRest_append_inj (h : ∀ a ∈ as, a.Unique) (hks : Closes ks) (hls : Closes ls)
    (heq : spellingRest as ++ ks = spellingRest bs ++ ls) : as = bs ∧ ks = ls := by
  induction as generalizing bs with
  | nil =>
    cases bs with
    | nil => exact ⟨rfl, heq⟩
    | cons b bs => exact absurd heq (hks.ne_spellingRest_cons b bs)
  | cons a as ih =>
    cases bs with
    | nil => exact absurd heq.symm (hls.ne_spellingRest_cons a as)
    | cons b bs =>
      rw [List.forall_mem_cons] at h
      rw [spellingRest, spellingRest, List.cons_append, List.cons_append, List.append_assoc,
        List.append_assoc] at heq
      obtain ⟨rfl, hrest⟩ := h.1 b _ _ (stops_spellingRest as hks) (stops_spellingRest bs hls)
        (List.cons.inj heq).2
      obtain ⟨rfl, htail⟩ := ih h.2 hrest
      exact ⟨rfl, htail⟩

theorem spellingArguments_nil_ne (hks : Stops ks) (b : Symbol) (bs : List Symbol) :
    spellingArguments name [] ++ ks ≠ spellingArguments name (b :: bs) ++ ls := by
  intro heq
  rw [spellingArguments, spellingArguments] at heq
  by_cases hname : name = ""
  · rw [if_pos hname] at heq
    simp only [List.cons_append, List.append_assoc] at heq
    have hhead := congrArg List.head? (List.cons.inj heq).2
    rw [head?_spelling_append] at hhead
    exact first_ne_rightParen b (Option.some.inj hhead).symm
  · rw [if_neg hname, List.nil_append] at heq
    exact hks (congrArg List.head? heq)

theorem spellingArguments_append_inj (h : ∀ a ∈ as, a.Unique) (hks : Stops ks) (hls : Stops ls)
    (heq : spellingArguments name as ++ ks = spellingArguments name bs ++ ls) :
    as = bs ∧ ks = ls := by
  cases as with
  | nil =>
    cases bs with
    | nil => exact ⟨rfl, List.append_cancel_left heq⟩
    | cons b bs => exact absurd heq (spellingArguments_nil_ne hks b bs)
  | cons a as =>
    cases bs with
    | nil => exact absurd heq.symm (spellingArguments_nil_ne hls a as)
    | cons b bs =>
      rw [List.forall_mem_cons] at h
      simp only [spellingArguments, List.cons_append, List.append_assoc] at heq
      obtain ⟨rfl, hrest⟩ := h.1 b _ _ (stops_spellingRest as (closes_closing name as ks))
        (stops_spellingRest bs (closes_closing name bs ls)) (List.cons.inj heq).2
      obtain ⟨rfl, htail⟩ := spellingRest_append_inj h.2 (closes_closing name as ks)
        (closes_closing name bs ls) hrest
      exact ⟨rfl, List.append_cancel_left htail⟩

theorem unique_of_first (h : ∀ t, s.first = t.first → s = t) : s.Unique := by
  intro t ks ls _ _ heq
  obtain rfl := h t (first_eq_of_append_eq heq)
  exact ⟨rfl, List.append_cancel_left heq⟩

theorem unique_number (n : Int64) : (number n).Unique := by
  apply unique_of_first
  intro t h
  cases t with
  | number m => exact congrArg number (Token.Kind.number.inj h)
  | text s => cases h
  | function g bs => exact absurd h.symm (first_function_ne nofun nofun)

theorem unique_text (s : String) : (text s).Unique := by
  apply unique_of_first
  intro t h
  cases t with
  | number n => cases h
  | text u => exact congrArg text (Token.Kind.text.inj h)
  | function g bs => exact absurd h.symm (first_function_ne nofun nofun)

/-- Function terms are told apart by their names and then by their arguments. -/
theorem unique_function (h : ∀ a ∈ as, a.Unique) : (function name as).Unique := by
  intro t ks ls hks hls heq
  have hfirst := first_eq_of_append_eq heq
  cases t with
  | number n => exact absurd hfirst (first_function_ne nofun nofun)
  | text s => exact absurd hfirst (first_function_ne nofun nofun)
  | function g bs =>
    obtain rfl := name_eq_of_first_eq hfirst
    rw [spelling_function, spelling_function, List.append_assoc, List.append_assoc] at heq
    obtain ⟨rfl, htail⟩ := spellingArguments_append_inj h hks hls (List.append_cancel_left heq)
    exact ⟨rfl, htail⟩

theorem unique (s : Symbol) : s.Unique := by
  induction s using induct with
  | number n => exact unique_number n
  | text s => exact unique_text s
  | function f args ih => exact unique_function ih

theorem spelling_injective : Function.Injective spelling := by
  intro s t h
  have heq : s.spelling ++ [] = t.spelling ++ [] := by rw [h]
  exact (unique s t [] [] nofun nofun heq).1

/-- All function terms in a symbol have a lower-case identifier as their name, or are tuples. -/
def Named (s : Symbol) : Prop := s.EachFunction fun name _ => IsIdentifier name ∨ name = ""

theorem Named.outcomes_chars (h : s.Named) :
    Piece.outcomes s.chars = s.spelling.map Piece.Outcome.token := by
  have hspells := h.spells [] [] nofun .nil
  rw [List.append_nil, List.append_nil] at hspells
  exact Piece.outcomes_all hspells (Nat.le_refl _) 0

theorem Named.display_inj (hs : s.Named) (ht : t.Named) (h : s.display = t.display) : s = t := by
  have hchars : s.chars = t.chars := String.ofList_injective h
  have houtcomes : s.spelling.map Piece.Outcome.token = t.spelling.map Piece.Outcome.token := by
    rw [← hs.outcomes_chars, ← ht.outcomes_chars, hchars]
  have htoken : Function.Injective Piece.Outcome.token := fun _ _ => Piece.Outcome.token.inj
  exact spelling_injective (List.map_injective_iff.2 htoken houtcomes)

end AnswerSetTest.Symbol
