import AnswerSetTest.Proofs.Syntax.Recovery

/-!
# Spans of statements

A reading moves its cursor over tokens, and the token read last stands before the cursor. The span
of a statement is taken when all its tokens have been read, so that it extends from the first of
them to the last.
-/

namespace AnswerSetTest

open Sides (bind_apply bind_eq_of_ok)

namespace Reading

/-- The cursor has moved over some tokens; the last of them, if any, is the token read last. -/
def Onward (c d : Cursor) : Prop :=
  ∃ taken, c.rest = taken ++ d.rest ∧ d.last = taken.getLast?.or c.last

theorem Onward.refl (c : Cursor) : Onward c c := ⟨[], rfl, rfl⟩

theorem Onward.trans {c d e : Cursor} (h : Onward c d) (h' : Onward d e) : Onward c e := by
  obtain ⟨taken, hrest, hlast⟩ := h
  obtain ⟨taken', hrest', hlast'⟩ := h'
  refine ⟨taken ++ taken', ?_, ?_⟩
  · rw [hrest, hrest', List.append_assoc]
  · rw [hlast', hlast, List.getLast?_append, Option.or_assoc]

variable {α β : Type}

/-- A reading that leaves the cursor where it was or moves it over tokens, whether or not it
succeeds. -/
def Moves (x : Reading α) : Prop := ∀ s c, Onward c (x s c).2

theorem moves_pure (a : α) : Moves (pure a) := fun _ c => .refl c

theorem moves_throw (d : Diagnostic) : Moves (throw d : Reading α) := fun _ c => .refl c

theorem Moves.bind {x : Reading α} {f : α → Reading β} (hx : Moves x) (hf : ∀ a, Moves (f a)) :
    Moves (x >>= f) := by
  intro s c
  have hc := hx s c
  rw [bind_apply]
  split
  · next a d h =>
    rw [h] at hc
    exact hc.trans (hf a s d)
  · next e d h =>
    rw [h] at hc
    exact hc

theorem Moves.map {x : Reading α} (hx : Moves x) (f : α → β) : Moves (do return f (← x)) :=
  hx.bind fun a => moves_pure (f a)

theorem moves_get {f : Cursor → Reading α} (h : ∀ c, Moves (f c)) : Moves (get >>= f) :=
  fun s c => h c s c

theorem moves_next? : Moves next? := fun _ c => .refl c

theorem moves_advance : Moves advance := by
  rintro s ⟨last, _ | ⟨t, ts⟩⟩
  · exact .refl _
  · exact ⟨[t], rfl, rfl⟩

theorem moves_position : Moves position := by
  rintro s ⟨last, _ | ⟨t, ts⟩⟩ <;> exact .refl _

theorem moves_spanFrom (start : Nat) : Moves (spanFrom start) := by
  rintro s ⟨_ | t, rest⟩ <;> exact .refl _

theorem moves_unexpected (what : String) : Moves (unexpected what : Reading α) := by
  rintro s ⟨last, _ | ⟨t, ts⟩⟩ <;> exact .refl _

theorem moves_take? (kind : Token.Kind) : Moves (take? kind) := by
  apply moves_next?.bind
  intro next
  split
  · exact moves_advance.bind fun _ => moves_pure true
  · exact moves_pure false

theorem moves_ifTake {kind : Token.Kind} {x y : Reading α} (hx : Moves x) (hy : Moves y) :
    Moves (do if ← take? kind then x else y) := by
  apply (moves_take? kind).bind
  intro taken
  split
  · exact hx
  · exact hy

theorem moves_expect (kind : Token.Kind) (what : String) : Moves (expect kind what) := by
  apply (moves_take? kind).bind
  intro taken
  split
  · exact moves_pure ()
  · exact moves_unexpected what

theorem moves_closed {x : Reading α} (hx : Moves x) (kind : Token.Kind) (what : String)
    (build : α → β) : Moves (do let a ← x; expect kind what; return build a) := by
  apply hx.bind
  intro a
  exact (moves_expect kind what).map fun _ => build a

theorem moves_dotted (start : Nat) (build : Span → α) :
    Moves (do expect .dot "'.'"; return build (← spanFrom start)) := by
  apply (moves_expect .dot "'.'").bind
  intro _
  exact (moves_spanFrom start).map build

theorem moves_identifier (what : String) : Moves (identifier what) := by
  apply moves_next?.bind
  intro next
  split
  · next name => exact moves_advance.map fun _ => name
  · exact moves_unexpected what

theorem moves_comparison? : Moves comparison? := by
  apply moves_next?.bind
  intro next
  split
  · next op => exact moves_advance.map fun _ => some op
  · exact moves_pure none

theorem moves_separatedUpTo {separator : Reading Bool} {item : Reading α}
    (hseparator : Moves separator) (hitem : Moves item) (limit : Nat) :
    Moves (separatedUpTo separator item limit) := by
  induction limit with
  | zero => exact hitem.map fun a => [a]
  | succ limit ih =>
    apply hitem.bind
    intro first
    apply hseparator.bind
    intro more
    split
    · exact ih.map fun as => first :: as
    · exact moves_pure [first]

theorem moves_separated {separator : Reading Bool} {item : Reading α}
    (hseparator : Moves separator) (hitem : Moves item) : Moves (separated separator item) :=
  moves_get fun c => moves_separatedUpTo hseparator hitem c.rest.length

end Reading

open Reading

section Readings

theorem Term.moves_readAlternatives {term : Reading Term} (h : Moves term) :
    Moves (readAlternatives term) := by
  apply moves_separated (moves_take? _)
  apply moves_next?.bind
  intro next
  split
  · exact moves_pure []
  · exact moves_pure []
  · exact moves_separated (moves_take? _) h

theorem Term.moves_readPrimary {term : Reading Term} (h : Moves term) :
    Moves (readPrimary term) := by
  have alternatives := moves_readAlternatives h
  apply moves_next?.bind
  intro next
  rcases next with _ | kind
  · exact moves_unexpected _
  cases kind with
  | number n => exact moves_advance.map _
  | text s => exact moves_advance.map _
  | «variable» v => exact moves_advance.map _
  | identifier name =>
    apply moves_advance.bind
    intro _
    apply moves_ifTake
    · exact moves_closed alternatives _ _ _
    · exact moves_pure _
  | call name =>
    apply moves_advance.bind
    intro _
    apply moves_ifTake
    · apply moves_ifTake
      · exact moves_pure _
      · exact moves_closed (moves_separated (moves_take? _) h) _ _ _
    · exact moves_pure _
  | leftParen =>
    apply moves_advance.bind
    intro _
    apply alternatives.bind
    intro _
    apply (moves_expect _ _).bind
    intro _
    split <;> exact moves_pure _
  | _ => exact moves_unexpected _

theorem Term.moves_readWithin (depth : Nat) : Moves (readWithin depth) := by
  induction depth with
  | zero => exact moves_unexpected _
  | succ depth ih =>
    apply (moves_readPrimary ih).bind
    intro low
    apply moves_ifTake
    · exact (moves_readPrimary ih).map _
    · exact moves_pure low

theorem Term.moves_read : Moves Term.read :=
  moves_get fun c => moves_readWithin (c.rest.length + 1)

theorem Term.moves_requireAtom (t : Term) : Moves (requireAtom t) := by
  rintro s ⟨last, rest⟩
  unfold requireAtom
  by_cases h : t.isAtom
  · rw [if_pos h]
    exact .refl _
  · rw [if_neg h]
    cases last <;> exact .refl _

theorem Term.moves_readAtom : Moves readAtom :=
  moves_read.bind fun t => (moves_requireAtom t).map fun _ => t

theorem moves_readElements : Moves readElements := by
  apply moves_ifTake
  · exact moves_pure []
  · exact moves_closed (moves_separated (moves_take? _) Term.moves_readAtom) _ _ id

theorem Signature.moves_read : Moves Signature.read := by
  apply (moves_identifier _).bind
  intro name
  apply (moves_expect _ _).bind
  intro _
  apply moves_next?.bind
  intro next
  split
  · split
    · exact moves_unexpected _
    · exact moves_advance.map _
  · exact moves_unexpected _

theorem Literal.moves_isNegation : Moves isNegation := by
  rintro s ⟨last, _ | ⟨t, ts⟩⟩ <;> exact .refl _

theorem Literal.moves_readCount : Moves readCount := by
  apply moves_readElements.bind
  intro elements
  apply moves_comparison?.bind
  intro op
  split
  · exact Term.moves_read.map _
  · exact moves_unexpected _

theorem Literal.moves_read : Moves Literal.read := by
  apply moves_isNegation.bind
  intro negated
  split
  · exact moves_advance.bind fun _ => Term.moves_readAtom.map _
  · apply (moves_take? _).bind
    intro _
    apply moves_ifTake moves_readCount
    apply Term.moves_read.bind
    intro t
    apply moves_comparison?.bind
    intro op
    split
    · exact Term.moves_read.map _
    · exact (Term.moves_requireAtom t).map _

theorem Head.moves_read : Moves Head.read := by
  have atoms := moves_separated (moves_take? .semicolon) Term.moves_readAtom
  apply moves_next?.bind
  intro next
  split
  · exact moves_pure _
  · apply moves_ifTake (moves_readElements.map _)
    apply Term.moves_readAtom.bind
    intro first
    exact moves_ifTake (atoms.map _) (moves_pure _)

theorem moves_readBody : Moves readBody := by
  apply moves_ifTake
  · apply moves_next?.bind
    intro next
    split
    · exact moves_pure []
    · exact moves_separated (moves_ifTake (moves_pure true) (moves_take? _)) Literal.moves_read
  · exact moves_pure []

theorem Rule.moves_read (start : Nat) : Moves (Rule.read start) := by
  apply Head.moves_read.bind
  intro head
  apply moves_readBody.bind
  intro body
  exact moves_dotted start _

theorem Parameter.moves_read : Moves Parameter.read := by
  apply moves_position.bind
  intro start
  apply (moves_identifier _).bind
  intro name
  apply moves_ifTake
  · apply (moves_separated (moves_take? _) Term.moves_read).bind
    intro args
    exact (moves_expect _ _).bind fun _ => (moves_spanFrom start).map _
  · exact (moves_spanFrom start).map _

theorem UnitDeclaration.moves_read (start : Nat) : Moves (UnitDeclaration.read start) := by
  apply (moves_identifier _).bind
  intro name
  apply moves_ifTake
  · apply (moves_separated (moves_take? _) Parameter.moves_read).bind
    intro parameters
    exact (moves_expect _ _).bind fun _ => moves_dotted start _
  · exact moves_dotted start _

theorem Statement.moves_readDirective (start : Nat) (name : String) :
    Moves (readDirective start name) := by
  unfold readDirective
  split
  · exact (UnitDeclaration.moves_read start).map _
  · exact Term.moves_readAtom.bind fun _ => moves_dotted start _
  · apply moves_ifTake
    · exact (moves_spanFrom start).map _
    · exact Signature.moves_read.bind fun _ => moves_dotted start _
  · exact Signature.moves_read.bind fun _ => moves_dotted start _
  · exact (moves_spanFrom start).bind fun _ => moves_throw _

theorem Statement.moves_read : Moves Statement.read := by
  apply moves_position.bind
  intro start
  apply moves_next?.bind
  intro next
  split
  · exact moves_advance.bind fun _ => moves_readDirective start _
  · exact (Rule.moves_read start).map _

end Readings

namespace Reading

variable {α β : Type} {start : Nat}

/-- A reading whose result has the span from byte `start` to the end of the token read last. -/
def Spanned (start : Nat) (span : α → Span) (x : Reading α) : Prop :=
  ∀ s c a d, x s c = (.ok a, d) →
    span a = Span.locate s start (max start (d.last.elim start Token.stop))

theorem spanned_spanFrom {span : α → Span} {build : Span → α} (h : ∀ l, span (build l) = l) :
    Spanned start span (do return build (← spanFrom start)) := by
  rintro s ⟨last, rest⟩ a d hrun
  cases last <;> cases hrun <;> exact h _

theorem spanned_throw {span : α → Span} (d : Diagnostic) :
    Spanned start span (throw d : Reading α) := by
  intro s c a e hrun
  cases hrun

/-- What is read before does not matter. -/
theorem Spanned.bind {span : β → Span} {f : α → Reading β} (h : ∀ a, Spanned start span (f a))
    (x : Reading α) : Spanned start span (x >>= f) := by
  intro s c b d hrun
  rw [bind_apply] at hrun
  split at hrun
  · next a e hx => exact h a s e b d hrun
  · cases hrun

theorem spanned_dotted {span : α → Span} {build : Span → α} (h : ∀ l, span (build l) = l) :
    Spanned start span (do expect .dot "'.'"; return build (← spanFrom start)) :=
  .bind (fun _ => spanned_spanFrom h) _

theorem Spanned.map {span : α → Span} {span' : β → Span} {x : Reading α} {build : α → β}
    (h : Spanned start span x) (hbuild : ∀ a, span' (build a) = span a) :
    Spanned start span' (do return build (← x)) := by
  intro s c b d hrun
  rw [bind_apply] at hrun
  split at hrun
  · next a e hx =>
    cases hrun
    rw [hbuild, h s c a d hx]
  · cases hrun

end Reading

theorem Rule.spanned_read (start : Nat) : Spanned start Rule.span (Rule.read start) := by
  apply Spanned.bind
  intro head
  apply Spanned.bind
  intro body
  exact spanned_dotted fun _ => rfl

theorem UnitDeclaration.spanned_read (start : Nat) :
    Spanned start UnitDeclaration.span (UnitDeclaration.read start) := by
  apply Spanned.bind
  intro name
  apply Spanned.bind
  intro taken
  split
  · apply Spanned.bind
    intro parameters
    exact .bind (fun _ => spanned_dotted fun _ => rfl) _
  · exact spanned_dotted fun _ => rfl

namespace Statement

theorem spanned_readDirective (start : Nat) (name : String) :
    Spanned start Statement.span (readDirective start name) := by
  unfold readDirective
  split
  · exact (UnitDeclaration.spanned_read start).map fun _ => rfl
  · exact .bind (fun atom => spanned_dotted fun _ => rfl) _
  · apply Spanned.bind
    intro taken
    split
    · exact spanned_spanFrom fun _ => rfl
    · exact .bind (fun signature => spanned_dotted fun _ => rfl) _
  · exact .bind (fun signature => spanned_dotted fun _ => rfl) _
  · exact .bind (fun span => spanned_throw _) _

def readFrom (start : Nat) : Reading Statement := do
  match ← next? with
  | some (.directive name) =>
    advance
    readDirective start name
  | _ => return .rule (← Rule.read start)

theorem spanned_readFrom (start : Nat) : Spanned start Statement.span (readFrom start) := by
  apply Spanned.bind
  intro next
  split
  · exact .bind (fun _ => spanned_readDirective start _) _
  · exact (Rule.spanned_read start).map fun _ => rfl

theorem read_eq_readFrom (s : Source) (last : Option Token) (t : Token) (ts : List Token) :
    Statement.read s ⟨last, t :: ts⟩ = readFrom t.start s ⟨last, t :: ts⟩ :=
  rfl

/-- A statement is the result of a run, which leaves what stands behind the statement. -/
theorem run_of_outcome {source : Source} {ts : List Token} {statement : Statement}
    (h : outcome source ts = .ok statement) :
    ∃ c, Statement.read source ⟨none, ts⟩ = (.ok statement, c) ∧ (next source ts).2 = c.rest := by
  change ∃ c, (Statement.read source).run.run ⟨none, ts⟩ = (.ok statement, c) ∧ _
  unfold outcome at h
  unfold next at h ⊢
  generalize (Statement.read source).run.run ⟨none, ts⟩ = r at h ⊢
  obtain ⟨result, c⟩ := r
  cases result with
  | error d => cases h
  | ok a =>
    cases h
    exact ⟨c, rfl, rfl⟩

theorem span_of_outcome {source : Source} {first last : Token} {ts : List Token}
    {statement : Statement} (h : outcome source (first :: ts) = .ok statement)
    (hrest : (next source (first :: ts)).2 = []) (hlast : (first :: ts).getLast? = some last)
    (hle : first.start ≤ last.stop) :
    statement.span = Span.locate source first.start last.stop := by
  obtain ⟨c, hrun, hc⟩ := run_of_outcome h
  obtain ⟨taken, htaken, hcursor⟩ := moves_read source ⟨none, first :: ts⟩
  rw [hrun] at htaken hcursor
  simp only at htaken hcursor
  rw [← hc, hrest, List.append_nil] at htaken
  rw [← htaken, hlast, Option.or_none] at hcursor
  rw [read_eq_readFrom] at hrun
  rw [spanned_readFrom first.start source _ statement c hrun, hcursor, Option.elim_some,
    Nat.max_eq_right hle]

end Statement

namespace Program

open Token Statement

variable {source : Source} {tokens : List Token} {p : Program}

theorem statements_eq (h : ofTokens source tokens = .ok p) :
    p.statements = (chunks tokens).filterMap fun chunk => (outcome source chunk).toOption := by
  calc p.statements = (p.statements.map Except.ok).filterMap
          (fun o : Except Diagnostic Statement => o.toOption) := by
        rw [List.filterMap_map]
        exact List.filterMap_some.symm
    _ = ((chunks tokens).map (outcome source)).filterMap Except.toOption := by
        rw [(outcomes_of_eq_ok source h).2.2]
    _ = (chunks tokens).filterMap fun chunk => (outcome source chunk).toOption :=
        List.filterMap_map

theorem toOption_outcome_eq_some_iff {chunk : List Token} {statement : Statement} :
    (outcome source chunk).toOption = some statement ↔ outcome source chunk = .ok statement := by
  cases outcome source chunk <;> simp [Except.toOption]

end Program

end AnswerSetTest
