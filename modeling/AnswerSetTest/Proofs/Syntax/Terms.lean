import AnswerSetTest.Proofs.Syntax.InStep

/-!
# Terms and literals in step

Terms have no spans, so their readings give the same results from any tokens of the same kinds.
The readings look at most one token ahead, and never beyond the dot.
-/

namespace AnswerSetTest

open Reading

namespace Sides

variable {w : Sides} {k : Nat}

theorem inStep_list {α : Type} {sep : Reading Bool} {kinds : List Token.Kind}
    (hsep : Separates sep kinds) {item item' : Reading α}
    (hitem : ∀ j ≤ k, w.InStep j item item' Eq) :
    w.InStep k (separated sep item) (separated sep item') Eq :=
  (inStep_separated hsep hitem).imp fun as bs h => by rwa [List.forall₂_eq_eq_eq] at h

section Term

open Term

variable {term term' : Reading Term}

theorem inStep_readAlternatives (hterm : ∀ j ≤ k, w.InStep j term term' Eq) :
    w.InStep k (readAlternatives term) (readAlternatives term') Eq := by
  refine inStep_list (separates_take? (by simp)) fun j hj => relates_next fun kind => ?_
  split
  · exact (inStep_pure rfl).sees
  · exact (inStep_pure rfl).sees
  · exact (inStep_list (separates_take? (by simp)) fun i hi => hterm i (Nat.le_trans hi hj)).sees

theorem inStep_closed {α β : Type} {args args' : Reading α} {f : α → β}
    (h : w.InStep k args args' Eq) :
    w.InStep k (do let a ← args; expect .rightParen "')'"; return f a)
      (do let a ← args'; expect .rightParen "')'"; return f a) Eq := by
  refine h.bind_eq fun a => ?_
  exact (inStep_expect (by simp) _).bind fun _ _ _ => inStep_pure rfl

/-- The terms inside a primary term stand behind a parenthesis. -/
theorem inStep_readPrimary (hterm : ∀ j < k, w.InStep j term term' Eq) :
    w.InStep k (readPrimary term) (readPrimary term') Eq := by
  refine relates_next fun kind => ?_
  rcases kind with _ | kind
  · exact (relates_unexpected _).sees
  cases kind with
  | number n => exact inStep_advance (by simp) fun _ _ => inStep_pure rfl
  | text s => exact inStep_advance (by simp) fun _ _ => inStep_pure rfl
  | «variable» v => exact inStep_advance (by simp) fun _ _ => inStep_pure rfl
  | identifier name =>
    refine inStep_advance (by simp) fun j hj => ?_
    refine (separates_take? (by simp)).inStep (fun i hi => ?_) (inStep_pure rfl)
    exact inStep_closed (inStep_readAlternatives fun l hl => hterm l (by omega))
  | call name =>
    refine inStep_advance (by simp) fun j hj => ?_
    refine (separates_take? (by simp)).inStep (fun i hi => ?_) (inStep_pure rfl)
    refine (separates_take? (by simp)).inStep (fun _ _ => inStep_pure rfl) ?_
    exact inStep_closed (inStep_list (separates_take? (by simp)) fun l hl => hterm l (by omega))
  | leftParen =>
    refine inStep_advance (by simp) fun j hj => ?_
    refine (inStep_readAlternatives fun l hl => hterm l (by omega)).bind_eq fun a => ?_
    refine (inStep_expect (by simp) _).bind fun _ _ _ => ?_
    split <;> exact inStep_pure rfl
  | _ => exact (relates_unexpected _).sees

/-- The depths do not matter if they are greater than the number of tokens before the dot. -/
theorem inStep_readWithin {n n' : Nat} (hn : k < n) (hn' : k < n') :
    w.InStep k (readWithin n) (readWithin n') Eq := by
  induction n generalizing k n' with
  | zero => exact absurd hn (Nat.not_lt_zero k)
  | succ n ih =>
    cases n' with
    | zero => exact absurd hn' (Nat.not_lt_zero k)
    | succ n' =>
      have hterm : ∀ j < k, w.InStep j (readWithin n) (readWithin n') Eq :=
        fun j hj => ih (by omega) (by omega)
      refine (inStep_readPrimary hterm).bind_eq fun low => ?_
      refine (separates_take? (by simp)).inStep (fun j hj => ?_) (inStep_pure rfl)
      refine (inStep_readPrimary fun i hi => hterm i (by omega)).bind_eq fun high => ?_
      exact inStep_pure rfl

theorem inStep_term : w.InStep k Term.read Term.read Eq :=
  relates_length fun _ hj _ _ hn hn' =>
    (inStep_readWithin (Nat.lt_succ_of_le hn) (Nat.lt_succ_of_le hn')).mono hj

theorem inStep_requireAtom (t : Term) :
    w.InStep k (requireAtom t) (requireAtom t) fun _ _ => True := by
  intro c d hcd
  have hrequire : ∀ (s : Source) (c : Cursor), requireAtom t s c =
      if t.isAtom then (.ok (), c) else
        (.error ⟨.parse, .notAnAtom, some (Span.locate s (c.last.elim 0 Token.start)
          (c.last.elim 0 Token.start))⟩, c) := by
    intro s c
    unfold requireAtom
    by_cases h : t.isAtom
    · rw [if_pos h, if_pos h]
      rfl
    · rw [if_neg h, if_neg h]
      rcases c with ⟨_ | _, _⟩ <;> rfl
  rw [hrequire, hrequire]
  split
  · exact .ok ⟨trivial, hcd⟩
  · exact .error ⟨rfl, fun he => by rw [w.source_eq he, hcd.last he]⟩ hcd

theorem inStep_readAtom : w.InStep k readAtom readAtom Eq := by
  refine inStep_term.bind_eq fun t => ?_
  exact (inStep_requireAtom t).bind fun _ _ _ => inStep_pure rfl

end Term

theorem inStep_readElements : w.InStep k readElements readElements Eq := by
  refine (separates_take? (by simp)).inStep (fun _ _ => inStep_pure rfl) ?_
  refine (inStep_list (separates_take? (by simp)) fun _ _ => inStep_readAtom).bind_eq
    fun as => ?_
  exact (inStep_expect (by simp) _).bind fun _ _ _ => inStep_pure rfl

theorem inStep_signature : w.InStep k Signature.read Signature.read Eq := by
  refine (inStep_identifier _).bind_eq fun name => ?_
  refine (inStep_expect (by simp) _).bind fun _ _ _ => relates_next fun kind => ?_
  split
  · split
    · exact (relates_unexpected _).sees
    · exact inStep_advance (by simp) fun _ _ => inStep_pure rfl
  · exact (relates_unexpected _).sees

section Literal

open Literal

/-- The token behind `not` is the dot or stands before it. -/
theorem relates_isNegation {α : Type} {Q : α → α → Cursor → Cursor → Prop} {f g : Bool → Reading α}
    (htrue : w.Relates (w.Sees k (some (.identifier "not"))) (f true) (g true) Q)
    (hfalse : w.Relates (w.Before k) (f false) (g false) Q) :
    w.Relates (w.Before k) (isNegation >>= f) (isNegation >>= g) Q := by
  have hneg : ∀ (s : Source) (last : Option Token) (t : Token) (ts : List Token),
      isNegation s ⟨last, t :: ts⟩ = (.ok (decide (t.kind = .identifier "not") &&
        !isAfterName (ts.head?.map Token.kind)), ⟨last, t :: ts⟩) := fun _ _ _ _ => rfl
  rintro ⟨last, rest⟩ ⟨last', rest'⟩ ⟨hlast, hrest⟩
  have hcd : w.Before k ⟨last, rest⟩ ⟨last', rest'⟩ := ⟨hlast, hrest⟩
  rw [bind_apply, bind_apply]
  cases hrest with
  | finish => exact hfalse _ _ hcd
  | dot _ ht hdot =>
    rw [hneg, hneg, ← ht.image, hdot]
    exact hfalse _ _ hcd
  | @token t u ts us _ ht _ hs =>
    rw [hneg, hneg, ← ht.image, ← hs.head_eq]
    cases hnot : decide (t.kind = .identifier "not") && !isAfterName (ts.head?.map Token.kind) with
    | true =>
      have hkind : t.kind = .identifier "not" := by simp at hnot; exact hnot.1
      exact htrue _ _ ⟨hcd, congrArg some hkind⟩
    | false => exact hfalse _ _ hcd

theorem inStep_readCount : w.InStep k readCount readCount Eq := by
  refine inStep_readElements.bind_eq fun as => ?_
  refine inStep_comparison?.bind_eq fun op => ?_
  split
  · refine inStep_term.bind_eq fun bound => ?_
    exact inStep_pure rfl
  · exact relates_unexpected _

theorem inStep_literal : w.InStep k Literal.read Literal.read Eq := by
  refine relates_isNegation ?_ ?_
  · refine inStep_advance (by simp) fun _ _ => inStep_readAtom.bind_eq fun t => ?_
    exact inStep_pure rfl
  · refine (inStep_take? (by simp)).bind fun _ _ _ => ?_
    refine (separates_take? (by simp)).inStep (fun _ _ => inStep_readCount) ?_
    refine inStep_term.bind_eq fun t => ?_
    refine inStep_comparison?.bind_eq fun op => ?_
    split
    · refine inStep_term.bind_eq fun right => ?_
      exact inStep_pure rfl
    · exact (inStep_requireAtom t).bind fun _ _ _ => inStep_pure rfl

end Literal

end Sides

end AnswerSetTest
