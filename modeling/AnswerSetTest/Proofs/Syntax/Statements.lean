import AnswerSetTest.Proofs.Syntax.Terms

/-!
# Statements in step

A statement takes the tokens through the first dot and no other. Besides spans, it depends on the
kinds of these tokens only.
-/

namespace AnswerSetTest

def Rule.unspanned (r : Rule) : Rule := { r with span := default }

def Parameter.unspanned (p : Parameter) : Parameter := { p with span := default }

def UnitDeclaration.unspanned (d : UnitDeclaration) : UnitDeclaration :=
  { d with parameters := d.parameters.map Parameter.unspanned, span := default }

def Statement.unspanned : Statement → Statement
  | .unit d => .unit d.unspanned
  | .rule r => .rule r.unspanned
  | .external atom _ => .external atom default
  | .showing signature _ => .showing signature default
  | .defined signature _ => .defined signature default

open Reading

namespace Sides

variable {w : Sides} {k : Nat}

theorem inStep_head : w.InStep k Head.read Head.read Eq := by
  refine relates_next fun kind => ?_
  split
  · exact (inStep_pure rfl).sees
  · refine Relates.sees ((separates_take? (by simp)).inStep (fun _ _ => ?_) ?_)
    · refine inStep_readElements.bind_eq fun as => ?_
      exact inStep_pure rfl
    · refine inStep_readAtom.bind_eq fun t => ?_
      refine (separates_take? (by simp)).inStep (fun _ _ => ?_) (inStep_pure rfl)
      refine (inStep_list (separates_take? (by simp)) fun _ _ => inStep_readAtom).bind_eq
        fun as => ?_
      exact inStep_pure rfl

theorem inStep_readBody : w.InStep k readBody readBody Eq := by
  refine (separates_take? (by simp)).inStep (fun _ _ => ?_) (inStep_pure rfl)
  refine relates_next fun kind => ?_
  split
  · exact (inStep_pure rfl).sees
  · exact (inStep_list (Separates.or (by simp) (by simp)) fun _ _ => inStep_literal).sees

/-- What ends with the dot at which the tokens were cut. -/
def Closes (w : Sides) (k : Nat) {α β : Type} (x y : Reading α) (f : α → β) : Prop :=
  w.Relates (w.Before k) x y fun a b c d => SameUpTo f w.exact a b ∧ w.Behind c d

theorem closes_spanned {α β : Type} {start start' : Nat} (hstart : w.exact → start = start')
    (what : String) {f : α → β} {g g' : Span → α} (hf : ∀ l m, f (g l) = f (g' m))
    (hg : w.exact → g = g') :
    w.Closes k (do expect .dot what; return g (← spanFrom start))
      (do expect .dot what; return g' (← spanFrom start')) f := by
  refine (relates_expect_dot what).bind fun _ _ => ?_
  refine (relates_spanFrom (fun _ _ h => h.last) hstart).bind fun l m => ?_
  exact relates_pure fun c d h => ⟨⟨hf l m, fun he => by rw [hg he, h.1 he]⟩, h.2⟩

theorem Closes.map {α β γ δ : Type} {x y : Reading α} {f : α → β} {g : γ → δ} {build : α → γ}
    (h : w.Closes k x y f) (hbuild : ∀ a b, f a = f b → g (build a) = g (build b)) :
    w.Closes k (do return build (← x)) (do return build (← y)) g :=
  Relates.bind h fun a b => relates_pure fun _ _ hab =>
    ⟨⟨hbuild a b hab.1.image, fun he => by rw [hab.1.eq he]⟩, hab.2⟩

variable {start start' : Nat}

theorem closes_rule (hstart : w.exact → start = start') :
    w.Closes k (Rule.read start) (Rule.read start') Rule.unspanned := by
  refine inStep_head.bind_eq fun head => ?_
  refine inStep_readBody.bind_eq fun body => ?_
  exact closes_spanned hstart _ (fun _ _ => rfl) fun _ => rfl

theorem inStep_parameter :
    w.InStep k Parameter.read Parameter.read (SameUpTo Parameter.unspanned w.exact) := by
  refine inStep_position.bind fun start start' hstart => ?_
  refine (inStep_identifier _).bind_eq fun name => ?_
  refine (separates_take? (by simp)).inStep (fun _ _ => ?_) ?_
  · refine (inStep_list (separates_take? (by simp)) fun _ _ => inStep_term).bind_eq
      fun args => ?_
    refine (inStep_expect (by simp) _).bind fun _ _ _ => ?_
    refine (inStep_spanFrom hstart).bind fun l m hlm => ?_
    exact inStep_pure ⟨rfl, fun he => by rw [hlm he]⟩
  · refine (inStep_spanFrom hstart).bind fun l m hlm => ?_
    exact inStep_pure ⟨rfl, fun he => by rw [hlm he]⟩

theorem sameUpTo_map {α β : Type} {f : α → β} {exact : Prop} {as bs : List α}
    (h : List.Forall₂ (SameUpTo f exact) as bs) : SameUpTo (List.map f) exact as bs := by
  induction h with
  | nil => exact ⟨rfl, fun _ => rfl⟩
  | cons hab _ ih =>
    exact ⟨by rw [List.map_cons, List.map_cons, hab.image, ih.image],
      fun he => by rw [hab.eq he, ih.eq he]⟩

theorem closes_unitDeclaration (hstart : w.exact → start = start') :
    w.Closes k (UnitDeclaration.read start) (UnitDeclaration.read start')
      UnitDeclaration.unspanned := by
  refine (inStep_identifier _).bind_eq fun name => ?_
  have hclose : ∀ j ps qs, SameUpTo (List.map Parameter.unspanned) w.exact ps qs →
      w.Closes j (do expect .dot "'.'"; return ⟨name, ps, ← spanFrom start⟩)
        (do expect .dot "'.'"; return ⟨name, qs, ← spanFrom start'⟩)
        UnitDeclaration.unspanned := by
    intro j ps qs hps
    refine closes_spanned hstart _ (fun l m => ?_) fun he => by rw [hps.eq he]
    simp only [UnitDeclaration.unspanned, hps.image]
  refine (separates_take? (by simp)).relates (fun j _ => ?_) (hclose k [] [] ⟨rfl, fun _ => rfl⟩)
  refine (inStep_separated (separates_take? (by simp)) fun _ _ => inStep_parameter).bind
    fun ps qs hps => ?_
  exact (inStep_expect (by simp) _).bind fun _ _ _ => hclose j ps qs (sameUpTo_map hps)

section Statement

open Statement

theorem closes_readDirective (hstart : w.exact → start = start') (name : String) :
    w.Closes k (readDirective start name) (readDirective start' name) unspanned := by
  unfold readDirective
  split
  · exact (closes_unitDeclaration hstart).map fun _ _ h => congrArg Statement.unit h
  · refine inStep_readAtom.bind_eq fun t => ?_
    exact closes_spanned hstart _ (fun _ _ => rfl) fun _ => rfl
  · refine relates_take?_dot ?_ ?_
    · refine (relates_spanFrom (fun _ _ h => h.last) hstart).bind fun l m => ?_
      exact relates_pure fun c d h => ⟨⟨rfl, fun he => by rw [h.1 he]⟩, h.2⟩
    · refine inStep_signature.bind_eq fun s => ?_
      exact closes_spanned hstart _ (fun _ _ => rfl) fun _ => rfl
  · refine inStep_signature.bind_eq fun s => ?_
    exact closes_spanned hstart _ (fun _ _ => rfl) fun _ => rfl
  · refine (inStep_spanFrom hstart).bind fun l m hlm => ?_
    exact relates_throw ⟨rfl, fun he => by rw [hlm he]⟩

/-- A statement that is read takes the dot, and one that is not leaves it. -/
theorem closes_statement : w.Closes k Statement.read Statement.read unspanned := by
  refine inStep_position.bind fun start start' hstart => relates_next fun kind => ?_
  split
  · exact relates_advance (by simp) fun _ _ => closes_readDirective hstart _
  · exact Relates.sees ((closes_rule hstart).map fun _ _ h => congrArg Statement.rule h)

end Statement

end Sides

end AnswerSetTest
