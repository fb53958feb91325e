import AnswerSetTest.Ground.Instantiation

/-!
# Outcomes

What holds of the value of an evaluation whenever it succeeds, whatever state it starts in, and
whether it succeeds from states with a property that it keeps.
-/

namespace AnswerSetTest

/-- Whenever `x` succeeds, its value has a property. -/
def Returns {ε σ α : Type} (x : ExceptT ε (StateM σ) α) (P : α → Prop) : Prop :=
  ∀ s a s', x s = (.ok a, s') → P a

namespace Returns

variable {ε σ α β : Type} {P : α → Prop} {Q : β → Prop}

theorem of_pure {a : α} (h : P a) : Returns (pure a : ExceptT ε (StateM σ) α) P := by
  intro s b s' hrun
  cases hrun
  exact h

theorem of_throw {e : ε} : Returns (throw e : ExceptT ε (StateM σ) α) P := by
  intro s b s' hrun
  cases hrun

theorem bind_eq_ok {x : ExceptT ε (StateM σ) α} {f : α → ExceptT ε (StateM σ) β} {s s' : σ} {b : β}
    (h : (x >>= f) s = (.ok b, s')) : ∃ a t, x s = (.ok a, t) ∧ f a t = (.ok b, s') := by
  change ExceptT.bindCont f (x s).1 (x s).2 = (.ok b, s') at h
  cases hx : x s with
  | mk r t =>
    rw [hx] at h
    cases r with
    | ok a => exact ⟨a, t, rfl, h⟩
    | error e => cases h

theorem bind_eq_of_ok {x : ExceptT ε (StateM σ) α} {f : α → ExceptT ε (StateM σ) β} {s t : σ}
    {a : α} (h : x s = (.ok a, t)) : (x >>= f) s = f a t := by
  change ExceptT.bindCont f (x s).1 (x s).2 = f a t
  rw [h]
  rfl

theorem bind_eq_of_error {x : ExceptT ε (StateM σ) α} {f : α → ExceptT ε (StateM σ) β} {s t : σ}
    {e : ε} (h : x s = (.error e, t)) : (x >>= f) s = (.error e, t) := by
  change ExceptT.bindCont f (x s).1 (x s).2 = (.error e, t)
  rw [h]
  rfl

theorem adapt_eq_ok {δ : Type} {f : ε → δ} {x : ExceptT ε (StateM σ) α} {s s' : σ} {a : α}
    (h : ExceptT.adapt f x s = (.ok a, s')) : x s = (.ok a, s') := by
  change ((x s).1.mapError f, (x s).2) = _ at h
  cases hx : x s with
  | mk r t =>
    rw [hx] at h
    cases r with
    | ok b =>
      cases h
      rfl
    | error e => cases h

theorem adapt_eq_of_ok {δ : Type} {f : ε → δ} {x : ExceptT ε (StateM σ) α} {s s' : σ} {a : α}
    (h : x s = (.ok a, s')) : ExceptT.adapt f x s = (.ok a, s') := by
  change ((x s).1.mapError f, (x s).2) = _
  rw [h]
  rfl

theorem bind {x : ExceptT ε (StateM σ) α} {f : α → ExceptT ε (StateM σ) β} (hx : Returns x P)
    (hf : ∀ a, P a → Returns (f a) Q) : Returns (x >>= f) Q := by
  intro s b s' hrun
  obtain ⟨a, t, ha, hb⟩ := bind_eq_ok hrun
  exact hf a (hx s a t ha) t b s' hb

theorem bind_congr {x : ExceptT ε (StateM σ) α} {f g : α → ExceptT ε (StateM σ) β}
    (hx : Returns x P) (h : ∀ a, P a → f a = g a) : x >>= f = x >>= g := by
  funext s
  cases hrun : x s with
  | mk r t =>
    cases r with
    | ok a => rw [bind_eq_of_ok hrun, bind_eq_of_ok hrun, h a (hx s a t hrun)]
    | error e => rw [bind_eq_of_error hrun, bind_eq_of_error hrun]

theorem mono {x : ExceptT ε (StateM σ) α} {P' : α → Prop} (hx : Returns x P)
    (h : ∀ a, P a → P' a) : Returns x P' :=
  fun s a s' hrun => h a (hx s a s' hrun)

theorem and {x : ExceptT ε (StateM σ) α} {P' : α → Prop} (hx : Returns x P) (hx' : Returns x P') :
    Returns x fun a => P a ∧ P' a :=
  fun s a s' hrun => ⟨hx s a s' hrun, hx' s a s' hrun⟩

theorem of_fst {x : ExceptT ε (StateM Unit) α} {a : α} (hx : Returns x P)
    (hrun : (x ()).1 = .ok a) : P a :=
  hx () a () (Prod.ext hrun rfl)

theorem trivial {x : ExceptT ε (StateM σ) α} : Returns x fun _ => True := fun _ _ _ _ => True.intro

end Returns

theorem Grounding.locate_eq_ok {σ α : Type} {span : Span} {x : Term.Evaluation (Scratch σ) α}
    {s s' : Scratch σ} {a : α} (h : Grounding.locate span x s = (.ok a, s')) :
    x s = (.ok a, s') :=
  Returns.adapt_eq_ok h

theorem Grounding.locate_eq_of_ok {σ α : Type} {span : Span} {x : Term.Evaluation (Scratch σ) α}
    {s s' : Scratch σ} {a : α} (h : x s = (.ok a, s')) :
    Grounding.locate span x s = (.ok a, s') :=
  Returns.adapt_eq_of_ok h

theorem Returns.locate {σ α : Type} {span : Span} {x : Term.Evaluation (Scratch σ) α}
    {P : α → Prop} (hx : Returns x P) : Returns (Grounding.locate span x) P :=
  fun s a s' h => hx s a s' (Grounding.locate_eq_ok h)

/-- From states with `P`, `x` succeeds just if `ok`, its value has `Q`, and `P` holds afterwards. -/
def Yields {ε σ α : Type} (P : σ → Prop) (x : ExceptT ε (StateM σ) α) (ok : Prop) (Q : α → Prop) :
    Prop :=
  ∀ s, P s → P (x s).2 ∧ match (x s).1 with
    | .ok a => ok ∧ Q a
    | .error _ => ¬ ok

namespace Yields

variable {ε σ α β : Type} {P : σ → Prop} {ok ok' : Prop} {Q : α → Prop} {Q' : β → Prop}
  {x : ExceptT ε (StateM σ) α}

theorem of_pure {a : α} (hok : ok) (h : Q a) : Yields P (pure a : ExceptT ε (StateM σ) α) ok Q :=
  fun _ hs => ⟨hs, hok, h⟩

theorem of_throw {e : ε} (h : ¬ ok) : Yields P (throw e : ExceptT ε (StateM σ) α) ok Q :=
  fun _ hs => ⟨hs, h⟩

theorem bind {f : α → ExceptT ε (StateM σ) β} (hx : Yields P x ok Q)
    (hf : ∀ a, ok → Q a → Yields P (f a) ok' Q') (himp : ok' → ok) :
    Yields P (x >>= f) ok' Q' := by
  intro s hs
  obtain ⟨hstate, hval⟩ := hx s hs
  change P (ExceptT.bindCont f (x s).1 (x s).2).2 ∧
    match (ExceptT.bindCont f (x s).1 (x s).2).1 with
    | .ok b => ok' ∧ Q' b
    | .error _ => ¬ ok'
  cases hr : (x s).1 with
  | ok a =>
    rw [hr] at hval
    exact hf a hval.1 hval.2 _ hstate
  | error e =>
    rw [hr] at hval
    exact ⟨hstate, fun hok => hval (himp hok)⟩

theorem congr {Q₁ : α → Prop} (h : Yields P x ok Q) (hok : ok ↔ ok') (hQ : ∀ a, Q a → Q₁ a) :
    Yields P x ok' Q₁ := by
  intro s hs
  obtain ⟨hstate, hval⟩ := h s hs
  refine ⟨hstate, ?_⟩
  cases hr : (x s).1 with
  | ok a =>
    rw [hr] at hval
    exact ⟨hok.1 hval.1, hQ a hval.2⟩
  | error e =>
    rw [hr] at hval
    exact fun h => hval (hok.2 h)

theorem of_ok (h : Yields P x ok Q) {s s' : σ} {a : α} (hs : P s) (hrun : x s = (.ok a, s')) :
    ok ∧ Q a := by
  have hval := (h s hs).2
  rwa [hrun] at hval

theorem isOk_iff (h : Yields P x ok Q) {s : σ} (hs : P s) : (x s).1.isOk ↔ ok := by
  have hval := (h s hs).2
  cases hr : (x s).1 with
  | ok a =>
    rw [hr] at hval
    exact iff_of_true rfl hval.1
  | error e =>
    rw [hr] at hval
    exact iff_of_false Bool.false_ne_true hval

theorem locate {span : Span} {σ : Type} {P : Scratch σ → Prop}
    {x : Term.Evaluation (Scratch σ) α} (h : Yields P x ok Q) :
    Yields P (Grounding.locate span x) ok Q := by
  intro s hs
  obtain ⟨hstate, hval⟩ := h s hs
  have hrun : (Grounding.locate span x s).1 = (x s).1.mapError (GroundFault.rule span) := rfl
  refine ⟨hstate, ?_⟩
  rw [hrun]
  cases hr : (x s).1 with
  | ok a =>
    rw [hr] at hval
    exact hval
  | error e =>
    rw [hr] at hval
    exact hval

end Yields

end AnswerSetTest
