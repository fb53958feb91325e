import AnswerSetTest.Proofs.Ground.Rounds

/-!
# Replayed answers

An answer that is kept is never replaced. What a rule's comparisons have been given on the way can
therefore be read off the answers kept at the end, and with these the search for matches can be
repeated without a handler.
-/

namespace AnswerSetTest

variable {σ : Type} {handler : Handler σ} {s t u : Scratch σ}

namespace Scratch

/-- The second state keeps the answers of the first. -/
instance : LE (Scratch σ) :=
  ⟨fun s t => ∀ (key : CallKey) value, s.answers[key]? = some value → t.answers[key]? = some value⟩

theorem le_refl (s : Scratch σ) : s ≤ s := fun _ _ h => h

theorem le_trans (hst : s ≤ t) (htu : t ≤ u) : s ≤ u :=
  fun key value h => htu key value (hst key value h)

theorem le_of_answers (h : t.answers = s.answers) : s ≤ t := fun _ _ hkept => h ▸ hkept

theorem le_insert {key : CallKey} (h : s.answers[key]? = none) (w : σ) (value : Symbol) :
    s ≤ ⟨w, s.answers.insert key value⟩ := by
  intro key' value' hkept
  have hne : key ≠ key' := by
    rintro rfl
    rw [h] at hkept
    cases hkept
  rw [Std.HashMap.getElem?_insert, if_neg (by simpa using hne)]
  exact hkept

/-- Answers that go on from those kept for a rule. -/
def Continues (s : Scratch σ) (rule : Nat) (given : String → List Symbol → Except String Symbol) :
    Prop :=
  ∀ name args value, s.answers[(⟨rule, name, args⟩ : CallKey)]? = some value →
    given name args = .ok value

theorem Consistent.continues {answer : String → List Symbol → Except String Symbol}
    (h : s.Consistent answer) (rule : Nat) : s.Continues rule answer :=
  fun _ _ value hkept => h _ value hkept

end Scratch

section Computations

variable {ε α β : Type} {x : ExceptT ε (StateM (Scratch σ)) α} {last : Scratch σ} {Q : α → Prop}

def Grows (x : ExceptT ε (StateM (Scratch σ)) α) : Prop := ∀ s, s ≤ (x s).2

theorem Grows.le (h : Grows x) {a : Except ε α} (hrun : x s = (a, t)) : s ≤ t := by
  have hs := h s
  rwa [hrun] at hs

theorem Grows.keeps (h : Grows x) (s : Scratch σ) : Keeps (s ≤ ·) x :=
  fun t hst => Scratch.le_trans hst (h t)

theorem Grows.bind {f : α → ExceptT ε (StateM (Scratch σ)) β} (hx : Grows x)
    (hf : ∀ a, Grows (f a)) : Grows (x >>= f) :=
  fun s => ((hx.keeps s).bind fun a => (hf a).keeps s) s s.le_refl

theorem Grows.congruent :
    Congruent fun {ε α} (x _ : ExceptT ε (StateM (Scratch σ)) α) => Grows x where
  of_pure _ := Scratch.le_refl
  of_throw _ := Scratch.le_refl
  bind hx hf := hx.bind hf
  adapt {_ _ _ _ _ _} hx := hx

/-- Whenever `x` succeeds, and the answers that are kept then are among the last ones, its value has
a property. -/
def Ensures (last : Scratch σ) (x : ExceptT ε (StateM (Scratch σ)) α) (Q : α → Prop) : Prop :=
  ∀ s a t, x s = (.ok a, t) → t ≤ last → Q a

namespace Ensures

theorem of_pure {a : α} (h : Q a) : Ensures last (pure a : ExceptT ε (StateM (Scratch σ)) α) Q := by
  intro s b t hrun _
  cases hrun
  exact h

theorem of_throw {e : ε} : Ensures last (throw e : ExceptT ε (StateM (Scratch σ)) α) Q := by
  intro s b t hrun _
  cases hrun

theorem mono {Q' : α → Prop} (hx : Ensures last x Q) (h : ∀ a, Q a → Q' a) : Ensures last x Q' :=
  fun s a t hrun ht => h a (hx s a t hrun ht)

theorem bind {f : α → ExceptT ε (StateM (Scratch σ)) β} {Q' : β → Prop} (hx : Ensures last x Q)
    (hgrows : ∀ a, Grows (f a)) (hf : ∀ a, Q a → Ensures last (f a) Q') :
    Ensures last (x >>= f) Q' := by
  intro s b u hrun hu
  obtain ⟨a, t, ha, hb⟩ := Returns.bind_eq_ok hrun
  exact hf a (hx s a t ha (Scratch.le_trans ((hgrows a).le hb) hu)) t b u hb hu

theorem adapt {δ : Type} (f : ε → δ) (hx : Ensures last x Q) :
    Ensures last (ExceptT.adapt f x) Q :=
  fun s a t hrun ht => hx s a t (Returns.adapt_eq_ok hrun) ht

theorem trivial : Ensures last x fun _ => True := fun _ _ _ _ _ => True.intro

end Ensures

/-- Whenever `x` succeeds with answers among the last ones, `y` succeeds with the same value. -/
structure Replays (last : Scratch σ) (x : ExceptT ε (StateM (Scratch σ)) α)
    (y : ExceptT ε (StateM Unit) α) : Prop where
  grows : Grows x
  replay : Ensures last x fun a => (y ()).1 = .ok a

theorem Replays.congruent (last : Scratch σ) : Congruent (Replays last) where
  of_pure _ := ⟨Scratch.le_refl, .of_pure rfl⟩
  of_throw _ := ⟨Scratch.le_refl, .of_throw⟩
  bind {_ _ _ _ y _ _} hx hf := by
    refine ⟨hx.grows.bind fun a => (hf a).grows,
      hx.replay.bind (fun a => (hf a).grows) fun a ha => (hf a).replay.mono fun b hb => ?_⟩
    have hy : y () = (.ok a, ()) := Prod.ext ha rfl
    rw [Returns.bind_eq_of_ok hy]
    exact hb
  adapt {_ _ _ f _ _} hxy := by
    refine ⟨hxy.grows, (hxy.replay.adapt f).mono fun a ha => ?_⟩
    change Except.mapError f _ = _
    rw [ha]
    rfl

end Computations

namespace Grounding

variable {last : Scratch σ} {rule : Nat} {given : String → List Symbol → Except String Symbol}

theorem grows_answer (name : String) (args : List Symbol) : Grows (answer handler name args) :=
  fun s => Scratch.le_of_answers (answers_answer name args s)

theorem grows_answerOnce (rule : Nat) (name : String) (args : List Symbol) :
    Grows (answerOnce handler rule name args) := by
  intro s
  obtain ⟨value, -, hrun⟩ | ⟨hnone, ⟨message, w, -, hrun⟩ | ⟨value, w, -, hrun⟩⟩ :=
    answerOnce_cases (h := handler) rule name args s
  · rw [hrun]
    exact s.le_refl
  · rw [hrun]
    exact s.le_refl
  · rw [hrun]
    exact Scratch.le_insert hnone w value

theorem replays_answerOnce (hgiven : last.Continues rule given) (name : String)
    (args : List Symbol) :
    Replays last (answerOnce handler rule name args) (Term.fixed given name args) := by
  have hfixed : ∀ value, last.answers[(⟨rule, name, args⟩ : CallKey)]? = some value →
      (Term.fixed given name args ()).1 = .ok value := by
    intro value hkept
    rw [Term.fixed, hgiven name args value hkept]
    rfl
  refine ⟨grows_answerOnce rule name args, fun s a t h ht => ?_⟩
  obtain ⟨value, hkept, hrun⟩ | ⟨-, ⟨message, w, -, hrun⟩ | ⟨value, w, -, hrun⟩⟩ :=
    answerOnce_cases (h := handler) rule name args s
  · cases hrun.symm.trans h
    exact hfixed a (ht _ _ hkept)
  · cases hrun.symm.trans h
  · cases hrun.symm.trans h
    exact hfixed a (ht _ _ Std.HashMap.getElem?_insert_self)

theorem ensures_findMatches (r : Rule) (known : List Symbol) :
    Ensures last (r.findMatches (answerOnce handler rule) known) fun found =>
      ∀ given, last.Continues rule given → r.matchesBy given known = .ok found :=
  fun s found t h ht _ hgiven =>
    ((Replays.congruent last).findMatches (replays_answerOnce hgiven) known r).replay s found t h ht

end Grounding

end AnswerSetTest
