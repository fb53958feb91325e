import AnswerSetTest.Ground.Instantiation

/-!
# Congruence

Evaluation, matching and instantiation put computations in sequence and leave all else to the
answers of calls. A relation between computations that sequencing keeps therefore relates whole
groundings as soon as it relates the answers.
-/

namespace AnswerSetTest

/-- A relation between computations that relates equal results and equal faults, and that is kept
by sequencing and by changing faults. -/
structure Congruent {σ τ : Type}
    (ρ : {ε α : Type} → ExceptT ε (StateM σ) α → ExceptT ε (StateM τ) α → Prop) : Prop where
  of_pure : ∀ {ε α : Type} (a : α),
    ρ (pure a : ExceptT ε (StateM σ) α) (pure a : ExceptT ε (StateM τ) α)
  of_throw : ∀ {ε α : Type} (e : ε),
    ρ (throw e : ExceptT ε (StateM σ) α) (throw e : ExceptT ε (StateM τ) α)
  bind : ∀ {ε α β : Type} {x : ExceptT ε (StateM σ) α} {y : ExceptT ε (StateM τ) α}
    {f : α → ExceptT ε (StateM σ) β} {g : α → ExceptT ε (StateM τ) β},
    ρ x y → (∀ a, ρ (f a) (g a)) → ρ (x >>= f) (y >>= g)
  adapt : ∀ {ε δ α : Type} (f : ε → δ) {x : ExceptT ε (StateM σ) α} {y : ExceptT ε (StateM τ) α},
    ρ x y → ρ (ExceptT.adapt f x) (ExceptT.adapt f y)

namespace Congruent

section Evaluation

open Term (Evaluation)

variable {σ τ : Type} {ρ : {ε α : Type} → ExceptT ε (StateM σ) α → ExceptT ε (StateM τ) α → Prop}

theorem mapM (hρ : Congruent ρ) {ε α β : Type} {f : α → ExceptT ε (StateM σ) β}
    {g : α → ExceptT ε (StateM τ) β} (h : ∀ a, ρ (f a) (g a)) (as : List α) :
    ρ (as.mapM f) (as.mapM g) := by
  induction as with
  | nil => exact hρ.of_pure []
  | cons a as ih =>
    rw [List.mapM_cons, List.mapM_cons]
    exact hρ.bind (h a) fun b => hρ.bind ih fun bs => hρ.of_pure (b :: bs)

theorem foldlM (hρ : Congruent ρ) {ε α β : Type} {f : β → α → ExceptT ε (StateM σ) β}
    {g : β → α → ExceptT ε (StateM τ) β} (h : ∀ b a, ρ (f b a) (g b a)) (as : List α) (b : β) :
    ρ (as.foldlM f b) (as.foldlM g b) := by
  induction as generalizing b with
  | nil => exact hρ.of_pure b
  | cons a as ih =>
    rw [List.foldlM_cons, List.foldlM_cons]
    exact hρ.bind (h b a) ih

omit σ τ in
theorem ite {α β : Type} {r : α → β → Prop} {p : Prop} [Decidable p] {x x' : α} {y y' : β}
    (h : r x y) (h' : r x' y') : r (if p then x else x') (if p then y else y') := by
  split
  · exact h
  · exact h'

theorem singleNumber (hρ : Congruent ρ) (values : List Symbol) :
    ρ (Term.singleNumber values : Evaluation σ Int64) (Term.singleNumber values) := by
  unfold Term.singleNumber
  split
  · exact hρ.of_pure _
  · exact hρ.of_throw _

theorem requireAtoms (hρ : Congruent ρ) (values : List Symbol) :
    ρ (AnswerSetTest.requireAtoms values : Evaluation σ Unit)
      (AnswerSetTest.requireAtoms values) := by
  induction values with
  | nil => exact hρ.of_pure _
  | cons s values ih => exact ite ih (hρ.of_throw _)

variable {answer answerOnce : String → List Symbol → Evaluation σ Symbol}
  {answer' answerOnce' : String → List Symbol → Evaluation τ Symbol}

mutual

theorem eval (hρ : Congruent ρ) (h : ∀ name args, ρ (answer name args) (answer' name args))
    (b : Binding) : (t : Term) → ρ (t.eval answer b) (t.eval answer' b)
  | .number n => by
    rw [Term.eval, Term.eval]
    exact hρ.of_pure _
  | .text s => by
    rw [Term.eval, Term.eval]
    exact hρ.of_pure _
  | .variable v => by
    rw [Term.eval, Term.eval]
    cases b.get? v with
    | some s => exact hρ.of_pure _
    | none => exact hρ.of_throw _
  | .function name args => by
    rw [Term.eval, Term.eval]
    exact hρ.bind (evalAll hρ h b args) fun _ => hρ.of_pure _
  | .call name args => by
    rw [Term.eval, Term.eval]
    exact hρ.bind (evalAll hρ h b args) fun _ => hρ.mapM (h name) _
  | .interval low high => by
    rw [Term.eval, Term.eval]
    exact hρ.bind (eval hρ h b low) fun _ => hρ.bind (hρ.singleNumber _) fun _ =>
      hρ.bind (eval hρ h b high) fun _ => hρ.bind (hρ.singleNumber _) fun _ =>
        ite (hρ.of_throw _) (hρ.of_pure _)
  | .pool alternatives => by
    rw [Term.eval, Term.eval]
    exact hρ.bind (evalAll hρ h b alternatives) fun _ => hρ.of_pure _

theorem evalAll (hρ : Congruent ρ) (h : ∀ name args, ρ (answer name args) (answer' name args))
    (b : Binding) : (ts : List Term) → ρ (Term.evalAll answer b ts) (Term.evalAll answer' b ts)
  | [] => by
    rw [Term.evalAll, Term.evalAll]
    exact hρ.of_pure _
  | t :: ts => by
    rw [Term.evalAll, Term.evalAll]
    exact hρ.bind (eval hρ h b t) fun _ => hρ.bind (evalAll hρ h b ts) fun _ => hρ.of_pure _

end

variable (hρ : Congruent ρ) (h : ∀ name args, ρ (answer name args) (answer' name args))

include hρ h

theorem holds (c : Constraint) (b : Binding) : ρ (c.holds answer b) (c.holds answer' b) :=
  hρ.bind (hρ.eval h b c.left) fun _ => hρ.bind (hρ.eval h b c.right) fun _ => hρ.of_pure _

theorem keepOnto (c : Constraint) (before xs : List Match) :
    ρ (c.keepOnto answer before xs) (c.keepOnto answer' before xs) := by
  induction xs generalizing before with
  | nil => exact hρ.of_pure _
  | cons x xs ih => exact hρ.bind (hρ.holds h c x.binding) fun _ => ite (ih _) (ih _)

theorem bindOnto (v : String) (t : Term) (before xs : List Match) :
    ρ (Constraint.bindOnto answer v t before xs) (Constraint.bindOnto answer' v t before xs) := by
  induction xs generalizing before with
  | nil => exact hρ.of_pure _
  | cons x xs ih => exact hρ.bind (hρ.eval h x.binding t) fun _ => ih _

theorem sweep (ms : Matches) (cs : List Constraint) :
    ρ (Constraint.sweep answer ms cs) (Constraint.sweep answer' ms cs) := by
  induction cs generalizing ms with
  | nil => exact hρ.of_pure _
  | cons c cs ih =>
    rw [Constraint.sweep, Constraint.sweep]
    cases c.readiness ms.bound with
    | check => exact hρ.bind (hρ.keepOnto h c [] ms.found) fun _ => ih _
    | assign v t => exact hρ.bind (hρ.bindOnto h v t [] ms.found) fun _ => ih _
    | wait => exact hρ.bind (ih ms) fun _ => hρ.of_pure _

theorem settleUpTo (ms : Matches) (cs : List Constraint) (limit : Nat) :
    ρ (Constraint.settleUpTo answer ms cs limit) (Constraint.settleUpTo answer' ms cs limit) := by
  induction limit generalizing ms cs with
  | zero => exact hρ.of_pure _
  | succ limit ih => exact hρ.bind (hρ.sweep h ms cs) fun _ => ite (hρ.of_pure _) (ih _ _)

theorem matchesFrom (known : List Symbol) (ms : Matches) (cs : List Constraint)
    (atoms : List Term) :
    ρ (Rule.matchesFrom answer known ms cs atoms) (Rule.matchesFrom answer' known ms cs atoms) := by
  induction atoms generalizing ms cs with
  | nil =>
    cases cs with
    | nil => exact hρ.of_pure _
    | cons c cs => exact hρ.of_throw _
  | cons atom atoms ih =>
    rw [Rule.matchesFrom, Rule.matchesFrom]
    refine ite (hρ.of_throw _) ?_
    split
    · exact hρ.of_pure _
    · exact hρ.bind (hρ.settleUpTo h _ cs _) fun _ => ih _ _

theorem findMatches (known : List Symbol) (r : Rule) :
    ρ (r.findMatches answer known) (r.findMatches answer' known) :=
  hρ.bind (hρ.settleUpTo h _ r.constraints _) fun _ => hρ.matchesFrom h known _ _ _

theorem headAtoms (b : Binding) (before : List Symbol) (ts : List Term) :
    ρ (Instance.headAtoms answer b before ts) (Instance.headAtoms answer' b before ts) := by
  induction ts generalizing before with
  | nil => exact hρ.of_pure _
  | cons t ts ih =>
    exact hρ.bind (hρ.eval h b t) fun values => hρ.bind (hρ.requireAtoms values) fun _ => ih _

variable (ho : ∀ name args, ρ (answerOnce name args) (answerOnce' name args))

include ho

theorem addBody (b : Binding) (i : Instance) (body : List Literal) :
    ρ (Instance.addBody answer answerOnce b i body)
      (Instance.addBody answer' answerOnce' b i body) := by
  induction body generalizing i with
  | nil => exact hρ.of_pure _
  | cons l body ih =>
    cases l with
    | atom negated t =>
      cases negated with
      | true => exact hρ.bind (hρ.eval h b t) fun _ => ih _
      | false => exact ih i
    | comparison left op right => exact ih i
    | count elements op bound =>
      rw [Instance.addBody, Instance.addBody]
      refine hρ.bind (hρ.eval ho b bound) fun values => ?_
      split
      · exact ih _
      · exact hρ.of_throw _

theorem ofMatch (r : Rule) (x : Match) :
    ρ (Instance.ofMatch answer answerOnce r x) (Instance.ofMatch answer' answerOnce' r x) :=
  hρ.bind (hρ.headAtoms h x.binding [] r.head.atoms) fun _ =>
    hρ.addBody h ho x.binding _ r.body

end Evaluation

section Grounding

open Grounding (answer answerOnce Progress)

variable {σ τ : Type} {handler : Handler σ} {handler' : Handler τ}
  {ρ : {ε α : Type} → ExceptT ε (StateM (Scratch σ)) α → ExceptT ε (StateM (Scratch τ)) α → Prop}
  (hρ : Congruent ρ) (h : ∀ name args, ρ (answer handler name args) (answer handler' name args))

include hρ

theorem locate {α : Type} (span : Span) {x : Term.Evaluation (Scratch σ) α}
    {y : Term.Evaluation (Scratch τ) α} (hxy : ρ x y) :
    ρ (Grounding.locate span x) (Grounding.locate span y) :=
  hρ.adapt (GroundFault.rule span) hxy

include h

theorem externals (before : List Symbol) (es : List (Term × Span)) :
    ρ (Grounding.externals handler before es) (Grounding.externals handler' before es) := by
  induction es generalizing before with
  | nil => exact hρ.of_pure _
  | cons e es ih =>
    have hvalues := hρ.bind (hρ.eval h .empty e.1) fun values =>
      hρ.bind (hρ.requireAtoms values) fun _ => hρ.of_pure values
    exact hρ.bind (hρ.locate e.2 hvalues) fun _ => ih _

variable (ho : ∀ rule name args,
  ρ (answerOnce handler rule name args) (answerOnce handler' rule name args))

include ho

theorem instantiateMatches (rule : Rule) (index : Nat) (p : Progress) (xs : List Match) :
    ρ (Grounding.instantiateMatches handler rule index p xs)
      (Grounding.instantiateMatches handler' rule index p xs) := by
  induction xs generalizing p with
  | nil => exact hρ.of_pure _
  | cons x xs ih =>
    have hx := hρ.ofMatch h (ho index) rule x
    exact ite (ih p) (hρ.bind (hρ.locate rule.span hx) fun _ => ih _)

theorem instantiateRule (known : List Symbol) (p : Progress) (rule : Rule × Nat) :
    ρ (Grounding.instantiateRule handler known p rule)
      (Grounding.instantiateRule handler' known p rule) := by
  have hfound := hρ.findMatches (ho rule.2) known rule.1
  exact hρ.bind (hρ.locate rule.1.span hfound) fun _ =>
    hρ.instantiateMatches h ho _ _ _ _

theorem instantiateUpTo (rules : List Rule) (known : List Symbol) (p : Progress) (limit : Nat) :
    ρ (Grounding.instantiateUpTo handler rules known p limit)
      (Grounding.instantiateUpTo handler' rules known p limit) := by
  induction limit generalizing known p with
  | zero => exact hρ.of_throw _
  | succ limit ih =>
    refine hρ.bind (hρ.foldlM (hρ.instantiateRule h ho known) _ _) fun p => ?_
    exact ite (hρ.of_throw _) (ite (hρ.of_pure _) (ih _ p))

theorem ofSelection (s : Selection) :
    ρ (Grounding.ofSelection handler s) (Grounding.ofSelection handler' s) :=
  hρ.bind (hρ.externals h [] s.externals) fun _ => hρ.instantiateUpTo h ho _ _ _ _

end Grounding

end Congruent

def Keeps {ε σ α : Type} (P : σ → Prop) (x : ExceptT ε (StateM σ) α) : Prop :=
  ∀ s, P s → P (x s).2

theorem Keeps.bind {ε σ α β : Type} {P : σ → Prop} {x : ExceptT ε (StateM σ) α}
    {f : α → ExceptT ε (StateM σ) β} (hx : Keeps P x) (hf : ∀ a, Keeps P (f a)) :
    Keeps P (x >>= f) := by
  intro s h
  change P (ExceptT.bindCont f (x s).1 (x s).2).2
  cases (x s).1 with
  | ok a => exact hf a _ (hx s h)
  | error e => exact hx s h

theorem Keeps.congruent {σ : Type} (P : σ → Prop) :
    Congruent fun {ε α} (x _ : ExceptT ε (StateM σ) α) => Keeps P x where
  of_pure _ _ h := h
  of_throw _ _ h := h
  bind hx hf := hx.bind hf
  adapt {_ _ _ _ _ _} hx s h := hx s h

end AnswerSetTest
