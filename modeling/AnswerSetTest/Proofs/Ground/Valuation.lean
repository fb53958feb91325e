import AnswerSetTest.Proofs.Ground.Values

/-!
# Valuations

What matching needs to know of the values of terms: they stay the same when the binding is
extended, and they only depend on the term's variables.
-/

namespace AnswerSetTest

/-- Whenever `x` succeeds, `y` does so with the same value and leaves the same state. -/
def Follows {ε σ α : Type} (x y : ExceptT ε (StateM σ) α) : Prop :=
  ∀ s a s', x s = (.ok a, s') → y s = (.ok a, s')

namespace Follows

variable {ε σ α β : Type}

theorem refl (x : ExceptT ε (StateM σ) α) : Follows x x := fun _ _ _ h => h

theorem bind {x y : ExceptT ε (StateM σ) α} {f g : α → ExceptT ε (StateM σ) β}
    (hx : Follows x y) (hf : ∀ a, Follows (f a) (g a)) : Follows (x >>= f) (y >>= g) := by
  intro s b s' h
  obtain ⟨a, t, ha, hb⟩ := Returns.bind_eq_ok h
  rw [Returns.bind_eq_of_ok (hx s a t ha)]
  exact hf a t b s' hb

end Follows

namespace Term

variable {σ : Type} {answer : String → List Symbol → Evaluation σ Symbol} {b c : Binding}
  {P : String → Prop}

mutual

theorem follows_eval (hbc : ∀ v, P v → ∀ s, b.get? v = some s → c.get? v = some s) (h_ : P "_") :
    (t : Term) → (∀ v ∈ t.vars, P v) → Follows (eval answer b t) (eval answer c t)
  | .number n, _ | .text s, _ => .refl _
  | .variable v, hvars => by
    have hv : P v := by
      by_cases h : v = "_"
      · exact h ▸ h_
      · exact hvars v (mem_vars_variable.2 ⟨rfl, h⟩)
    intro s a s' hrun
    rw [eval] at hrun ⊢
    cases hget : b.get? v with
    | none =>
      rw [hget] at hrun
      cases hrun
    | some value =>
      rw [hget] at hrun
      rw [hbc v hv value hget]
      exact hrun
  | .function name args, hvars => by
    rw [eval, eval]
    refine .bind (follows_evalAll hbc h_ args fun t ht v hv => ?_) fun rows => .refl _
    exact hvars v (mem_vars_function.2 ⟨t, ht, hv⟩)
  | .call name args, hvars => by
    rw [eval, eval]
    refine .bind (follows_evalAll hbc h_ args fun t ht v hv => ?_) fun rows => .refl _
    exact hvars v (mem_vars_call.2 ⟨t, ht, hv⟩)
  | .interval low high, hvars => by
    rw [eval, eval]
    refine .bind (follows_eval hbc h_ low fun v hv => ?_) fun lows => .bind (.refl _) fun l =>
      .bind (follows_eval hbc h_ high fun v hv => ?_) fun highs => .refl _
    · exact hvars v (mem_vars_interval.2 (.inl hv))
    · exact hvars v (mem_vars_interval.2 (.inr hv))
  | .pool alternatives, hvars => by
    rw [eval, eval]
    refine .bind (follows_evalAll hbc h_ alternatives fun t ht v hv => ?_) fun rows => .refl _
    exact hvars v (mem_vars_pool.2 ⟨t, ht, hv⟩)

theorem follows_evalAll (hbc : ∀ v, P v → ∀ s, b.get? v = some s → c.get? v = some s)
    (h_ : P "_") : (ts : List Term) → (∀ t ∈ ts, ∀ v ∈ t.vars, P v) →
      Follows (evalAll answer b ts) (evalAll answer c ts)
  | [], _ => .refl _
  | t :: ts, hvars => by
    obtain ⟨ht, hts⟩ := List.forall_mem_cons.1 hvars
    rw [evalAll, evalAll]
    exact .bind (follows_eval hbc h_ t ht) fun values =>
      .bind (follows_evalAll hbc h_ ts hts) fun rows => .refl _

end

end Term

/-- Only named variables have a value. -/
abbrev Binding.Named (b : Binding) : Prop := b.get? "_" = none

/-- Values of terms under bindings, of which an extension of the binding changes none. -/
structure Valuation where
  values : Binding → Term → Option (List Symbol)
  values_variable : ∀ b v, values b (.variable v) = (b.get? v).map fun s => [s]
  mono : ∀ {b c : Binding} {t : Term} {vs : List Symbol}, b ≤ c → values b t = some vs →
    values c t = some vs
  of_le : ∀ {b c : Binding} {t : Term} {vs : List Symbol}, b ≤ c → c.get? "_" = none →
    (∀ v ∈ t.vars, (b.get? v).isSome) → values c t = some vs → values b t = some vs

namespace Valuation

def plain : Valuation where
  values := Term.under?
  values_variable _ _ := rfl
  mono h ht := Term.under?_mono h ht
  of_le h hc hb ht := by
    refine Term.under?_of_le h (fun v hv => ?_) ht
    by_cases hnamed : v = "_"
    · exact .inr (hnamed ▸ hc)
    · exact .inl (hb v (hv.mem_vars hnamed))

/-- Under bindings with `P`, a term has no other values than under smaller bindings of its
variables. -/
def Local (V : Valuation) (P : Binding → Prop) (t : Term) : Prop :=
  ∀ b c vs, b ≤ c → P c → (∀ v ∈ t.vars, (b.get? v).isSome) → V.values c t = some vs →
    V.values b t = some vs

theorem local_named (V : Valuation) (t : Term) : V.Local Binding.Named t :=
  fun _ _ _ h hc hb ht => V.of_le h hc hb ht

theorem local_plain {t : Term} (ht : ¬ t.HasVariable "_") : plain.Local (fun _ => True) t := by
  intro b c vs h _ hb hvs
  refine Term.under?_of_le h (fun v hv => .inl (hb v (hv.mem_vars ?_))) hvs
  rintro rfl
  exact ht hv

def Gives {σ : Type} (V : Valuation) (answer : String → List Symbol → Term.Evaluation σ Symbol)
    (t : Term) : Prop :=
  ∀ b, Returns (Term.eval answer b t) fun vs => V.values b t = some vs

end Valuation

end AnswerSetTest
