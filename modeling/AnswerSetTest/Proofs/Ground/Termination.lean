import AnswerSetTest.Proofs.Ground.Coverage
import AnswerSetTest.Proofs.Ground.Instantiation

/-!
# Termination of instantiation

Every round but the last adds an atom, so the rounds come to an end before the limit on their number
is reached. All matches of the last round have been instantiated and all answers to its comparisons
are kept, so one more round would neither find nor call anything new.
-/

namespace AnswerSetTest

variable {σ : Type} {handler : Handler σ} {last : Scratch σ}

section Computations

variable {ε α β : Type} {x : ExceptT ε (StateM (Scratch σ)) α}

/-- What a computation gave it gives again without changing the state, as long as the answers that
it left are kept. -/
structure Repeatable (x : ExceptT ε (StateM (Scratch σ)) α) : Prop where
  grows : Grows x
  again : ∀ s a t, x s = (.ok a, t) → ∀ u, t ≤ u → x u = (.ok a, u)

theorem Repeatable.congruent :
    Congruent fun {ε α} (x _ : ExceptT ε (StateM (Scratch σ)) α) => Repeatable x where
  of_pure a := ⟨Scratch.le_refl, fun s b t hrun u _ => by cases hrun; rfl⟩
  of_throw e := ⟨Scratch.le_refl, fun s b t hrun => by cases hrun⟩
  bind {_ _ _ x _ f _} hx hf := by
    refine ⟨hx.grows.bind fun a => (hf a).grows, fun s b t hrun u htu => ?_⟩
    obtain ⟨a, t', ha, hb⟩ := Returns.bind_eq_ok hrun
    have htu' : t' ≤ u := Scratch.le_trans ((hf a).grows.le hb) htu
    rw [Returns.bind_eq_of_ok (hx.again s a t' ha u htu')]
    exact (hf a).again t' b t hb u htu
  adapt {_ _ _ f x _} hx := by
    refine ⟨hx.grows, fun s a t hrun u htu => ?_⟩
    exact Returns.adapt_eq_of_ok (hx.again s a t (Returns.adapt_eq_ok hrun) u htu)

theorem Repeatable.ensures (h : Repeatable x) : Ensures last x fun a => x last = (.ok a, last) :=
  fun s a t hrun ht => h.again s a t hrun last ht

end Computations

namespace Grounding

theorem repeatable_answerOnce (rule : Nat) (name : String) (args : List Symbol) :
    Repeatable (answerOnce handler rule name args) := by
  refine ⟨grows_answerOnce rule name args, fun s a t hrun u htu => ?_⟩
  have hkept : t.answers[(⟨rule, name, args⟩ : CallKey)]? = some a := by
    obtain ⟨value, hkept, hrun'⟩ | ⟨-, ⟨message, w, -, hrun'⟩ | ⟨value, w, -, hrun'⟩⟩ :=
      answerOnce_cases (h := handler) rule name args s
    · cases hrun'.symm.trans hrun
      exact hkept
    · cases hrun'.symm.trans hrun
    · cases hrun'.symm.trans hrun
      exact Std.HashMap.getElem?_insert_self
  exact answerOnce_of_some (htu _ _ hkept)

theorem repeatable_findMatches (k : Nat) (known : List Symbol) (r : Rule) :
    Repeatable (r.findMatches (answerOnce handler k) known) :=
  @Congruent.findMatches (Scratch σ) (Scratch σ) _ (answerOnce handler k) (answerOnce handler k)
    Repeatable.congruent
    (repeatable_answerOnce k) known r

/-- The known atoms after a round. -/
def Progress.learned (known : List Symbol) (p : Progress) : List Symbol :=
  Atoms.union known (Atoms.ofList p.derived)

/-- Rounds without a limit on their number: how many there are until one fails, exceeds the limit on
atoms, or adds no atom, and what is left then. -/
inductive Runs (handler : Handler σ) (rules : List Rule) : (rounds : Nat) → List Symbol →
    Progress → Scratch σ → Except GroundFault (List Symbol × Progress) → Scratch σ → Prop
  | fail {known : List Symbol} {p : Progress} {s t : Scratch σ} {fault : GroundFault}
      (h : round handler rules known p s = (.error fault, t)) :
      Runs handler rules 1 known p s (.error fault) t
  | exceed {known : List Symbol} {p p' : Progress} {s t : Scratch σ}
      (h : round handler rules known p s = (.ok p', t))
      (hmax : maxAtoms < (p'.learned known).length) :
      Runs handler rules 1 known p s (.error .tooManyAtoms) t
  | stop {known : List Symbol} {p p' : Progress} {s t : Scratch σ}
      (h : round handler rules known p s = (.ok p', t))
      (hmax : (p'.learned known).length ≤ maxAtoms)
      (hlength : (p'.learned known).length = known.length) :
      Runs handler rules 1 known p s (.ok (p'.learned known, p')) t
  | next {rounds : Nat} {known : List Symbol} {p p' : Progress} {s t u : Scratch σ}
      {outcome : Except GroundFault (List Symbol × Progress)}
      (h : round handler rules known p s = (.ok p', t))
      (hmax : (p'.learned known).length ≤ maxAtoms)
      (hlength : (p'.learned known).length ≠ known.length)
      (rest : Runs handler rules rounds (p'.learned known) p' t outcome u) :
      Runs handler rules (rounds + 1) known p s outcome u

variable {rules : List Rule} {known : List Symbol} {p p' : Progress} {s t : Scratch σ} {k : Nat}
  {r : Rule}

section Learned

theorem subset_learned (known : List Symbol) (p : Progress) : known ⊆ p.learned known :=
  fun _ hs => Atoms.mem_union.2 (.inl hs)

theorem learned_ascending (hknown : known.Pairwise (· < ·)) (p : Progress) :
    (p.learned known).Pairwise (· < ·) :=
  Atoms.pairwise_union hknown (Atoms.pairwise_ofList _)

theorem length_le_learned (hknown : known.Pairwise (· < ·)) (p : Progress) :
    known.length ≤ (p.learned known).length :=
  (List.subperm_of_subset (Symbol.nodup_of_ascending hknown) (subset_learned known p)).length_le

theorem learned_eq_of_length (hknown : known.Pairwise (· < ·))
    (hlength : (p.learned known).length = known.length) : p.learned known = known := by
  have hsub := subset_learned known p
  have hsub' := Symbol.subset_of_length hknown hsub hlength
  exact eq_of_pairwise (fun _ _ => Symbol.lt_asymm) (learned_ascending hknown p) hknown
    fun s => ⟨fun hs => hsub' hs, fun hs => hsub hs⟩

end Learned

/-- The rounds end before their number reaches a limit that leaves room for all atoms allowed. -/
theorem runs_instantiateUpTo (handler : Handler σ) (rules : List Rule) (p : Progress)
    (s : Scratch σ) (limit : Nat) (hknown : known.Pairwise (· < ·)) (hpos : 0 < limit)
    (hlimit : maxAtoms < limit + known.length) :
    ∃ rounds ≤ limit, ∃ outcome t, Runs handler rules rounds known p s outcome t ∧
      instantiateUpTo handler rules known p limit s =
        (outcome.map fun result => (result.1, result.2.instances), t) := by
  induction limit generalizing known p s with
  | zero => omega
  | succ limit ih =>
    cases hround : round handler rules known p s with
    | mk result t =>
      cases result with
      | error fault =>
        refine ⟨1, by omega, _, t, .fail hround, ?_⟩
        rw [instantiateUpTo, Returns.bind_eq_of_error hround]
        rfl
      | ok p' =>
        have hrun : instantiateUpTo handler rules known p (limit + 1) s =
            (if (p'.learned known).length > maxAtoms then throw .tooManyAtoms
              else if (p'.learned known).length = known.length then return (known, p'.instances)
              else instantiateUpTo handler rules (p'.learned known) p' limit :
                Grounding σ (List Symbol × Array Instance)) t := by
          rw [instantiateUpTo, Returns.bind_eq_of_ok hround]
          rfl
        rw [hrun]
        by_cases hmax : (p'.learned known).length > maxAtoms
        · refine ⟨1, by omega, _, t, .exceed hround hmax, ?_⟩
          rw [if_pos hmax]
          rfl
        rw [if_neg hmax]
        by_cases hlength : (p'.learned known).length = known.length
        · refine ⟨1, by omega, _, t, .stop hround (by omega) hlength, ?_⟩
          rw [if_pos hlength, learned_eq_of_length hknown hlength]
          rfl
        rw [if_neg hlength]
        have hle := length_le_learned hknown p'
        obtain ⟨rounds, hrounds, outcome, u, hruns, hresult⟩ :=
          ih p' t (learned_ascending hknown p') (by omega) (by omega)
        exact ⟨rounds + 1, by omega, outcome, u, .next hround (by omega) hlength hruns, hresult⟩

section Saturation

theorem instantiateMatches_of_seen {xs : List Match} (h : ∀ x ∈ xs, (k, x) ∈ p.seen) :
    instantiateMatches handler r k p xs = pure p := by
  induction xs with
  | nil => rfl
  | cons x xs ih =>
    obtain ⟨hx, hxs⟩ := List.forall_mem_cons.1 h
    have hcontains : p.seen.contains (k, x) := hx
    rw [instantiateMatches, if_pos hcontains, ih hxs]

/-- The search for the matches of a rule makes no call any more, and all that it finds has been
seen. -/
def Settled (handler : Handler σ) (last : Scratch σ) (known : List Symbol) (p : Progress)
    (rule : Rule × Nat) : Prop :=
  ∃ found, rule.1.findMatches (answerOnce handler rule.2) known last = (.ok found, last) ∧
    ∀ x ∈ found, (rule.2, x) ∈ p.seen

theorem Settled.mono {rule : Rule × Nat} (h : Settled handler last known p rule)
    (hseen : ∀ y, y ∈ p.seen → y ∈ p'.seen) : Settled handler last known p' rule := by
  obtain ⟨found, hfound, hall⟩ := h
  exact ⟨found, hfound, fun x hx => hseen _ (hall x hx)⟩

theorem settled_instantiateRule (rule : Rule × Nat) :
    Ensures last (instantiateRule handler known p rule) fun p' =>
      (∀ y, y ∈ p.seen → y ∈ p'.seen) ∧ Settled handler last known p' rule := by
  rw [instantiateRule]
  refine ((repeatable_findMatches rule.2 known rule.1).ensures.adapt _).bind
    (grows_instantiateMatches rule.1 rule.2 p) fun found hfound s p' t hrun _ => ?_
  obtain ⟨hseen, hall⟩ := seen_instantiateMatches found s p' t hrun
  exact ⟨hseen, found, hfound, hall⟩

theorem settled_foldlM (qs : List (Rule × Nat)) :
    Ensures last (qs.foldlM (instantiateRule handler known) p) fun p' =>
      (∀ y, y ∈ p.seen → y ∈ p'.seen) ∧ ∀ q ∈ qs, Settled handler last known p' q := by
  induction qs generalizing p with
  | nil =>
    rw [List.foldlM_nil]
    exact .of_pure ⟨fun _ hy => hy, by simp⟩
  | cons q qs ih =>
    rw [List.foldlM_cons]
    refine (settled_instantiateRule q).bind (fun p' => grows_foldlM known qs p') fun p₁ hp₁ => ?_
    refine ih.mono fun p' hp' => ⟨fun y hy => hp'.1 y (hp₁.1 y hy), ?_⟩
    exact List.forall_mem_cons.2 ⟨hp₁.2.mono hp'.1, hp'.2⟩

theorem instantiateRule_of_settled {rule : Rule × Nat} (h : Settled handler last known p rule) :
    instantiateRule handler known p rule last = (.ok p, last) := by
  obtain ⟨found, hfound, hall⟩ := h
  rw [instantiateRule, Returns.bind_eq_of_ok (locate_eq_of_ok hfound),
    instantiateMatches_of_seen hall]
  rfl

theorem foldlM_of_settled {qs : List (Rule × Nat)} (h : ∀ q ∈ qs, Settled handler last known p q) :
    qs.foldlM (instantiateRule handler known) p last = (.ok p, last) := by
  induction qs with
  | nil => rfl
  | cons q qs ih =>
    obtain ⟨hq, hqs⟩ := List.forall_mem_cons.1 h
    rw [List.foldlM_cons, Returns.bind_eq_of_ok (instantiateRule_of_settled hq)]
    exact ih hqs

/-- A round can be repeated at once: it makes no call, finds no new match and derives no atom. -/
theorem round_again (h : round handler rules known p s = (.ok p', t)) :
    round handler rules known p' t = (.ok { p' with derived := [] }, t) := by
  have hsettled := (settled_foldlM rules.zipIdx s p' t h t.le_refl).2
  exact foldlM_of_settled fun q hq => (hsettled q hq).mono fun _ hy => hy

end Saturation

theorem Runs.saturated {rounds : Nat} {symbols : List Symbol} (hknown : known.Pairwise (· < ·))
    (h : Runs handler rules rounds known p s (.ok (symbols, p')) t) :
    symbols.length ≤ maxAtoms ∧
      round handler rules symbols p' t = (.ok { p' with derived := [] }, t) := by
  generalize houtcome : (Except.ok (symbols, p') : Except GroundFault _) = outcome at h
  induction h with
  | fail => cases houtcome
  | exceed => cases houtcome
  | stop hround hmax hlength =>
    cases houtcome
    rw [learned_eq_of_length hknown hlength] at hmax ⊢
    exact ⟨hmax, round_again hround⟩
  | next _ _ _ _ ih => exact ih (learned_ascending hknown _) houtcome

/-- Grounding a selection comes to an end. Unless an external is faulty there are at most 100001
rounds, the last of which fails, or exceeds the limit of 100000 atoms, or leaves a state from which
one more round adds no atom and no instance and makes no call. -/
theorem ofSelection_terminates (handler : Handler σ) (selection : Selection) (w : σ) :
    (∃ fault t, externals handler [] selection.externals ⟨w, ∅⟩ = (.error fault, t) ∧
      ofSelection handler selection ⟨w, ∅⟩ = (.error fault, t)) ∨
    ∃ known t, externals handler [] selection.externals ⟨w, ∅⟩ = (.ok known, t) ∧
      ∃ rounds ≤ 100001, ∃ outcome u,
        Runs handler selection.rules rounds known .empty t outcome u ∧
        match outcome with
        | .error fault => ofSelection handler selection ⟨w, ∅⟩ = (.error fault, u)
        | .ok (symbols, p) =>
          ofSelection handler selection ⟨w, ∅⟩ = (.ok (symbols, p.instances), u) ∧
            symbols.length ≤ 100000 ∧
            round handler selection.rules symbols p u = (.ok { p with derived := [] }, u) := by
  cases hexternals : externals handler [] selection.externals ⟨w, ∅⟩ with
  | mk result t =>
    cases result with
    | error fault => exact .inl ⟨fault, t, rfl, Returns.bind_eq_of_error hexternals⟩
    | ok known =>
      have hknown := externals_ascending handler [] selection.externals _ known t hexternals
      have hmax : maxAtoms = 100000 := rfl
      obtain ⟨rounds, hrounds, outcome, u, hruns, hresult⟩ :=
        runs_instantiateUpTo handler selection.rules .empty t (maxAtoms + 1) hknown (by omega)
          (by omega)
      have hselection : ofSelection handler selection ⟨w, ∅⟩ =
          (outcome.map fun result => (result.1, result.2.instances), u) := by
        rw [ofSelection, Returns.bind_eq_of_ok hexternals]
        exact hresult
      refine .inr ⟨known, t, rfl, rounds, by omega, outcome, u, hruns, ?_⟩
      cases outcome with
      | error fault => exact hselection
      | ok result => exact ⟨hselection, hmax ▸ hruns.saturated hknown⟩

end Grounding

end AnswerSetTest
