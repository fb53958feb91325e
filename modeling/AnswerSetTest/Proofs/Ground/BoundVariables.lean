import AnswerSetTest.Proofs.Ground.Match
import AnswerSetTest.Proofs.Ground.Simulation

/-!
# Bound variables

While a rule is matched, the variables that are listed as bound are those that each match binds.
This holds wherever comparisons are applied, so that what is seen to be ready can be evaluated, and
in the end every match binds all variables of the literals and comparisons. Only the variable `_`,
which is never bound, can be missing when a comparison is evaluated.
-/

namespace AnswerSetTest

open Term (Evaluation eval evalAll)

/-! ### Evaluations without unbound variables -/

/-- The value has a property if there is one, and no variable but `_` is missing. -/
structure Safe {σ α : Type} (x : Evaluation σ α) (P : α → Prop) : Prop where
  returns : Returns x P
  anonymous : ∀ s v s', x s = (.error (.unsafeVariable v), s') → v = "_"

namespace Safe

variable {σ α β : Type} {P : α → Prop} {Q : β → Prop}

theorem of_pure {a : α} (h : P a) : Safe (pure a : Evaluation σ α) P where
  returns := .of_pure h
  anonymous s v s' hrun := by cases hrun

theorem of_throw {e : RuleFault} (h : ∀ v, e = .unsafeVariable v → v = "_") :
    Safe (throw e : Evaluation σ α) P where
  returns := .of_throw
  anonymous s v s' hrun := by
    cases hrun
    exact h v rfl

theorem bind {x : Evaluation σ α} {f : α → Evaluation σ β} (hx : Safe x P)
    (hf : ∀ a, P a → Safe (f a) Q) : Safe (x >>= f) Q where
  returns := hx.returns.bind fun a ha => (hf a ha).returns
  anonymous s v s' hrun := by
    cases hr : x s with
    | mk r t =>
      cases r with
      | ok a =>
        rw [Returns.bind_eq_of_ok hr] at hrun
        exact (hf a (hx.returns s a t hr)).anonymous t v s' hrun
      | error e =>
        rw [Returns.bind_eq_of_error hr] at hrun
        cases hrun
        exact hx.anonymous s v s' hr

theorem mono {x : Evaluation σ α} {P' : α → Prop} (hx : Safe x P) (h : ∀ a, P a → P' a) :
    Safe x P' where
  returns := hx.returns.mono h
  anonymous := hx.anonymous

theorem mapM {f : α → Evaluation σ β} (h : ∀ a, Safe (f a) fun _ => True) (as : List α) :
    Safe (as.mapM f) fun _ => True := by
  induction as with
  | nil => exact .of_pure trivial
  | cons a as ih =>
    rw [List.mapM_cons]
    exact (h a).bind fun b _ => ih.bind fun bs _ => .of_pure trivial

end Safe

variable {σ : Type} {answer : String → List Symbol → Evaluation σ Symbol}

namespace Term

theorem safe_singleNumber (values : List Symbol) :
    Safe (singleNumber values : Evaluation σ Int64) fun _ => True := by
  unfold singleNumber
  split
  · exact .of_pure trivial
  · exact .of_throw fun v h => by cases h

theorem safe_expandInterval (low high : Int64) :
    Safe (expandInterval low high : Evaluation σ (List Symbol)) fun _ => True := by
  unfold expandInterval
  split
  · exact .of_throw fun v h => by cases h
  · exact .of_pure trivial

mutual

/-- If all variables of a term are bound, only `_` can be missing. -/
theorem safe_eval (ha : ∀ name args, Safe (answer name args) fun _ => True) {b : Binding} :
    (t : Term) → (∀ v ∈ t.vars, (b.get? v).isSome) → Safe (eval answer b t) fun _ => True
  | .number n, _ => by
    rw [eval]
    exact .of_pure trivial
  | .text s, _ => by
    rw [eval]
    exact .of_pure trivial
  | .variable v, hbound => by
    rw [eval]
    cases hget : b.get? v with
    | some s => exact .of_pure trivial
    | none =>
      apply Safe.of_throw
      intro w hw
      cases hw
      by_contra hne
      have hsome := hbound v (mem_vars_variable.2 ⟨rfl, hne⟩)
      rw [hget] at hsome
      cases hsome
  | .function name args, hbound => by
    rw [eval]
    have hargs := safe_evalAll ha args fun t ht v hv =>
      hbound v (mem_vars_function.2 ⟨t, ht, hv⟩)
    exact hargs.bind fun _ _ => .of_pure trivial
  | .call name args, hbound => by
    rw [eval]
    have hargs := safe_evalAll ha args fun t ht v hv =>
      hbound v (mem_vars_call.2 ⟨t, ht, hv⟩)
    exact hargs.bind fun _ _ => .mapM (ha name) _
  | .interval low high, hbound => by
    rw [eval]
    have hlow := safe_eval ha low fun v hv => hbound v (mem_vars_interval.2 (.inl hv))
    have hhigh := safe_eval ha high fun v hv => hbound v (mem_vars_interval.2 (.inr hv))
    exact hlow.bind fun _ _ => (safe_singleNumber _).bind fun _ _ =>
      hhigh.bind fun _ _ => (safe_singleNumber _).bind fun _ _ => safe_expandInterval _ _
  | .pool alternatives, hbound => by
    rw [eval]
    have halternatives := safe_evalAll ha alternatives fun t ht v hv =>
      hbound v (mem_vars_pool.2 ⟨t, ht, hv⟩)
    exact halternatives.bind fun _ _ => .of_pure trivial

theorem safe_evalAll (ha : ∀ name args, Safe (answer name args) fun _ => True) {b : Binding} :
    (ts : List Term) → (∀ t ∈ ts, ∀ v ∈ t.vars, (b.get? v).isSome) →
      Safe (evalAll answer b ts) fun _ => True
  | [], _ => by
    rw [evalAll]
    exact .of_pure trivial
  | t :: ts, hbound => by
    rw [evalAll]
    have hfirst := safe_eval ha t (hbound t List.mem_cons_self)
    have hrest := safe_evalAll ha ts fun u hu => hbound u (List.mem_cons_of_mem t hu)
    exact hfirst.bind fun _ _ => hrest.bind fun _ _ => .of_pure trivial

end

end Term

/-! ### What comparisons and literals do to the bound variables -/

namespace Matches.Binds

variable {ms : Matches} {ys : List Match} {v : String} {t : Term}

theorem initial : Matches.Binds ⟨[], [⟨.empty, []⟩]⟩ := by
  intro x hx v
  obtain rfl := List.mem_singleton.1 hx
  simp

theorem of_subset (h : ms.Binds) (hys : ∀ y ∈ ys, y ∈ ms.found) : Matches.Binds ⟨ms.bound, ys⟩ :=
  fun y hy => h y (hys y hy)

theorem assign (h : ms.Binds)
    (hys : ∀ y ∈ ys, ∃ x ∈ ms.found, ∃ s, y = { x with binding := x.binding.insert v s }) :
    Matches.Binds ⟨v :: ms.bound, ys⟩ := by
  intro y hy w
  obtain ⟨x, hx, s, rfl⟩ := hys y hy
  rw [Binding.isSome_insert, h x hx, List.mem_cons, or_comm]

theorem extend (h : ms.Binds) (ht : t.PoolFree) (known : List Symbol) :
    Matches.Binds ⟨t.vars ++ ms.bound, ms.found.flatMap (Match.extend known t)⟩ := by
  intro y hy w
  obtain ⟨x, hx, hy⟩ := List.mem_flatMap.1 hy
  obtain ⟨s, -, b, hb, rfl⟩ := Matches.Covers.mem_extend.1 hy
  rw [(Term.matchSymbol_sound ht hb).isSome_iff, h x hx, List.mem_append, or_comm]

end Matches.Binds

namespace Constraint

variable {c : Constraint} {cs rest : List Constraint} {ms : Matches} {v : String} {t : Term}

section Evaluation

variable (ha : ∀ name args, Safe (answer name args) fun _ => True)

include ha

theorem safe_holds {b : Binding} (hbound : ∀ v, c.Mentions v → (b.get? v).isSome) :
    Safe (c.holds answer b) fun _ => True := by
  rw [holds]
  have hleft := Term.safe_eval ha c.left fun v hv => hbound v (.inl hv)
  have hright := Term.safe_eval ha c.right fun v hv => hbound v (.inr hv)
  exact hleft.bind fun _ _ => hright.bind fun _ _ => .of_pure trivial

theorem safe_keepOnto {before xs : List Match}
    (hbound : ∀ x ∈ xs, ∀ v, c.Mentions v → (x.binding.get? v).isSome) :
    Safe (c.keepOnto answer before xs) fun ys => ∀ y ∈ ys, y ∈ before ∨ y ∈ xs := by
  induction xs generalizing before with
  | nil =>
    rw [keepOnto]
    exact .of_pure (by simp)
  | cons x xs ih =>
    obtain ⟨hx, hxs⟩ := List.forall_mem_cons.1 hbound
    rw [keepOnto]
    refine (safe_holds ha hx).bind fun holds _ => ?_
    cases holds with
    | true => exact (ih hxs).mono fun ys hys y hy => by grind
    | false => exact (ih hxs).mono fun ys hys y hy => by grind

theorem safe_bindOnto {before xs : List Match}
    (hbound : ∀ x ∈ xs, ∀ w ∈ t.vars, (x.binding.get? w).isSome) :
    Safe (bindOnto answer v t before xs) fun ys => ∀ y ∈ ys, y ∈ before ∨
      ∃ x ∈ xs, ∃ s, y = { x with binding := x.binding.insert v s } := by
  induction xs generalizing before with
  | nil =>
    rw [bindOnto]
    exact .of_pure (by simp)
  | cons x xs ih =>
    obtain ⟨hx, hxs⟩ := List.forall_mem_cons.1 hbound
    rw [bindOnto]
    refine (Term.safe_eval ha t hx).bind fun values _ => (ih hxs).mono fun ys hys y hy => ?_
    rcases hys y hy with hmem | ⟨z, hz, hy⟩
    · rcases List.mem_append.1 hmem with hmem | hmem
      · obtain ⟨s, -, rfl⟩ := List.mem_map.1 (List.mem_reverse.1 hmem)
        exact .inr ⟨x, List.mem_cons_self, s, rfl⟩
      · exact .inl hmem
    · exact .inr ⟨z, List.mem_cons_of_mem _ hz, hy⟩

/-- A comparison that is ready to be checked is evaluated, and the rest bind what they did. -/
theorem safe_keep (h : ms.Binds) (hready : c.readiness ms.bound = .check) :
    Safe (c.keep answer ms.found) fun ys => Matches.Binds ⟨ms.bound, ys⟩ := by
  have hbound : ∀ x ∈ ms.found, ∀ v, c.Mentions v → (x.binding.get? v).isSome :=
    fun x hx v hv => (h x hx v).2 (mentions_of_check hready hv)
  refine (safe_keepOnto ha hbound).mono fun ys hys => h.of_subset fun y hy => ?_
  simpa using hys y hy

/-- An equation that gives a variable its values is evaluated, and the variable becomes bound. -/
theorem safe_bind (h : ms.Binds) (hready : c.readiness ms.bound = .assign v t) :
    Safe (Constraint.bind answer v t ms.found) fun ys => Matches.Binds ⟨v :: ms.bound, ys⟩ := by
  have hbound : ∀ x ∈ ms.found, ∀ w ∈ t.vars, (x.binding.get? w).isSome :=
    fun x hx w hw => (h x hx w).2 ((assigns_of_assign hready).ready w hw)
  refine (safe_bindOnto ha hbound).mono fun ys hys => h.assign fun y hy => ?_
  simpa using hys y hy

end Evaluation

/-- A variable is bound, or a comparison that is still to be applied mentions it. -/
def Pending (r : List Constraint × Matches) (v : String) : Prop :=
  v ∈ r.2.bound ∨ ∃ c ∈ r.1, c.Mentions v

theorem pending_check (hready : c.readiness ms.bound = .check) (ys : List Match) :
    Pending (cs, ⟨ms.bound, ys⟩) v ↔ Pending (c :: cs, ms) v := by
  have hbound : c.Mentions v → v ∈ ms.bound := mentions_of_check hready
  simp only [Pending, List.mem_cons]
  grind

theorem pending_assign {w : String} (hready : c.readiness ms.bound = .assign w t)
    (ys : List Match) : Pending (cs, ⟨w :: ms.bound, ys⟩) v ↔ Pending (c :: cs, ms) v := by
  have hassign := assigns_of_assign hready
  have hmentions := hassign.mentions_iff (w := v)
  have hbound := hassign.ready v
  simp only [Pending, List.mem_cons]
  grind

theorem pending_wait {r : List Constraint × Matches} (h : ∀ v, Pending r v ↔ Pending (cs, ms) v) :
    Pending (c :: r.1, r.2) v ↔ Pending (c :: cs, ms) v := by
  have hv := h v
  simp only [Pending, List.mem_cons] at hv ⊢
  grind

/-- What holds after comparisons have been applied to `ms`. -/
structure Settled (cs : List Constraint) (ms : Matches) (r : List Constraint × Matches) :
    Prop where
  binds : r.2.Binds
  pending_iff : ∀ v, Pending r v ↔ Pending (cs, ms) v

theorem Settled.trans {r r' : List Constraint × Matches} (h : Settled cs ms r)
    (h' : Settled r.1 r.2 r') : Settled cs ms r' :=
  ⟨h'.binds, fun v => (h'.pending_iff v).trans (h.pending_iff v)⟩

section Runs

variable (ha : ∀ name args, Safe (answer name args) fun _ => True)

include ha

theorem safe_sweep (h : ms.Binds) (cs : List Constraint) :
    Safe (sweep answer ms cs) (Settled cs ms) := by
  induction cs generalizing ms with
  | nil =>
    rw [sweep]
    exact .of_pure ⟨h, fun v => Iff.rfl⟩
  | cons c cs ih =>
    rw [sweep]
    cases hready : c.readiness ms.bound with
    | check =>
      refine (safe_keep ha h hready).bind fun ys hys => (ih hys).mono fun r hr => ?_
      exact ⟨hr.binds, fun v => (hr.pending_iff v).trans (pending_check hready ys)⟩
    | assign w t =>
      refine (safe_bind ha h hready).bind fun ys hys => (ih hys).mono fun r hr => ?_
      exact ⟨hr.binds, fun v => (hr.pending_iff v).trans (pending_assign hready ys)⟩
    | wait =>
      refine (ih h).bind fun r hr => .of_pure ?_
      exact ⟨hr.binds, fun v => pending_wait hr.pending_iff⟩

theorem safe_settleUpTo (h : ms.Binds) (cs : List Constraint) (limit : Nat) :
    Safe (settleUpTo answer ms cs limit) (Settled cs ms) := by
  induction limit generalizing ms cs with
  | zero =>
    rw [settleUpTo]
    exact .of_pure ⟨h, fun v => Iff.rfl⟩
  | succ limit ih =>
    rw [settleUpTo]
    refine (safe_sweep ha h cs).bind fun r hr => ?_
    obtain ⟨rest, ms'⟩ := r
    dsimp only
    split
    · exact .of_pure hr
    · exact (ih hr.binds rest).mono fun r' hr' => hr.trans hr'

theorem safe_settle (h : ms.Binds) (cs : List Constraint) :
    Safe (settle answer ms cs) (Settled cs ms) :=
  safe_settleUpTo ha h cs cs.length

end Runs

end Constraint

namespace Rule

open Constraint (Pending)

variable {known : List Symbol} {cs : List Constraint} {ms : Matches}

section Runs

variable (ha : ∀ name args, Safe (answer name args) fun _ => True)

include ha

theorem safe_matchesFrom (h : ms.Binds) (cs : List Constraint) {us : List Term}
    (hus : ∀ t ∈ us, t.PoolFree) :
    Safe (matchesFrom answer known ms cs us) fun found => ∀ x ∈ found, ∀ v,
      (x.binding.get? v).isSome ↔ Pending (cs, ms) v ∨ ∃ t ∈ us, v ∈ t.vars := by
  induction us generalizing cs ms with
  | nil =>
    cases cs with
    | nil =>
      rw [matchesFrom]
      refine .of_pure fun x hx v => ?_
      rw [h x hx v]
      simp [Pending]
    | cons c cs =>
      rw [matchesFrom]
      exact .of_throw fun v hv => by cases hv
  | cons t us ih =>
    obtain ⟨ht, hus⟩ := List.forall_mem_cons.1 hus
    rw [matchesFrom]
    split
    · exact .of_throw fun v hv => by cases hv
    · have hextend := h.extend ht known
      split
      · exact .of_pure (by simp)
      · refine (Constraint.safe_settle ha hextend cs).bind fun r hr => ?_
        refine (ih hr.binds r.1 hus).mono fun found hfound x hx v => ?_
        rw [hfound x hx v, hr.pending_iff v]
        simp only [Pending, List.mem_append, List.mem_cons]
        grind

theorem safe_findMatches (known : List Symbol) {r : Rule}
    (hps : ∀ t ∈ r.positives, t.PoolFree) :
    Safe (r.findMatches answer known) fun found => ∀ x ∈ found, ∀ v,
      (x.binding.get? v).isSome ↔ Occurs r.positives r.constraints v := by
  rw [findMatches]
  refine (Constraint.safe_settle ha .initial r.constraints).bind fun s hs => ?_
  refine (safe_matchesFrom ha hs.binds s.1 hps).mono fun found hfound x hx v => ?_
  rw [hfound x hx v, hs.pending_iff v, Occurs, or_comm]
  simp [Pending]

end Runs

end Rule

/-! ### The search with notes -/

section Noting

variable (answer) (note : Matches → Evaluation σ Unit)

namespace Constraint

/-- A sweep with a note before each comparison. -/
def sweepNoting (ms : Matches) : List Constraint → Evaluation σ (List Constraint × Matches)
  | [] => pure ([], ms)
  | c :: cs => do
    note ms
    match c.readiness ms.bound with
    | .check => do sweepNoting { ms with found := ← c.keep answer ms.found } cs
    | .assign v t => do sweepNoting ⟨v :: ms.bound, ← bind answer v t ms.found⟩ cs
    | .wait => do
      let (rest, ms) ← sweepNoting ms cs
      return (c :: rest, ms)

def settleUpToNoting (ms : Matches) (cs : List Constraint) :
    (limit : Nat) → Evaluation σ (List Constraint × Matches)
  | 0 => pure (cs, ms)
  | limit + 1 => do
    let (rest, ms) ← sweepNoting answer note ms cs
    if rest.length = cs.length then return (rest, ms) else settleUpToNoting ms rest limit

/-- Applies comparisons with notes at the beginning and at the end, too. -/
def settleNoting (ms : Matches) (cs : List Constraint) :
    Evaluation σ (List Constraint × Matches) := do
  note ms
  let (rest, ms) ← settleUpToNoting answer note ms cs cs.length
  note ms
  return (rest, ms)

end Constraint

namespace Rule

def matchesFromNoting (known : List Symbol) (ms : Matches) (cs : List Constraint) :
    List Term → Evaluation σ (List Match)
  | [] =>
    match cs with
    | [] => pure ms.found
    | c :: _ => throw (.unsafeComparison (unboundIn ms.bound c))
  | atom :: atoms => do
    if atom.hasCall then throw .callInPositiveLiteral
    else
      match ms.found.flatMap (Match.extend known atom) with
      | [] => return []
      | found => do
        let (cs, ms) ← Constraint.settleNoting answer note ⟨atom.vars ++ ms.bound, found⟩ cs
        matchesFromNoting known ms cs atoms

/-- The matches of a rule, with a note of those found so far whenever comparisons begin or end to
be applied, and before each of them. -/
def findMatchesNoting (known : List Symbol) (r : Rule) : Evaluation σ (List Match) := do
  let (cs, ms) ← Constraint.settleNoting answer note ⟨[], [⟨.empty, []⟩]⟩ r.constraints
  matchesFromNoting answer note known ms cs r.positives

end Rule

end Noting

section Silence

variable {note : Matches → Evaluation σ Unit} {known : List Symbol} {ms : Matches}
  (ha : ∀ name args, Safe (answer name args) fun _ => True)
  (hnote : ∀ ms : Matches, ms.Binds → note ms = pure ())

include ha hnote

namespace Constraint

theorem sweepNoting_eq (h : ms.Binds) (cs : List Constraint) :
    sweepNoting answer note ms cs = sweep answer ms cs := by
  induction cs generalizing ms with
  | nil => rfl
  | cons c cs ih =>
    rw [sweepNoting, sweep, hnote ms h, pure_bind]
    cases hready : c.readiness ms.bound with
    | check => exact (safe_keep ha h hready).returns.bind_congr fun ys hys => ih hys
    | assign v t => exact (safe_bind ha h hready).returns.bind_congr fun ys hys => ih hys
    | wait =>
      dsimp only
      rw [ih h]

theorem settleUpToNoting_eq (h : ms.Binds) (cs : List Constraint) (limit : Nat) :
    settleUpToNoting answer note ms cs limit = settleUpTo answer ms cs limit := by
  induction limit generalizing ms cs with
  | zero => rfl
  | succ limit ih =>
    rw [settleUpToNoting, settleUpTo, sweepNoting_eq ha hnote h]
    refine (safe_sweep ha h cs).returns.bind_congr fun r hr => ?_
    obtain ⟨rest, ms'⟩ := r
    dsimp only
    split
    · rfl
    · exact ih hr.binds rest

theorem settleNoting_eq (h : ms.Binds) (cs : List Constraint) :
    settleNoting answer note ms cs = settle answer ms cs := by
  have hsettle := (safe_settle ha h cs).returns
  rw [settleNoting, hnote ms h, pure_bind, settleUpToNoting_eq ha hnote h,
    ← bind_pure (settle answer ms cs)]
  refine hsettle.bind_congr fun r hr => ?_
  obtain ⟨rest, ms'⟩ := r
  dsimp only
  rw [hnote ms' hr.binds, pure_bind]

end Constraint

namespace Rule

theorem matchesFromNoting_eq (h : ms.Binds) (cs : List Constraint) {us : List Term}
    (hus : ∀ t ∈ us, t.PoolFree) :
    matchesFromNoting answer note known ms cs us = matchesFrom answer known ms cs us := by
  induction us generalizing cs ms with
  | nil =>
    cases cs with
    | nil => rfl
    | cons c cs => rfl
  | cons t us ih =>
    obtain ⟨ht, hus⟩ := List.forall_mem_cons.1 hus
    have hextend := h.extend ht known
    rw [matchesFromNoting, matchesFrom]
    split
    · rfl
    · cases hfound : ms.found.flatMap (Match.extend known t) with
      | nil => rfl
      | cons y ys =>
        rw [hfound] at hextend
        dsimp only
        rw [Constraint.settleNoting_eq ha hnote hextend]
        exact (Constraint.safe_settle ha hextend cs).returns.bind_congr fun r hr =>
          ih hr.binds r.1 hus

theorem findMatchesNoting_eq {r : Rule} (hps : ∀ t ∈ r.positives, t.PoolFree) :
    r.findMatchesNoting answer note known = r.findMatches answer known := by
  rw [findMatchesNoting, findMatches, Constraint.settleNoting_eq ha hnote .initial]
  exact (Constraint.safe_settle ha .initial r.constraints).returns.bind_congr fun s hs =>
    matchesFromNoting_eq ha hnote hs.binds s.1 hps

end Rule

end Silence

theorem Grounding.safe_answerOnce (handler : Handler σ) (rule : Nat) (name : String)
    (args : List Symbol) : Safe (answerOnce handler rule name args) fun _ => True where
  returns := .trivial
  anonymous s v s' hrun := by
    rcases answerOnce_cases rule name args s with
      ⟨value, -, h⟩ | ⟨-, ⟨message, w, -, h⟩ | ⟨value, w, -, h⟩⟩
    · rw [h] at hrun
      cases hrun
    · rw [h] at hrun
      cases hrun
    · rw [h] at hrun
      cases hrun

/-- The variables listed are those that each match binds, whenever comparisons begin or end to be
applied and before each of them: a note that only acts otherwise, as by failing, never acts. So a
comparison that is ready is evaluated without a missing variable, other than `_`, and so are all
comparisons of the search. In the end, each match binds the variables of the positive literals and
of the comparisons, and no others. -/
theorem Rule.findMatches_binds (handler : Handler σ) (index : Nat) (known : List Symbol) {r : Rule}
    (hps : ∀ t ∈ r.positives, t.PoolFree) :
    (∀ note : Matches → Evaluation (Scratch σ) Unit,
      (∀ ms : Matches, ms.Binds → note ms = pure ()) →
      r.findMatchesNoting (Grounding.answerOnce handler index) note known =
        r.findMatches (Grounding.answerOnce handler index) known) ∧
    (∀ (c : Constraint) (ms : Matches), ms.Binds → ∀ s v s',
      (c.readiness ms.bound = .check →
        c.keep (Grounding.answerOnce handler index) ms.found s =
          (.error (.unsafeVariable v), s') → v = "_") ∧
      ∀ w t, c.readiness ms.bound = .assign w t →
        Constraint.bind (Grounding.answerOnce handler index) w t ms.found s =
          (.error (.unsafeVariable v), s') → v = "_") ∧
    (∀ s v s', r.findMatches (Grounding.answerOnce handler index) known s =
      (.error (.unsafeVariable v), s') → v = "_") ∧
    ∀ s found s', r.findMatches (Grounding.answerOnce handler index) known s = (.ok found, s') →
      ∀ x ∈ found, ∀ v, (x.binding.get? v).isSome ↔ Occurs r.positives r.constraints v := by
  have ha := Grounding.safe_answerOnce handler index
  have hfind := safe_findMatches ha known hps
  refine ⟨fun note hnote => findMatchesNoting_eq ha hnote hps, fun c ms h s v s' => ⟨?_, ?_⟩,
    hfind.anonymous, hfind.returns⟩
  · exact fun hready hrun => (Constraint.safe_keep ha h hready).anonymous s v s' hrun
  · exact fun w t hready hrun => (Constraint.safe_bind ha h hready).anonymous s v s' hrun

/-!
The rule `:- p(X, 1..X), Y = X.` with the atom `p(2, 1)`.
-/

namespace Rule

namespace Sample

def silent : Handler Unit where
  call _ _ := pure (.error "")
  rule _ _ _ := pure ()
  output _ _ := pure ()

def intervalRule : Rule :=
  ⟨.falsity, [.atom false (.function "p" [.variable "X", .interval (.number 1) (.variable "X")]),
    .comparison (.variable "Y") .eq (.variable "X")], default⟩

def pair : Symbol := .function "p" [.number 2, .number 1]

theorem poolFree_intervalRule : ∀ t ∈ intervalRule.positives, t.PoolFree := by
  intro t ht
  obtain rfl := List.mem_singleton.1 ht
  apply Term.PoolFree.function
  intro u hu
  simp only [List.mem_cons, List.not_mem_nil, or_false] at hu
  rcases hu with rfl | rfl
  · exact .variable "X"
  · exact .interval (.number 1) (.variable "X")

theorem findMatches_intervalRule :
    intervalRule.findMatches (Grounding.answerOnce silent 0) [pair] ⟨(), ∅⟩ =
      (.ok [⟨(Binding.empty.insert "X" (.number 2)).insert "Y" (.number 2), [pair]⟩], ⟨(), ∅⟩) :=
  rfl

end Sample

open Sample in
theorem findMatches_binds_intervalRule :
    (∀ t ∈ intervalRule.positives, t.PoolFree) ∧
      ∀ v, (((Binding.empty.insert "X" (.number 2)).insert "Y" (.number 2)).get? v).isSome ↔
        Occurs intervalRule.positives intervalRule.constraints v :=
  ⟨poolFree_intervalRule, (findMatches_binds silent 0 [pair] poolFree_intervalRule).2.2.2 _ _ _
    findMatches_intervalRule _ List.mem_cons_self⟩

end Rule

end AnswerSetTest
