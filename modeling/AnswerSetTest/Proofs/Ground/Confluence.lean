import AnswerSetTest.Proofs.Ground.Match

/-!
# The order of comparisons

Applying comparisons to matches leaves exactly the extensions, to the variables that are bound on
the way, for which the comparisons applied hold. Which ones are applied and which variables they
bind is settled by the equations together, whatever their order: the same equation gives values to
a variable in one order and is a test in another.
-/

namespace AnswerSetTest

open Term (Evaluation)

/-- What comparisons make of matches: all extensions to their variables for which they hold. -/
structure Matches.Restricts (ms : Matches) (cs : List Constraint) (ms' : Matches) : Prop where
  mem_bound : ∀ v, v ∈ ms'.bound ↔ v ∈ ms.bound ∨ ∃ c ∈ cs, c.Mentions v
  mem_found : ∀ y, y ∈ ms'.found ↔ ∃ x ∈ ms.found, y.positives = x.positives ∧
    x.binding ≤ y.binding ∧ (∀ v, (y.binding.get? v).isSome ↔ v ∈ ms'.bound) ∧
    ∀ c ∈ cs, c.Holds y.binding

/-- A comparison without calls, pools and the variable `_`. -/
structure Constraint.Named (c : Constraint) : Prop extends c.Plain where
  left_named : ¬ c.left.HasVariable "_"
  right_named : ¬ c.right.HasVariable "_"

variable {ms ms' ms'' : Matches} {cs ds es fs rest rest' : List Constraint}

theorem Constraint.Named.local {c : Constraint} (hc : c.Named) :
    c.Local .plain fun _ => True :=
  ⟨Valuation.local_plain hc.left_named, Valuation.local_plain hc.right_named⟩

/-- A match is found if it is one of the least extensions, since all bind the same variables. -/
theorem Matches.Settles.restricts (h : ms.Settles .plain (fun _ => True) ds ms') :
    ms.Restricts ds ms' where
  mem_bound := h.mem_bound
  mem_found y := by
    constructor
    · intro hy
      obtain ⟨x, hx, hle, hps, hholds⟩ := h.solves y hy
      exact ⟨x, hx, hps, hle, h.binds y hy, hholds⟩
    · rintro ⟨x, hx, hps, hle, hbinds, hholds⟩
      obtain ⟨z, hz, hzy, hzps⟩ := h.complete x hx y.binding hle trivial hholds
      have hbinding : z.binding = y.binding := by
        refine Binding.eq_of_le hzy fun v hv => ?_
        rw [h.binds z hz, ← hbinds]
        exact hv
      have heq : z = y := by
        cases y
        cases z
        exact congrArg₂ Match.mk hbinding (hzps.trans hps.symm)
      exact heq ▸ hz

namespace Matches.Restricts

theorem mem_found_iff (h : ms.Restricts ds ms') (h' : ms.Restricts es ms'') (hperm : es.Perm ds)
    (hbound : ∀ v, v ∈ ms''.bound ↔ v ∈ ms'.bound) (y : Match) :
    y ∈ ms''.found ↔ y ∈ ms'.found := by
  rw [h.mem_found, h'.mem_found]
  simp only [hbound, hperm.mem_iff]

open Classical in
theorem perm_filter (h : ms.Restricts ds ms') (hperm : (ds ++ rest).Perm cs)
    (hwait : ∀ c ∈ rest, c.readiness ms'.bound = .wait) :
    (cs.filter fun c => ∀ v, c.Mentions v → v ∈ ms'.bound).Perm ds := by
  have hds : ∀ c ∈ ds, decide (∀ v, c.Mentions v → v ∈ ms'.bound) = true :=
    fun c hc => decide_eq_true fun v hv => (h.mem_bound v).2 (.inr ⟨c, hc, hv⟩)
  have hrest : ∀ c ∈ rest, ¬ decide (∀ v, c.Mentions v → v ∈ ms'.bound) = true := by
    intro c hc hbound
    obtain ⟨v, hv, hfresh⟩ := Constraint.exists_unbound_of_wait (hwait c hc)
    exact hfresh (of_decide_eq_true hbound v hv)
  have hfilter := (hperm.filter fun c => decide (∀ v, c.Mentions v → v ∈ ms'.bound)).symm
  rwa [List.filter_append, List.filter_eq_self.2 hds, List.filter_eq_nil_iff.2 hrest,
    List.append_nil] at hfilter

end Matches.Restricts

namespace Constraint

section

variable {σ : Type} {answer : String → List Symbol → Evaluation σ Symbol}

/-- The variables bound in the end are those that the equations determine, in whatever order. -/
theorem mem_bound_iff_determines (h : ms.Settles .plain (fun _ => True) ds ms')
    (hperm : (ds ++ rest).Perm cs) (hwait : ∀ c ∈ rest, c.readiness ms'.bound = .wait)
    (v : String) : v ∈ ms'.bound ↔ Determines cs (· ∈ ms.bound) v := by
  constructor
  · exact fun hv => (h.determined v hv).bind
      (fun c hc => hperm.mem_iff.1 (List.mem_append_left _ hc)) fun _ hw => .known hw
  · exact Determines.mem_bound hperm (fun w hw => (h.mem_bound w).2 (.inl hw))
      (fun c hc w hw => (h.mem_bound w).2 (.inr ⟨c, hc, hw⟩)) hwait

theorem settleUpTo_nil (ms : Matches) (limit : Nat) :
    settleUpTo answer ms [] limit = pure ([], ms) := by
  cases limit with
  | zero => rfl
  | succ limit => rfl

theorem settleUpTo_eq (ms : Matches) {m n : Nat} (hm : cs.length ≤ m) (hn : cs.length ≤ n) :
    settleUpTo answer ms cs m = settleUpTo answer ms cs n := by
  induction m generalizing ms cs n with
  | zero =>
    obtain rfl := List.eq_nil_of_length_eq_zero (Nat.le_zero.1 hm)
    rw [settleUpTo_nil, settleUpTo_nil]
  | succ m ih =>
    cases n with
    | zero =>
      obtain rfl := List.eq_nil_of_length_eq_zero (Nat.le_zero.1 hn)
      rw [settleUpTo_nil, settleUpTo_nil]
    | succ n =>
      rw [settleUpTo, settleUpTo]
      refine Returns.bind_congr (returns_sweep_waiting ms cs) fun r hr => ?_
      obtain ⟨rest, ms'⟩ := r
      dsimp only at hr ⊢
      split
      · rfl
      · -- a sweep that is not the last has applied a comparison
        exact ih ms' (by omega) (by omega)

/-- When settling succeeds, it has made of the matches what the comparisons removed make of them,
and no other comparison could be applied. In another order it removes the same comparisons, binds
the same variables and finds the same matches. -/
theorem settle_exact (hbinds : ms.Binds) (hcs : ∀ c ∈ cs, c.Named) {s s' : σ}
    (hrun : settle answer ms cs s = (.ok (rest, ms'), s')) :
    ∃ removed, (removed ++ rest).Perm cs ∧ ms.Restricts removed ms' ∧
      (∀ c ∈ rest, c.readiness ms'.bound = .wait) ∧
      (∀ limit, cs.length ≤ limit → settleUpTo answer ms cs limit = settle answer ms cs) ∧
      ∀ es, es.Perm cs → ∀ rest' ms'' t t', settle answer ms es t = (.ok (rest', ms''), t') →
        ∀ removed', (removed' ++ rest').Perm es → removed'.Perm removed ∧
          (∀ v, v ∈ ms''.bound ↔ v ∈ ms'.bound) ∧ ∀ y, y ∈ ms''.found ↔ y ∈ ms'.found := by
  have hreturns : ∀ {es : List Constraint}, es.Perm cs →
      Returns (settle answer ms es) fun r =>
        (∃ ds, ms.Settles .plain (fun _ => True) ds r.2 ∧ (ds ++ r.1).Perm es) ∧
        ∀ c ∈ r.1, c.readiness r.2.bound = .wait := fun hes =>
    returns_settle hbinds (fun c hc => (hcs c (hes.mem_iff.1 hc)).given)
      fun c hc => (hcs c (hes.mem_iff.1 hc)).local
  obtain ⟨⟨ds, hsettles, hperm⟩, hwait⟩ := hreturns (.refl cs) s _ s' hrun
  refine ⟨ds, hperm, hsettles.restricts, hwait,
    fun limit hlimit => settleUpTo_eq ms hlimit (Nat.le_refl _), ?_⟩
  intro es hes rest' ms'' t t' hrun' removed' hremoved
  obtain ⟨⟨ds', hsettles', hperm'⟩, hwait'⟩ := hreturns hes t _ t' hrun'
  have hbound : ∀ v, v ∈ ms''.bound ↔ v ∈ ms'.bound := by
    intro v
    rw [mem_bound_iff_determines hsettles hperm hwait,
      mem_bound_iff_determines hsettles' (hperm'.trans hes) hwait']
  have hds : ds'.Perm ds := by
    classical
    have hfilter := hsettles.restricts.perm_filter hperm hwait
    have hfilter' := hsettles'.restricts.perm_filter (hperm'.trans hes) hwait'
    simp only [hbound] at hfilter'
    exact hfilter'.symm.trans hfilter
  have hsame : removed'.Perm ds' :=
    (List.perm_append_right_iff rest').1 (hremoved.trans hperm'.symm)
  exact ⟨hsame.trans hds, hbound,
    hsettles.restricts.mem_found_iff hsettles'.restricts hds hbound⟩

end

/-- `X = 1..2` and `X = 2` bind `X` in either order, while `Y < X` waits. -/
theorem settle_exact_sample :
    let answer : String → List Symbol → Evaluation Unit Symbol :=
      fun name _ => throw (.call name "no functions")
    let range : Constraint := ⟨.variable "X", .eq, .interval (.number 1) (.number 2)⟩
    let two : Constraint := ⟨.variable "X", .eq, .number 2⟩
    let smaller : Constraint := ⟨.variable "Y", .lt, .variable "X"⟩
    let start : Matches := ⟨[], [⟨.empty, []⟩]⟩
    let found : Matches := ⟨["X"], [⟨Binding.empty.insert "X" (.number 2), []⟩]⟩
    start.Binds ∧ (∀ c ∈ [range, two, smaller], c.Named) ∧
      settle answer start [range, two, smaller] () = (.ok ([smaller], found), ()) ∧
      settle answer start [smaller, two, range] () = (.ok ([smaller], found), ()) ∧
      ∃ removed, (removed ++ [smaller]).Perm [range, two, smaller] ∧
        start.Restricts removed found := by
  intro answer range two smaller start found
  have hbinds : start.Binds := by
    intro x hx v
    obtain rfl := List.mem_singleton.1 hx
    simp [start]
  have hcs : ∀ c ∈ [range, two, smaller], c.Named := by
    intro c hc
    simp only [List.mem_cons, List.not_mem_nil, or_false] at hc
    rcases hc with rfl | rfl | rfl
    · exact ⟨⟨.variable "X", .interval (.number 1) (.number 2)⟩, by simp [range], by simp [range]⟩
    · exact ⟨⟨.variable "X", .number 2⟩, by simp [two], by simp [two]⟩
    · exact ⟨⟨.variable "Y", .variable "X"⟩, by simp [smaller], by simp [smaller]⟩
  have hrun : settle answer start [range, two, smaller] () = (.ok ([smaller], found), ()) := rfl
  obtain ⟨removed, hperm, hrestricts, -⟩ := settle_exact hbinds hcs hrun
  exact ⟨hbinds, hcs, hrun, rfl, removed, hperm, hrestricts⟩

end Constraint

end AnswerSetTest
