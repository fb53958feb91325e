import AnswerSetTest.Proofs.Ground.Rearrangement
import AnswerSetTest.Proofs.Ground.Reordering

/-!
# Selections of reordered programs

Programs that differ in the order of body literals only have selections that do so, too: the rules
that pools are expanded to are reordered as the rules with pools are.
-/

namespace AnswerSetTest

namespace Rule.Reordered

variable {r s : Rule}

theorem substitute (σ : Substitution) (h : r.Reordered s) :
    (r.substitute σ).Reordered (s.substitute σ) :=
  ⟨congrArg (Head.substitute σ) h.head, h.body.map _⟩

theorem exists_unpool (h : r.Reordered s) {r' : Rule} (hr' : r' ∈ r.unpool) :
    ∃ s' ∈ s.unpool, r'.Reordered s' := by
  obtain ⟨head, hhead, body, hbody, rfl⟩ := Rule.mem_unpool.1 hr'
  have hchoice : List.Forall₂ (fun l l' => l' ∈ Literal.unpool l) r.body body := hbody.flip
  obtain ⟨body', hbody', hperm⟩ := List.perm_comp_forall₂ h.body.symm hchoice
  exact ⟨{ s with head, body := body' },
    Rule.mem_unpool.2 ⟨head, h.head ▸ hhead, body', hbody'.flip, rfl⟩, rfl, hperm.symm⟩

theorem paired_unpool (h : r.Reordered s) :
    Paired Rule.Reordered {r' | r' ∈ r.unpool} {s' | s' ∈ s.unpool} :=
  .of_symm (fun _ _ h => h.symm) (fun _ hr' => h.exists_unpool hr')
    fun _ hs' => h.symm.exists_unpool hs'

end Rule.Reordered

inductive Statement.Reordered : Statement → Statement → Prop
  | rule {r s : Rule} (h : r.Reordered s) : Reordered (.rule r) (.rule s)
  | refl (x : Statement) : Reordered x x

/-- The same statements, up to the order of the rules' bodies. -/
def Program.Reordered (p q : Program) : Prop :=
  List.Forall₂ Statement.Reordered p.statements q.statements

/-- The same rules up to the order of their bodies, and the same externals and shown signatures. -/
structure Selection.Reordered (s t : Selection) : Prop where
  rules : Paired Rule.Reordered {r | r ∈ s.rules} {r | r ∈ t.rules}
  externals : s.externals = t.externals
  shown : s.shown = t.shown

namespace Selection

variable {σ : Substitution} {s t : Selection} {x y : Statement}

theorem Reordered.add (h : s.Reordered t) (hxy : x.Reordered y) :
    (s.add σ x).Reordered (t.add σ y) := by
  have hrefl : ∀ rs : List Rule, Paired Rule.Reordered {r | r ∈ rs} {r | r ∈ rs} :=
    fun rs => ⟨fun r hr => ⟨r, hr, rfl, .refl _⟩, fun r hr => ⟨r, hr, rfl, .refl _⟩⟩
  have happend : ∀ {rs ss : List Rule}, Paired Rule.Reordered {r | r ∈ rs} {r | r ∈ ss} →
      Paired Rule.Reordered {r | r ∈ s.rules ++ rs} {r | r ∈ t.rules ++ ss} := by
    intro rs ss hrs
    simp only [List.mem_append]
    exact h.rules.union hrs
  cases hxy with
  | rule hrule =>
    exact ⟨happend (hrule.substitute σ).paired_unpool, h.externals, h.shown⟩
  | refl =>
    cases x with
    | rule r => exact ⟨happend (hrefl _), h.externals, h.shown⟩
    | external atom span => exact ⟨h.rules, by simp [Selection.add, h.externals], h.shown⟩
    | showing signature span => exact ⟨h.rules, h.externals, by simp [Selection.add, h.shown]⟩
    | defined signature span => exact h
    | unit d => exact h

theorem poolFree_add (h : ∀ r ∈ s.rules, r.PoolFree) : ∀ r ∈ (s.add σ x).rules, r.PoolFree := by
  cases x with
  | rule r =>
    exact List.forall_mem_append.2 ⟨h, fun r' hr' => Rule.poolFree_of_mem_unpool hr'⟩
  | external | showing | defined | unit => exact h

end Selection

namespace Program

variable {p q : Program} {xs ys : List Statement} {R : Selection → Selection → Prop}

theorem Reordered.refl (p : Program) : p.Reordered p := List.forall₂_same.2 fun x _ => .refl x

theorem Reordered.declarations (h : p.Reordered q) : p.declarations = q.declarations := by
  have hrel : List.Forall₂ Eq p.declarations q.declarations := by
    refine List.rel_filterMap (fun x y hxy => ?_) h
    cases hxy with
    | rule _ => exact .none
    | refl =>
      cases x with
      | unit d => exact .some rfl
      | rule | external | showing | defined => exact .none
  rwa [List.forall₂_eq_eq_eq] at hrel

theorem forall₂_withUnits (h : List.Forall₂ Statement.Reordered xs ys) (current : String) :
    List.Forall₂ (fun x y => x.1 = y.1 ∧ x.2.Reordered y.2) (withUnits current xs)
      (withUnits current ys) := by
  induction h generalizing current with
  | nil => exact .nil
  | cons hxy _ ih =>
    cases hxy with
    | rule hrule => exact .cons ⟨rfl, .rule hrule⟩ (ih current)
    | refl =>
      rename Statement => x
      cases x with
      | unit d => exact ih d.name
      | rule | external | showing | defined => exact .cons ⟨rfl, .refl _⟩ (ih current)

theorem Reordered.statementsOf (h : p.Reordered q) (name : String) :
    List.Forall₂ Statement.Reordered (p.statementsOf name) (q.statementsOf name) := by
  have hname : ∀ {x y : String × Statement}, x.1 = y.1 ∧ x.2.Reordered y.2 →
      (x.1 == name ↔ y.1 == name) := fun hxy => by rw [hxy.1]
  have hfilter := List.rel_filter (fun x y hxy => hname hxy) (forall₂_withUnits h rootUnit)
  exact List.rel_map (fun x y hxy => hxy.2) hfilter

theorem Reordered.parametersOf (h : p.Reordered q) (name : String) :
    p.parametersOf name = q.parametersOf name := by
  rw [Program.parametersOf, Program.parametersOf, h.declarations]

/-- What adding corresponding statements preserves holds of the selections. -/
theorem Reordered.select (h : p.Reordered q) (hempty : R .empty .empty)
    (hadd : ∀ (σ : Substitution) {s t x y}, R s t → x.Reordered y → R (s.add σ x) (t.add σ y))
    (parts : List Part) : SameOutcome R (p.select parts) (q.select parts) := by
  have hfold : ∀ (σ : Substitution) {xs ys : List Statement} {s t : Selection},
      List.Forall₂ Statement.Reordered xs ys → R s t →
        R (xs.foldl (Selection.add σ) s) (ys.foldl (Selection.add σ) t) := by
    intro σ xs ys s t hxs
    induction hxs generalizing s t with
    | nil => exact id
    | cons hxy _ ih => exact fun hst => ih (hadd σ hst hxy)
  have hparts : ∀ (parts : List Part) {s t : Selection}, R s t →
      SameOutcome R (parts.foldlM p.selectPart s) (parts.foldlM q.selectPart t) := by
    intro parts
    induction parts with
    | nil => exact fun hst => .ok hst
    | cons part parts ih =>
      intro s t hst
      rw [List.foldlM_cons, List.foldlM_cons, selectPart, selectPart, h.parametersOf]
      split
      · exact .error
      · exact ih (hfold _ (h.statementsOf part.name) hst)
  exact hparts _ hempty

theorem Reordered.select_reordered (h : p.Reordered q) (parts : List Part) :
    SameOutcome Selection.Reordered (p.select parts) (q.select parts) :=
  h.select ⟨⟨nofun, nofun⟩, rfl, rfl⟩ (fun _ _ _ _ _ hst hxy => hst.add hxy) parts

theorem poolFree_select {s : Selection} {parts : List Part} (h : p.select parts = .ok s) :
    ∀ r ∈ s.rules, r.PoolFree := by
  have hselect := (Reordered.refl p).select (R := fun s _ => ∀ r ∈ s.rules, r.PoolFree)
    nofun (fun _ _ _ _ _ hs _ => Selection.poolFree_add hs) parts
  rw [h] at hselect
  cases hselect with
  | ok hs => exact hs

end Program

end AnswerSetTest
