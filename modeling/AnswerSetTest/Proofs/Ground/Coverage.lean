import AnswerSetTest.Proofs.Ground.Replay

/-!
# Coverage

When the rounds of instantiation end, the last one has found the matches of every rule with all the
atoms known then, and each of these matches has an instance, made in that round or in one before.
-/

namespace AnswerSetTest.Grounding

variable {σ : Type} (handler : Handler σ) (last : Scratch σ)

/-- A match of a rule has had an instance, made while the answers kept were among the last ones. -/
def Instantiated (k : Nat) (r : Rule) (x : Match) : Prop :=
  ∃ s i t, s ≤ last ∧ Instance.ofMatch (answer handler) (answerOnce handler k) r x s = (.ok i, t)

/-- All matches of a rule over known atoms, with the answers kept at the end, have had instances. -/
def Covered (known : List Symbol) (k : Nat) (r : Rule) : Prop :=
  ∃ found, (∀ given, last.Continues k given → r.matchesBy given known = .ok found) ∧
    ∀ x ∈ found, Instantiated handler last k r x

/-- The matches that are left out because they were seen have had instances. -/
def Progress.Sees (rules : List Rule) (p : Progress) : Prop :=
  ∀ k r x, rules[k]? = some r → (k, x) ∈ p.seen → Instantiated handler last k r x

variable {handler last} {rules : List Rule} {known : List Symbol} {p : Progress} {k : Nat}
  {r : Rule} {x : Match}

theorem Progress.sees_empty : Progress.empty.Sees handler last rules := by
  intro k r x _ hx
  simp [Progress.empty] at hx

theorem Progress.Sees.push (hp : p.Sees handler last rules) (hr : rules[k]? = some r)
    (hx : Instantiated handler last k r x) (instances : Array Instance) (derived : List Symbol) :
    Progress.Sees handler last rules ⟨p.seen.insert (k, x), instances, derived⟩ := by
  intro k' r' y hr' hy
  rcases Std.HashSet.mem_insert.1 hy with heq | hy
  · obtain ⟨rfl, rfl⟩ := Prod.mk.inj (eq_of_beq heq)
    rw [hr, Option.some.injEq] at hr'
    exact hr' ▸ hx
  · exact hp k' r' y hr' hy

theorem grows_ofMatch (k : Nat) (r : Rule) (x : Match) :
    Grows (Instance.ofMatch (answer handler) (answerOnce handler k) r x) :=
  @Congruent.ofMatch (Scratch σ) (Scratch σ) _ _ _ (answer handler) (answerOnce handler k)
    Grows.congruent grows_answer (grows_answerOnce k) r x

theorem grows_instantiateMatches (r : Rule) (k : Nat) (p : Progress) (xs : List Match) :
    Grows (instantiateMatches handler r k p xs) :=
  @Congruent.instantiateMatches σ σ handler handler _ Grows.congruent grows_answer grows_answerOnce
    r k p xs

theorem grows_foldlM (known : List Symbol) (qs : List (Rule × Nat)) (p : Progress) :
    Grows (qs.foldlM (instantiateRule handler known) p) :=
  Grows.congruent.foldlM (g := instantiateRule handler known)
    (@Congruent.instantiateRule σ σ handler handler _ Grows.congruent grows_answer grows_answerOnce
      known) qs p

theorem grows_instantiateUpTo (rules : List Rule) (known : List Symbol) (p : Progress)
    (limit : Nat) : Grows (instantiateUpTo handler rules known p limit) :=
  @Congruent.instantiateUpTo σ σ handler handler _ Grows.congruent grows_answer grows_answerOnce
    rules known p limit

theorem ensures_ofMatch (k : Nat) (r : Rule) (x : Match) :
    Ensures last (Instance.ofMatch (answer handler) (answerOnce handler k) r x)
      fun _ => Instantiated handler last k r x :=
  fun s i t h ht => ⟨s, i, t, Scratch.le_trans ((grows_ofMatch k r x).le h) ht, h⟩

theorem ensures_instantiateMatches (hr : rules[k]? = some r) (hp : p.Sees handler last rules)
    (xs : List Match) :
    Ensures last (instantiateMatches handler r k p xs) fun p' =>
      p'.Sees handler last rules ∧ ∀ x ∈ xs, Instantiated handler last k r x := by
  induction xs generalizing p with
  | nil =>
    rw [instantiateMatches]
    exact .of_pure ⟨hp, by simp⟩
  | cons x xs ih =>
    rw [instantiateMatches]
    split
    · next hseen =>
      have hx := hp k r x hr hseen
      exact (ih hp).mono fun _ => And.imp_right fun hxs => List.forall_mem_cons.2 ⟨hx, hxs⟩
    · refine ((ensures_ofMatch k r x).adapt _).bind (fun _ => grows_instantiateMatches r k _ xs)
        fun i hx => (ih (hp.push hr hx _ _)).mono fun _ => And.imp_right fun hxs => ?_
      exact List.forall_mem_cons.2 ⟨hx, hxs⟩

theorem ensures_instantiateRule (hr : rules[k]? = some r) (hp : p.Sees handler last rules) :
    Ensures last (instantiateRule handler known p (r, k)) fun p' =>
      p'.Sees handler last rules ∧ Covered handler last known k r := by
  rw [instantiateRule]
  refine ((ensures_findMatches r known).adapt _).bind (grows_instantiateMatches r k p)
    fun found hfound => (ensures_instantiateMatches hr hp found).mono fun _ => ?_
  exact And.imp_right fun hxs => ⟨found, hfound, hxs⟩

theorem ensures_foldlM {qs : List (Rule × Nat)} (hqs : ∀ q ∈ qs, rules[q.2]? = some q.1)
    (hp : p.Sees handler last rules) :
    Ensures last (qs.foldlM (instantiateRule handler known) p) fun p' =>
      p'.Sees handler last rules ∧ ∀ q ∈ qs, Covered handler last known q.2 q.1 := by
  induction qs generalizing p with
  | nil =>
    rw [List.foldlM_nil]
    exact .of_pure ⟨hp, by simp⟩
  | cons q qs ih =>
    obtain ⟨hq, hqs⟩ := List.forall_mem_cons.1 hqs
    rw [List.foldlM_cons]
    refine (ensures_instantiateRule hq hp).bind (grows_foldlM known qs) fun p' hp' => ?_
    obtain ⟨hsees, hcovered⟩ := hp'
    exact (ih hqs hsees).mono fun _ => And.imp_right fun hall =>
      List.forall_mem_cons.2 ⟨hcovered, hall⟩

theorem ensures_round (hp : p.Sees handler last rules) :
    Ensures last (round handler rules known p) fun p' =>
      p'.Sees handler last rules ∧
        ∀ k r, rules[k]? = some r → Covered handler last known k r := by
  have hstart : Progress.Sees handler last rules { p with derived := [] } := hp
  have hrules : ∀ q ∈ rules.zipIdx, rules[q.2]? = some q.1 :=
    fun q hq => List.mk_mem_zipIdx_iff_getElem?.1 hq
  rw [round]
  refine (ensures_foldlM hrules hstart).mono fun _ => And.imp_right fun hall k r hr => ?_
  exact hall (r, k) (List.mk_mem_zipIdx_iff_getElem?.2 hr)

/-- The rounds end with one that covers all rules over the atoms known at the end. -/
theorem ensures_instantiateUpTo (hp : p.Sees handler last rules) (limit : Nat) :
    Ensures last (instantiateUpTo handler rules known p limit) fun result =>
      ∀ k r, rules[k]? = some r → Covered handler last result.1 k r := by
  induction limit generalizing known p with
  | zero =>
    rw [instantiateUpTo]
    exact .of_throw
  | succ limit ih =>
    rw [instantiateUpTo]
    refine (ensures_round hp).bind (fun p' => ?_) fun p' hp' => ?_
    · dsimp only
      split
      · exact Scratch.le_refl
      · split
        · exact Scratch.le_refl
        · exact grows_instantiateUpTo rules _ p' limit
    · obtain ⟨hsees, hall⟩ := hp'
      dsimp only
      split
      · exact .of_throw
      · split
        · exact .of_pure hall
        · exact ih hsees

/-- All rules of a selection are covered when it has been instantiated. -/
theorem ensures_ofSelection (s : Selection) :
    Ensures last (ofSelection handler s) fun result =>
      ∀ k r, s.rules[k]? = some r → Covered handler last result.1 k r := by
  rw [ofSelection]
  exact Ensures.trivial.bind
    (fun known => grows_instantiateUpTo s.rules known .empty (maxAtoms + 1))
    fun known _ => ensures_instantiateUpTo Progress.sees_empty _

end AnswerSetTest.Grounding
