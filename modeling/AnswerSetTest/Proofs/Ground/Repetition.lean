import AnswerSetTest.Proofs.Ground.Termination

/-!
# Repeated rules

A copy of a rule finds the matches that the rule has found before it in the same round, so its
instances repeat instances that are there already, and their heads are derived already. The rounds
with and without the copy therefore go in step.
-/

namespace AnswerSetTest

/-- The second list is the first one with some elements repeated behind their first occurrence. -/
inductive Repeats {α : Type} : List α → List α → Prop
  | nil : Repeats [] []
  | both {xs ys : List α} (h : Repeats xs ys) (x : α) : Repeats (xs ++ [x]) (ys ++ [x])
  | again {xs ys : List α} {x : α} (h : Repeats xs ys) (hx : x ∈ xs) : Repeats xs (ys ++ [x])

namespace Repeats

variable {α β : Type} {xs ys : List α}

theorem mem_iff (h : Repeats xs ys) (a : α) : a ∈ ys ↔ a ∈ xs := by
  induction h with
  | nil => rfl
  | both _ x ih => rw [List.mem_append, List.mem_append, ih]
  | again _ hx ih =>
    rw [List.mem_append, ih, or_iff_left_of_imp]
    exact fun ha => List.mem_singleton.1 ha ▸ hx

theorem eraseDups_flatMap [DecidableEq β] (f : α → List β) (h : Repeats xs ys) :
    (ys.flatMap f).eraseDups = (xs.flatMap f).eraseDups := by
  induction h with
  | nil => rfl
  | @both xs ys h x ih =>
    have hsame : (f x).removeAll (ys.flatMap f) = (f x).removeAll (xs.flatMap f) := by
      refine List.filter_congr fun b _ => ?_
      simp [h.mem_iff]
    rw [List.flatMap_append, List.flatMap_append, List.flatMap_singleton, List.eraseDups_append,
      List.eraseDups_append, ih, hsame]
  | @again xs ys x h hx ih =>
    have hnone : (f x).removeAll (ys.flatMap f) = [] := by
      refine List.filter_eq_nil_iff.2 fun b hb => ?_
      simpa using ⟨x, (h.mem_iff x).2 hx, hb⟩
    rw [List.flatMap_append, List.flatMap_singleton, List.eraseDups_append, hnone, ih,
      List.eraseDups_nil, List.append_nil]

end Repeats

/-- Whenever `x` succeeds from a state with `P`, so does `y` from all states with `P`, the values
are related, and `P` holds afterwards. -/
def Carries {ε σ α β : Type} (P : σ → Prop) (x : ExceptT ε (StateM σ) α)
    (y : ExceptT ε (StateM σ) β) (Q : α → β → Prop) : Prop :=
  ∀ s a s', P s → x s = (.ok a, s') →
    P s' ∧ ∀ t, P t → ∃ b t', y t = (.ok b, t') ∧ P t' ∧ Q a b

namespace Carries

variable {ε σ α β : Type} {P : σ → Prop} {x : ExceptT ε (StateM σ) α} {y : ExceptT ε (StateM σ) β}
  {Q : α → β → Prop}

theorem of_yields {ok ok' : Prop} {S : α → Prop} {S' : β → Prop} (hx : Yields P x ok S)
    (hy : Yields P y ok' S') (hok : ok → ok') (h : ∀ a b, S a → S' b → Q a b) :
    Carries P x y Q := by
  intro s a s' hs hrun
  obtain ⟨hs', hval⟩ := hx s hs
  rw [hrun] at hs' hval
  refine ⟨hs', fun t ht => ?_⟩
  obtain ⟨ht', hval'⟩ := hy t ht
  cases hrun' : y t with
  | mk r t' =>
    rw [hrun'] at ht' hval'
    cases r with
    | ok b => exact ⟨b, t', rfl, ht', h a b hval.2 hval'.2⟩
    | error e => exact absurd (hok hval.1) hval'

theorem of_outcome {δ : Type} {o : Except δ α} {z : ExceptT ε (StateM σ) α}
    (hx : Yields P x (∃ a, o = .ok a) fun a => o = .ok a)
    (hz : Yields P z (∃ a, o = .ok a) fun a => o = .ok a) :
    Carries P x z fun a b => a = b ∧ o = .ok a := by
  refine of_yields hx hz id fun a b ha hb => ⟨?_, ha⟩
  rwa [ha, Except.ok.injEq] at hb

theorem of_pure {a : α} {b : β} (h : Q a b) :
    Carries P (pure a : ExceptT ε (StateM σ) α) (pure b : ExceptT ε (StateM σ) β) Q := by
  intro s c s' hs hrun
  cases hrun
  exact ⟨hs, fun t ht => ⟨b, t, rfl, ht, h⟩⟩

theorem of_throw {e : ε} : Carries P (throw e : ExceptT ε (StateM σ) α) y Q := by
  intro s a s' _ hrun
  cases hrun

theorem bind {γ δ : Type} {f : α → ExceptT ε (StateM σ) γ} {g : β → ExceptT ε (StateM σ) δ}
    {Q' : γ → δ → Prop} (hxy : Carries P x y Q)
    (hfg : ∀ a b, Q a b → Carries P (f a) (g b) Q') : Carries P (x >>= f) (y >>= g) Q' := by
  intro s c s' hs hrun
  obtain ⟨a, u, ha, hc⟩ := Returns.bind_eq_ok hrun
  obtain ⟨hu, hy⟩ := hxy s a u hs ha
  -- the state after `f a` has `P`, from any partner of `a`
  obtain ⟨b₀, -, -, -, hab₀⟩ := hy s hs
  obtain ⟨hs', -⟩ := hfg a b₀ hab₀ u c s' hu hc
  refine ⟨hs', fun t ht => ?_⟩
  obtain ⟨b, t₁, hb, ht₁, hab⟩ := hy t ht
  obtain ⟨d, t', hd, ht', hcd⟩ := (hfg a b hab u c s' hu hc).2 t₁ ht₁
  exact ⟨d, t', (Returns.bind_eq_of_ok hb).trans hd, ht', hcd⟩

theorem mono {Q' : α → β → Prop} (h : Carries P x y Q) (hQ : ∀ a b, Q a b → Q' a b) :
    Carries P x y Q' := by
  intro s a s' hs hrun
  obtain ⟨hs', hy⟩ := h s a s' hs hrun
  refine ⟨hs', fun t ht => ?_⟩
  obtain ⟨b, t', hb, ht', hab⟩ := hy t ht
  exact ⟨b, t', hb, ht', hQ a b hab⟩

theorem and_returns {S : α → Prop} (h : Carries P x y Q) (hx : Returns x S) :
    Carries P x y fun a b => Q a b ∧ S a := by
  intro s a s' hs hrun
  obtain ⟨hs', hy⟩ := h s a s' hs hrun
  refine ⟨hs', fun t ht => ?_⟩
  obtain ⟨b, t', hb, ht', hab⟩ := hy t ht
  exact ⟨b, t', hb, ht', hab, hx s a s' hrun⟩

end Carries

namespace Grounding

variable {σ : Type} {handler : Handler σ} {answer : String → List Symbol → Except String Symbol}
  {rules : List Rule} {known known' : List Symbol} {p q : Progress} {r : Rule} {k n : Nat}
  {x : Match} {i : Instance} {span : Span}

/-- The progress of rules, and of the same rules followed by copies of some. What has been seen of a
copy may be anything. -/
structure Progress.Mirrors (answer : String → List Symbol → Except String Symbol)
    (rules : List Rule) (known : List Symbol) (p q : Progress) : Prop where
  instances : Repeats p.instances.toList q.instances.toList
  seen : ∀ k < rules.length, ∀ x, (k, x) ∈ q.seen ↔ (k, x) ∈ p.seen
  derived : ∀ s, s ∈ known ∨ s ∈ q.derived ↔ s ∈ known ∨ s ∈ p.derived
  made : ∀ k r x, rules[k]? = some r → (k, x) ∈ p.seen →
    ∃ i ∈ p.instances, Instance.ofMatchBy answer r x = .ok i ∧
      ∀ s ∈ i.head, s ∈ known ∨ s ∈ p.derived

theorem Progress.mirrors_empty : Progress.empty.Mirrors answer rules known .empty where
  instances := .nil
  seen _ _ _ := Iff.rfl
  derived _ := Iff.rfl
  made k r x _ hx := by simp [Progress.empty] at hx

namespace Progress.Mirrors

theorem push (h : p.Mirrors answer rules known q) (hr : rules[k]? = some r)
    (hi : Instance.ofMatchBy answer r x = .ok i) :
    Mirrors answer rules known ⟨p.seen.insert (k, x), p.instances.push i, i.head ++ p.derived⟩
      ⟨q.seen.insert (k, x), q.instances.push i, i.head ++ q.derived⟩ where
  instances := by
    rw [Array.toList_push, Array.toList_push]
    exact h.instances.both i
  seen j hj y := by
    rw [Std.HashSet.mem_insert, Std.HashSet.mem_insert, h.seen j hj]
  derived s := by
    have hs := h.derived s
    simp only [List.mem_append]
    tauto
  made j r' y hr' hy := by
    have hkept : ∀ s, s ∈ known ∨ s ∈ p.derived → s ∈ known ∨ s ∈ i.head ++ p.derived :=
      fun s hs => hs.imp_right (List.mem_append_right _)
    rcases Std.HashSet.mem_insert.1 hy with heq | hy
    · obtain ⟨rfl, rfl⟩ := Prod.mk.inj (eq_of_beq heq)
      rw [hr, Option.some.injEq] at hr'
      subst hr'
      exact ⟨i, Array.mem_push_self, hi, fun s hs => .inr (List.mem_append_left _ hs)⟩
    · obtain ⟨j, hj, hmatch, hhead⟩ := h.made j r' y hr' hy
      exact ⟨j, Array.mem_push_of_mem i hj, hmatch, fun s hs => hkept s (hhead s hs)⟩

theorem push_again (h : p.Mirrors answer rules known q) (hn : rules.length ≤ n)
    (hi : i ∈ p.instances) (hhead : ∀ s ∈ i.head, s ∈ known ∨ s ∈ p.derived) :
    p.Mirrors answer rules known
      ⟨q.seen.insert (n, x), q.instances.push i, i.head ++ q.derived⟩ where
  instances := by
    rw [Array.toList_push]
    exact h.instances.again (Array.mem_toList_iff.2 hi)
  seen j hj y := by
    have hne : (n, x) ≠ (j, y) := fun heq => by
      have hnj : n = j := congrArg Prod.fst heq
      omega
    rw [Std.HashSet.mem_insert, beq_iff_eq, or_iff_right hne, h.seen j hj]
  derived s := by
    have hs := h.derived s
    have hs' := hhead s
    simp only [List.mem_append]
    tauto
  made := h.made

theorem restart (h : p.Mirrors answer rules known q)
    (hknown : ∀ s, s ∈ known ∨ s ∈ p.derived → s ∈ known') :
    Mirrors answer rules known' { p with derived := [] } { q with derived := [] } where
  instances := h.instances
  seen := h.seen
  derived _ := Iff.rfl
  made k r x hr hx := by
    obtain ⟨i, hi, hmatch, hhead⟩ := h.made k r x hr hx
    exact ⟨i, hi, hmatch, fun s hs => .inl (hknown s (hhead s hs))⟩

theorem learned_eq (hknown : known.Pairwise (· < ·)) (h : p.Mirrors answer rules known q) :
    q.learned known = p.learned known := by
  refine eq_of_pairwise (fun _ _ => Symbol.lt_asymm) (learned_ascending hknown q)
    (learned_ascending hknown p) fun s => ?_
  rw [learned, learned, Atoms.mem_union, Atoms.mem_union, Atoms.mem_ofList, Atoms.mem_ofList]
  exact h.derived s

end Progress.Mirrors

def Progress.Matched (answer : String → List Symbol → Except String Symbol) (known : List Symbol)
    (p : Progress) (rule : Rule × Nat) : Prop :=
  ∃ found, rule.1.matchesBy answer known = .ok found ∧ ∀ x ∈ found, (rule.2, x) ∈ p.seen

variable (h : handler.AnswersBy answer)

include h

theorem carries_instantiateMatches (hr : rules[k]? = some r) (hpq : p.Mirrors answer rules known q)
    (xs : List Match) : Carries (Scratch.Consistent answer) (instantiateMatches handler r k p xs)
      (instantiateMatches handler r k q xs) (Progress.Mirrors answer rules known) := by
  induction xs generalizing p q with
  | nil => exact .of_pure hpq
  | cons x xs ih =>
    have hk : k < rules.length := (List.getElem?_eq_some_iff.1 hr).1
    rw [instantiateMatches, instantiateMatches]
    by_cases hx : p.seen.contains (k, x)
    · have hx' : q.seen.contains (k, x) := (hpq.seen k hk x).2 hx
      rw [if_pos hx, if_pos hx']
      exact ih hpq
    · have hx' : ¬ q.seen.contains (k, x) := fun hx' => hx ((hpq.seen k hk x).1 hx')
      rw [if_neg hx, if_neg hx']
      have hmake := yields_ofMatch h r k x
      refine (Carries.of_outcome hmake.locate hmake.locate).bind ?_
      rintro i _ ⟨rfl, hi⟩
      exact ih (hpq.push hr hi)

theorem carries_instantiateRule (hr : rules[k]? = some r) (hpq : p.Mirrors answer rules known q) :
    Carries (Scratch.Consistent answer) (instantiateRule handler known p (r, k))
      (instantiateRule handler known q (r, k)) fun p' q' => p'.Mirrors answer rules known q' ∧
        (∀ y, y ∈ p.seen → y ∈ p'.seen) ∧ p'.Matched answer known (r, k) := by
  rw [instantiateRule, instantiateRule]
  have hfind := yields_findMatches h r k known
  refine (Carries.of_outcome hfind.locate hfind.locate).bind ?_
  rintro found _ ⟨rfl, hfound⟩
  have hmatches := (carries_instantiateMatches h hr hpq found).and_returns
    (seen_instantiateMatches found)
  refine hmatches.mono fun p' q' hmirrors => ?_
  obtain ⟨hmirrors, hseen, hall⟩ := hmirrors
  exact ⟨hmirrors, hseen, found, hfound, hall⟩

theorem carries_foldlM {qs : List (Rule × Nat)} (hqs : ∀ rule ∈ qs, rules[rule.2]? = some rule.1)
    (hpq : p.Mirrors answer rules known q) :
    Carries (Scratch.Consistent answer) (qs.foldlM (instantiateRule handler known) p)
      (qs.foldlM (instantiateRule handler known) q) fun p' q' => p'.Mirrors answer rules known q' ∧
        (∀ y, y ∈ p.seen → y ∈ p'.seen) ∧ ∀ rule ∈ qs, p'.Matched answer known rule := by
  induction qs generalizing p q with
  | nil => exact .of_pure ⟨hpq, fun _ hy => hy, by simp⟩
  | cons rule qs ih =>
    obtain ⟨hrule, hqs⟩ := List.forall_mem_cons.1 hqs
    rw [List.foldlM_cons, List.foldlM_cons]
    refine (carries_instantiateRule h hrule hpq).bind fun p₁ q₁ hfirst => ?_
    obtain ⟨hmirrors, hseen, found, hfound, hmatched⟩ := hfirst
    refine (ih hqs hmirrors).mono fun p' q' hrest => ?_
    obtain ⟨hmirrors', hseen', hall⟩ := hrest
    refine ⟨hmirrors', fun y hy => hseen' y (hseen y hy), List.forall_mem_cons.2 ⟨?_, hall⟩⟩
    exact ⟨found, hfound, fun x hx => hseen' _ (hmatched x hx)⟩

theorem yields_instantiateMatches_again (hr : rules[k]? = some r) (hn : rules.length ≤ n)
    (hpq : p.Mirrors answer rules known q) {xs : List Match} (hxs : ∀ x ∈ xs, (k, x) ∈ p.seen) :
    Yields (Scratch.Consistent answer) (instantiateMatches handler { r with span } n q xs) True
      fun q' => p.Mirrors answer rules known q' := by
  induction xs generalizing q with
  | nil => exact .of_pure trivial hpq
  | cons x xs ih =>
    obtain ⟨hx, hxs⟩ := List.forall_mem_cons.1 hxs
    rw [instantiateMatches]
    split
    · exact ih hpq hxs
    · obtain ⟨i, hi, hmatch, hhead⟩ := hpq.made k r x hr hx
      refine (yields_ofMatch h { r with span } n x).locate.bind (fun j _ hj => ?_) fun _ =>
        ⟨i, hmatch⟩
      have hij : Instance.ofMatchBy answer r x = .ok j := hj
      rw [hmatch, Except.ok.injEq] at hij
      subst hij
      exact ih (hpq.push_again hn hi hhead) hxs

/-- When a copy has its turn, the rule has had its own. -/
theorem yields_instantiateRule_again (span : Span) (hr : rules[k]? = some r) (hn : rules.length ≤ n)
    (hpq : p.Mirrors answer rules known q) (hmatched : p.Matched answer known (r, k)) :
    Yields (Scratch.Consistent answer) (instantiateRule handler known q ({ r with span }, n)) True
      fun q' => p.Mirrors answer rules known q' := by
  obtain ⟨found, hfound, hseen⟩ := hmatched
  rw [instantiateRule]
  refine (yields_findMatches h { r with span } n known).locate.bind (fun found' _ hfound' => ?_)
    fun _ => ⟨found, hfound⟩
  have hsame : r.matchesBy answer known = .ok found' := hfound'
  rw [hfound, Except.ok.injEq] at hsame
  subst hsame
  exact yields_instantiateMatches_again h hr hn hpq hseen

theorem carries_round (hr : rules[k]? = some r)
    (hpq : Progress.Mirrors answer rules known { p with derived := [] } { q with derived := [] }) :
    Carries (Scratch.Consistent answer) (Grounding.round handler rules known p)
      (Grounding.round handler (rules ++ [{ r with span }]) known q)
      (Progress.Mirrors answer rules known) := by
  have hzip : (rules ++ [{ r with span }]).zipIdx =
      rules.zipIdx ++ [({ r with span }, rules.length)] := by
    rw [List.zipIdx_append, Nat.zero_add]
    rfl
  have hmem : (r, k) ∈ rules.zipIdx := List.mk_mem_zipIdx_iff_getElem?.2 hr
  rw [Grounding.round, Grounding.round, hzip, List.foldlM_append,
    ← bind_pure (rules.zipIdx.foldlM _ _)]
  refine (carries_foldlM h (fun rule hrule => List.mem_zipIdx_iff_getElem?.1 hrule) hpq).bind
    fun p' q' hrounds => ?_
  obtain ⟨hmirrors, -, hmatched⟩ := hrounds
  have hagain := yields_instantiateRule_again h span hr le_rfl hmirrors (hmatched (r, k) hmem)
  have hpure : Yields (Scratch.Consistent answer) (pure p' : Grounding σ Progress) True
      fun p'' => p'' = p' := .of_pure trivial rfl
  have hsingle : [({ r with span }, rules.length)].foldlM (instantiateRule handler known) q' =
      instantiateRule handler known q' ({ r with span }, rules.length) := by
    rw [List.foldlM_cons]
    exact bind_pure _
  rw [hsingle]
  exact .of_yields hpure hagain id fun _ _ hp hq => hp ▸ hq

theorem carries_instantiateUpTo (hr : rules[k]? = some r) (hknown : known.Pairwise (· < ·))
    (hpq : Progress.Mirrors answer rules known { p with derived := [] } { q with derived := [] })
    (limit : Nat) :
    Carries (Scratch.Consistent answer) (instantiateUpTo handler rules known p limit)
      (instantiateUpTo handler (rules ++ [{ r with span }]) known q limit) fun a b =>
        b.1 = a.1 ∧ Repeats a.2.toList b.2.toList := by
  induction limit generalizing known p q with
  | zero => exact .of_throw
  | succ limit ih =>
    rw [instantiateUpTo, instantiateUpTo]
    refine (carries_round h hr hpq).bind fun p' q' hmirrors => ?_
    have hlearned : Atoms.union known (Atoms.ofList q'.derived) = p'.learned known :=
      hmirrors.learned_eq hknown
    have hderived : ∀ s, s ∈ known ∨ s ∈ p'.derived → s ∈ p'.learned known := by
      simp [Progress.learned]
    dsimp only
    rw [hlearned]
    change Carries _ (if (p'.learned known).length > maxAtoms then _ else _) _ _
    split
    · exact .of_throw
    · change Carries _ (if (p'.learned known).length = known.length then _ else _) _ _
      split
      · exact .of_pure ⟨rfl, hmirrors.instances⟩
      · exact ih (learned_ascending hknown p') (hmirrors.restart hderived)

/-- If a selection is instantiated, so is the selection with a copy of one of its rules behind all
others: with the same atoms, and with instances that repeat some of the instances. -/
theorem carries_ofSelection {s : Selection} (hr : r ∈ s.rules) (span : Span) :
    Carries (Scratch.Consistent answer) (ofSelection handler s)
      (ofSelection handler { s with rules := s.rules ++ [{ r with span }] }) fun a b =>
        b.1 = a.1 ∧ Repeats a.2.toList b.2.toList := by
  obtain ⟨k, hk⟩ := List.mem_iff_getElem?.1 hr
  have hexternals := yields_externals h s.externals []
  rw [ofSelection, ofSelection]
  have hsame : Carries (Scratch.Consistent answer) (externals handler [] s.externals)
      (externals handler [] s.externals) fun known known' =>
        known = known' ∧ known.Pairwise (· < ·) := by
    refine .of_yields hexternals hexternals id fun known known' hknown hknown' => ⟨?_, hknown.1⟩
    exact eq_of_pairwise (fun _ _ => Symbol.lt_asymm) hknown.1 hknown'.1
      fun a => (hknown.2 a).trans (hknown'.2 a).symm
  refine hsame.bind ?_
  rintro known _ ⟨rfl, hknown⟩
  exact carries_instantiateUpTo h hk hknown Progress.mirrors_empty (maxAtoms + 1)

end Grounding

end AnswerSetTest
