import AnswerSetTest.Ground.Instance
import AnswerSetTest.Proofs.Ground.Ascending
import AnswerSetTest.Proofs.Ground.Match

/-!
# Instances

The instances of a rule under the assignments of symbols to its variables, whether or not their
atoms are known. An instance made from a match is the one under the binding of the match, and
every instance whose positive literals are known has such a match.
-/

namespace AnswerSetTest

open Term (Evaluation eval under? allUnder?)

namespace Head

inductive HasTerm : Head → Term → Prop
  | atom (t : Term) : HasTerm (.atom t) t
  | disjunction {ts : List Term} {t : Term} (mem : t ∈ ts) : HasTerm (.disjunction ts) t
  | choice {ts : List Term} {t : Term} (mem : t ∈ ts) : HasTerm (.choice ts) t

/-- The kind and the atoms of an instance's head: the values of the terms under a binding, each
once. A disjunction whose terms have only one value leaves no choice. -/
inductive Evaluates (b : Binding) : Head → HeadKind → List Symbol → Prop
  | atom {t : Term} {ss : List Symbol} (values : under? b t = some ss) :
    Evaluates b (.atom t) .normal ss.eraseDups
  | single {ts : List Term} {rows : List (List Symbol)} {s : Symbol}
      (values : allUnder? b ts = some rows) (single : rows.flatten.eraseDups = [s]) :
    Evaluates b (.disjunction ts) .normal [s]
  | disjunction {ts : List Term} {rows : List (List Symbol)}
      (values : allUnder? b ts = some rows) (several : rows.flatten.eraseDups.length ≠ 1) :
    Evaluates b (.disjunction ts) .disjunction rows.flatten.eraseDups
  | choice {ts : List Term} {rows : List (List Symbol)} (values : allUnder? b ts = some rows) :
    Evaluates b (.choice ts) .choice rows.flatten.eraseDups
  | falsity : Evaluates b .falsity .falsity []

variable {h : Head} {b : Binding} {kind kind' : HeadKind} {ss ss' : List Symbol}

theorem mem_atoms {t : Term} : t ∈ h.atoms ↔ h.HasTerm t := by
  constructor
  · intro ht
    cases h with
    | atom u =>
      obtain rfl := List.mem_singleton.1 ht
      exact .atom _
    | disjunction ts => exact .disjunction ht
    | choice ts => exact .choice ht
    | falsity => cases ht
  · intro ht
    cases ht with
    | atom => exact List.mem_singleton_self t
    | disjunction mem => exact mem
    | choice mem => exact mem

theorem evaluates_kindOf {rows : List (List Symbol)} (hrows : allUnder? b h.atoms = some rows) :
    h.Evaluates b (Instance.kindOf h rows.flatten.eraseDups) rows.flatten.eraseDups := by
  cases h with
  | atom t =>
    obtain ⟨values, rest, hvalues, hrest, rfl⟩ := Term.allUnder?_cons_eq_some.1 hrows
    cases hrest
    rw [List.flatten_singleton]
    exact .atom hvalues
  | disjunction ts =>
    by_cases hlength : rows.flatten.eraseDups.length = 1
    · obtain ⟨s, hs⟩ := List.length_eq_one_iff.1 hlength
      rw [hs]
      exact .single hrows hs
    · have hkind : Instance.kindOf (.disjunction ts) rows.flatten.eraseDups = .disjunction :=
        if_neg fun hone => hlength hone.2
      rw [hkind]
      exact .disjunction hrows hlength
  | choice ts => exact .choice hrows
  | falsity =>
    cases hrows
    exact .falsity

theorem evaluates_iff : h.Evaluates b kind ss ↔ ∃ rows, allUnder? b h.atoms = some rows ∧
    ss = rows.flatten.eraseDups ∧ kind = Instance.kindOf h ss := by
  constructor
  · intro hss
    cases hss with
    | atom values =>
      refine ⟨[_], Term.allUnder?_cons_eq_some.2 ⟨_, [], values, rfl, rfl⟩, ?_, ?_⟩
      · rw [List.flatten_singleton]
      · simp [Instance.kindOf, Head.kind]
    | single values single =>
      exact ⟨_, values, single.symm, by simp [Instance.kindOf, Head.kind]⟩
    | disjunction values several =>
      exact ⟨_, values, rfl, by simp [Instance.kindOf, Head.kind, several]⟩
    | choice values => exact ⟨_, values, rfl, by simp [Instance.kindOf, Head.kind]⟩
    | falsity => exact ⟨[], rfl, rfl, by simp [Instance.kindOf, Head.kind]⟩
  · rintro ⟨rows, hrows, rfl, rfl⟩
    exact evaluates_kindOf hrows

theorem Evaluates.unique (hss : h.Evaluates b kind ss) (hss' : h.Evaluates b kind' ss') :
    kind = kind' ∧ ss = ss' := by
  obtain ⟨rows, hrows, rfl, rfl⟩ := evaluates_iff.1 hss
  obtain ⟨rows', hrows', rfl, rfl⟩ := evaluates_iff.1 hss'
  obtain rfl := Option.some.inj (hrows.symm.trans hrows')
  exact ⟨rfl, rfl⟩

theorem Evaluates.isSome_of_hasTerm (hss : h.Evaluates b kind ss) {t : Term} (ht : h.HasTerm t)
    {v : String} (hv : v ∈ t.vars) : (b.get? v).isSome := by
  obtain ⟨rows, hrows, -, -⟩ := evaluates_iff.1 hss
  obtain ⟨values, hvalues⟩ := Term.exists_under?_of_mem hrows (mem_atoms.2 ht)
  exact Term.isSome_of_under? hvalues hv

end Head

structure Count where
  elements : List Term
  op : Comparison
  bound : Term

namespace Literal

def positive? : Literal → Option Term
  | .atom false t => some t
  | _ => none

def negative? : Literal → Option Term
  | .atom true t => some t
  | _ => none

def count? : Literal → Option Count
  | .count elements op bound => some ⟨elements, op, bound⟩
  | _ => none

/-- The terms of a literal, without the elements of a count. -/
def outerTerms : Literal → List Term
  | .atom _ t => [t]
  | .comparison left _ right => [left, right]
  | .count _ _ bound => [bound]

/-- A literal without calls and pools. Patterns are matched and other terms are evaluated. -/
def Plain : Literal → Prop
  | .atom false t => t.Pattern
  | .atom true t => t.Plain
  | .comparison left _ right => left.Plain ∧ right.Plain
  | .count elements _ bound => (∀ t ∈ elements, t.Pattern) ∧ bound.Plain

instance : DecidablePred Plain
  | .atom false t => inferInstanceAs (Decidable t.Pattern)
  | .atom true t => inferInstanceAs (Decidable t.Plain)
  | .comparison left _ right => inferInstanceAs (Decidable (left.Plain ∧ right.Plain))
  | .count elements _ bound =>
    inferInstanceAs (Decidable ((∀ t ∈ elements, t.Pattern) ∧ bound.Plain))

end Literal

/-- The count of an instance, with the value of its bound. -/
inductive Count.Resolves (b : Binding) : Count → PendingCount → Prop
  | intro {c : Count} {s : Symbol} (h : under? b c.bound = some [s]) :
    Resolves b c ⟨c.elements, b, c.op, s⟩

inductive Count.ResolvesBy (V : Valuation) (b : Binding) : Count → PendingCount → Prop
  | intro {c : Count} {s : Symbol} (h : V.values b c.bound = some [s]) :
    ResolvesBy V b c ⟨c.elements, b, c.op, s⟩

theorem Count.ResolvesBy.plain {b : Binding} {c : Count} {p : PendingCount}
    (h : c.ResolvesBy .plain b p) : c.Resolves b p := by
  obtain ⟨hbound⟩ := h
  exact ⟨hbound⟩

theorem Count.ResolvesBy.unique {V : Valuation} {b : Binding} :
    Relator.RightUnique (Count.ResolvesBy V b) := by
  rintro c p q ⟨hp⟩ ⟨hq⟩
  rw [hp] at hq
  cases hq
  rfl

namespace Rule

def negatives (r : Rule) : List Term := r.body.filterMap Literal.negative?

def counts (r : Rule) : List Count := r.body.filterMap Literal.count?

/-- The terms of a rule, without the elements of its counts. -/
def HasOuterTerm (r : Rule) (t : Term) : Prop :=
  r.head.HasTerm t ∨ ∃ l ∈ r.body, t ∈ l.outerTerms

structure Plain (r : Rule) : Prop where
  head : ∀ t, r.head.HasTerm t → t.Plain
  body : ∀ l ∈ r.body, l.Plain

instance (r : Rule) : Decidable r.Plain :=
  decidable_of_iff ((∀ t ∈ r.head.atoms, t.Plain) ∧ ∀ l ∈ r.body, l.Plain)
    ⟨fun h => ⟨fun t ht => h.1 t (Head.mem_atoms.2 ht), h.2⟩,
      fun h => ⟨fun t ht => h.head t (Head.mem_atoms.1 ht), h.body⟩⟩

structure Evaluates (r : Rule) (b : Binding) (i : Instance) : Prop where
  head : r.head.Evaluates b i.kind i.head
  isAtom : ∀ s ∈ i.head, s.isAtom
  negatives : ∃ rows, allUnder? b r.negatives = some rows ∧ i.negatives = rows.flatten
  counts : List.Forall₂ (Count.Resolves b) r.counts i.counts

/-- The instances of a rule under an assignment of symbols to the named variables outside its
count elements. There is one for each choice of atoms that the positive literals stand for. -/
structure Instantiates (r : Rule) (b : Binding) (i : Instance) : Prop extends
    Evaluates r b i where
  isSome_iff : ∀ v, (b.get? v).isSome ↔ ∃ t, r.HasOuterTerm t ∧ v ∈ t.vars
  positives : List.Forall₂ (Term.Matches b) (r.body.filterMap Literal.positive?) i.positives
  comparisons : ∀ c : Constraint, .comparison c.left c.op c.right ∈ r.body → c.Holds b

variable {r : Rule} {b : Binding} {i j : Instance}

theorem mem_filterMap_iff {α : Type} {f : Literal → Option α} {g : α → Literal} {ls : List Literal}
    {a : α} (hf : ∀ a, f (g a) = some a) (hg : ∀ l a, f l = some a → l = g a) :
    a ∈ ls.filterMap f ↔ g a ∈ ls := by
  rw [List.mem_filterMap]
  constructor
  · rintro ⟨l, hl, h⟩
    exact hg l a h ▸ hl
  · exact fun h => ⟨g a, h, hf a⟩

theorem positives_eq (r : Rule) : r.positives = r.body.filterMap Literal.positive? := rfl

theorem mem_positives {t : Term} : t ∈ r.positives ↔ .atom false t ∈ r.body := by
  rw [positives_eq]
  refine mem_filterMap_iff (fun _ => rfl) fun l t h => ?_
  unfold Literal.positive? at h
  split at h
  · cases h
    rfl
  · cases h

theorem mem_constraints {c : Constraint} :
    c ∈ r.constraints ↔ .comparison c.left c.op c.right ∈ r.body := by
  refine mem_filterMap_iff (g := fun c : Constraint => .comparison c.left c.op c.right)
    (fun _ => rfl) fun l c h => ?_
  split at h
  · cases h
    rfl
  · cases h

theorem mem_negatives {t : Term} : t ∈ r.negatives ↔ .atom true t ∈ r.body := by
  refine mem_filterMap_iff (fun _ => rfl) fun l t h => ?_
  unfold Literal.negative? at h
  split at h
  · cases h
    rfl
  · cases h

theorem mem_counts {c : Count} : c ∈ r.counts ↔ .count c.elements c.op c.bound ∈ r.body := by
  refine mem_filterMap_iff (g := fun c : Count => .count c.elements c.op c.bound)
    (fun _ => rfl) fun l c h => ?_
  unfold Literal.count? at h
  split at h
  · cases h
    rfl
  · cases h

theorem Plain.positives (hr : r.Plain) : ∀ t ∈ r.positives, t.Pattern :=
  fun _ ht => hr.body _ (mem_positives.1 ht)

theorem Plain.constraints (hr : r.Plain) : ∀ c ∈ r.constraints, c.Plain :=
  fun _ hc => ⟨(hr.body _ (mem_constraints.1 hc)).1, (hr.body _ (mem_constraints.1 hc)).2⟩

theorem Plain.gives {σ : Type} {answer answerOnce : String → List Symbol → Evaluation σ Symbol}
    (hr : r.Plain) : ∀ l ∈ r.body, ∀ t ∈ l.outerTerms,
      Valuation.plain.Gives answer t ∧ Valuation.plain.Gives answerOnce t := by
  have hplain : ∀ l ∈ r.body, ∀ t ∈ l.outerTerms, t.Plain := by
    intro l hl t ht
    have hbody := hr.body l hl
    cases l with
    | atom negated u =>
      obtain rfl := List.mem_singleton.1 ht
      cases negated with
      | false => exact Term.Pattern.plain hbody
      | true => exact hbody
    | comparison left op right =>
      rcases List.mem_pair.1 ht with rfl | rfl
      · exact hbody.1
      · exact hbody.2
    | count elements op bound =>
      obtain rfl := List.mem_singleton.1 ht
      exact hbody.2
  exact fun l hl t ht => ⟨fun _ => Term.returns_eval (hplain l hl t ht),
    fun _ => Term.returns_eval (hplain l hl t ht)⟩

theorem Plain.forall₂_standsFor_iff (hr : r.Plain) {ss : List Symbol} :
    List.Forall₂ (Term.StandsFor b) r.positives ss ↔
      List.Forall₂ (Term.Matches b) r.positives ss :=
  forall₂_congr_of_mem fun t ht _ => (hr.positives t ht).standsFor_iff

theorem hasOuterTerm_iff {t : Term} : r.HasOuterTerm t ↔
    r.head.HasTerm t ∨ t ∈ r.positives ∨ t ∈ r.negatives ∨
      (∃ c ∈ r.constraints, t = c.left ∨ t = c.right) ∨ ∃ c ∈ r.counts, t = c.bound := by
  simp only [HasOuterTerm, mem_positives, mem_negatives, mem_constraints, mem_counts]
  refine or_congr_right ⟨?_, ?_⟩
  · rintro ⟨l, hl, ht⟩
    cases l with
    | atom negated u =>
      obtain rfl := List.mem_singleton.1 ht
      cases negated with
      | false => exact .inl hl
      | true => exact .inr (.inl hl)
    | comparison left op right =>
      exact .inr (.inr (.inl ⟨⟨left, op, right⟩, hl, by simpa [Literal.outerTerms] using ht⟩))
    | count elements op bound =>
      exact .inr (.inr (.inr ⟨⟨elements, op, bound⟩, hl, List.mem_singleton.1 ht⟩))
  · rintro (h | h | ⟨c, hc, h⟩ | ⟨c, hc, rfl⟩)
    · exact ⟨_, h, List.mem_singleton_self t⟩
    · exact ⟨_, h, List.mem_singleton_self t⟩
    · exact ⟨_, hc, by simpa [Literal.outerTerms] using h⟩
    · exact ⟨_, hc, List.mem_singleton_self _⟩

/-- The parts of an instance that have values determine each other. -/
theorem Evaluates.unique (hi : r.Evaluates b i) (hj : r.Evaluates b j)
    (h : i.positives = j.positives) : i = j := by
  obtain ⟨hkind, hhead⟩ := hi.head.unique hj.head
  obtain ⟨negatives, hnegatives, hi_negatives⟩ := hi.negatives
  obtain ⟨negatives', hnegatives', hj_negatives⟩ := hj.negatives
  have hnegative : i.negatives = j.negatives := by
    rw [hnegatives, Option.some.injEq] at hnegatives'
    rw [hi_negatives, hj_negatives, hnegatives']
  have hunique : Relator.RightUnique (Count.Resolves b) := by
    rintro c x y ⟨hx⟩ ⟨hy⟩
    rw [hx] at hy
    cases hy
    rfl
  have hcounts := List.right_unique_forall₂' hunique hi.counts hj.counts
  cases i
  cases j
  congr

theorem Evaluates.elements (hi : r.Evaluates b i) (hr : r.Plain) :
    ∀ p ∈ i.counts, ∀ t ∈ p.elements, t.Pattern := by
  intro p hp
  obtain ⟨c, hc, ⟨hbound⟩⟩ := (exists_mem_of_forall₂ hi.counts).2 p hp
  exact (hr.body _ (mem_counts.1 hc)).1

end Rule

section Evaluation

variable {σ : Type} {answer answerOnce : String → List Symbol → Evaluation σ Symbol} {b : Binding}

theorem returns_requireAtoms (ss : List Symbol) :
    Returns (requireAtoms ss : Evaluation σ Unit) fun _ => ∀ s ∈ ss, s.isAtom := by
  induction ss with
  | nil => exact .of_pure (by simp)
  | cons s ss ih =>
    rw [requireAtoms]
    split
    · next hs => exact ih.mono fun _ hss => List.forall_mem_cons.2 ⟨hs, hss⟩
    · exact .of_throw

namespace Instance

theorem returns_headAtoms {ts : List Term} (hts : ∀ t ∈ ts, t.Plain) (before : List Symbol) :
    Returns (headAtoms answer b before ts) fun head => ∃ rows, allUnder? b ts = some rows ∧
      head = rows.flatten.foldl appendNew before ∧ ∀ s ∈ head, s ∈ before ∨ s.isAtom := by
  induction ts generalizing before with
  | nil =>
    rw [headAtoms]
    exact .of_pure ⟨[], rfl, rfl, fun s hs => .inl hs⟩
  | cons t ts ih =>
    obtain ⟨ht, hts⟩ := List.forall_mem_cons.1 hts
    rw [headAtoms]
    refine (Term.returns_eval ht).bind fun values hvalues => ?_
    refine (returns_requireAtoms values).bind fun _ hatoms => (ih hts _).mono fun head hhead => ?_
    obtain ⟨rows, hrows, hhead, hmem⟩ := hhead
    refine ⟨values :: rows, Term.allUnder?_cons_eq_some.2 ⟨_, _, hvalues, hrows, rfl⟩, ?_, ?_⟩
    · rw [hhead, List.flatten_cons, List.foldl_append]
    · intro s hs
      rcases hmem s hs with h | h
      · exact (mem_foldl_appendNew.1 h).imp_right (hatoms s)
      · exact .inr h

theorem returns_addBody {V : Valuation} {ls : List Literal}
    (hgives : ∀ l ∈ ls, ∀ t ∈ l.outerTerms, V.Gives answer t ∧ V.Gives answerOnce t)
    (i : Instance) :
    Returns (addBody answer answerOnce b i ls) fun j => ∃ rows counts,
      List.Forall₂ (fun t vs => V.values b t = some vs) (ls.filterMap Literal.negative?) rows ∧
      List.Forall₂ (Count.ResolvesBy V b) (ls.filterMap Literal.count?) counts ∧
      j = { i with negatives := i.negatives ++ rows.flatten, counts := i.counts ++ counts } := by
  induction ls generalizing i with
  | nil =>
    rw [addBody]
    exact .of_pure ⟨[], [], .nil, .nil, by simp⟩
  | cons l ls ih =>
    obtain ⟨hl, hls⟩ := List.forall_mem_cons.1 hgives
    clear hgives
    cases l with
    | atom negated t =>
      cases negated with
      | false =>
        rw [addBody]
        exact ih hls i
      | true =>
        rw [addBody]
        have ht := (hl t (List.mem_singleton_self t)).1
        refine (ht b).bind fun values hvalues => (ih hls _).mono fun j hj => ?_
        obtain ⟨rows, counts, hrows, hcounts, rfl⟩ := hj
        exact ⟨values :: rows, counts, .cons hvalues hrows, hcounts, by simp⟩
    | comparison left op right =>
      rw [addBody]
      exact ih hls i
    | count elements op bound =>
      rw [addBody]
      have hbound := (hl bound (List.mem_singleton_self bound)).2
      refine (hbound b).bind fun values hvalues => ?_
      split
      · next s =>
        refine (ih hls _).mono fun j hj => ?_
        obtain ⟨rows, counts, hrows, hcounts, rfl⟩ := hj
        refine ⟨rows, ⟨elements, b, op, s⟩ :: counts, hrows, ?_, by simp⟩
        have hresolves : Count.ResolvesBy V b ⟨elements, op, bound⟩ ⟨elements, b, op, s⟩ :=
          ⟨hvalues⟩
        exact .cons hresolves hcounts
      · exact .of_throw

theorem returns_ofMatch {r : Rule} (hr : r.Plain) (x : Match) :
    Returns (ofMatch answer answerOnce r x) fun i =>
      r.Evaluates x.binding i ∧ i.positives = x.positives := by
  rw [ofMatch]
  have hplain : ∀ t ∈ r.head.atoms, t.Plain := fun t ht => hr.head t (Head.mem_atoms.1 ht)
  refine (returns_headAtoms hplain []).bind fun head hhead => ?_
  obtain ⟨heads, hheads, rfl, hatoms⟩ := hhead
  refine (returns_addBody (V := .plain) hr.gives _).mono fun i hi => ?_
  obtain ⟨rows, counts, hrows, hcounts, rfl⟩ := hi
  have hhead : heads.flatten.foldl appendNew [] = heads.flatten.eraseDups := by
    rw [foldl_appendNew, List.nil_append, List.filter_eq_self.2 fun _ _ => by simp]
  refine ⟨⟨?_, ?_, ⟨rows, Term.allUnder?_eq_some.2 hrows, by simp⟩,
    hcounts.imp fun _ _ h => h.plain⟩, rfl⟩
  · rw [hhead]
    exact Head.evaluates_kindOf hheads
  · exact fun s hs => (hatoms s hs).resolve_left List.not_mem_nil

end Instance

end Evaluation

section Matches

variable {r : Rule} {known : List Symbol} {found : List Match} {x : Match} {i : Instance}

/-- Where evaluation succeeds, a match binds all named variables outside count elements. -/
theorem Finds.instantiates (hr : r.Plain)
    (hfound : Finds .plain known r.positives r.constraints found) (hx : x ∈ found)
    (hi : r.Evaluates x.binding i) (hps : i.positives = x.positives) :
    r.Instantiates x.binding i := by
  have hsol := hfound.solves x hx
  have hstands := hr.forall₂_standsFor_iff.1 hsol.stands
  refine { hi with isSome_iff := fun v => ?_, positives := hps ▸ hstands,
                   comparisons := fun c hc => ?_ }
  swap
  · exact Constraint.holdsBy_plain.1 (hsol.holds c (Rule.mem_constraints.2 hc))
  simp only [Rule.hasOuterTerm_iff]
  constructor
  · intro hv
    rcases (hfound.isSome_iff x hx v).1 hv with ⟨t, ht, hvt⟩ | ⟨c, hc, hvc | hvc⟩
    · exact ⟨t, .inr (.inl ht), hvt⟩
    · exact ⟨c.left, .inr (.inr (.inr (.inl ⟨c, hc, .inl rfl⟩))), hvc⟩
    · exact ⟨c.right, .inr (.inr (.inr (.inl ⟨c, hc, .inr rfl⟩))), hvc⟩
  · rintro ⟨t, ht | ht | ht | ⟨c, hc, rfl | rfl⟩ | ⟨c, hc, rfl⟩, hv⟩
    · exact hi.head.isSome_of_hasTerm ht hv
    · exact (hfound.isSome_iff x hx v).2 (.inl ⟨t, ht, hv⟩)
    · obtain ⟨rows, hrows, -⟩ := hi.negatives
      obtain ⟨values, hvalues⟩ := Term.exists_under?_of_mem hrows ht
      exact Term.isSome_of_under? hvalues hv
    · exact (hfound.isSome_iff x hx v).2 (.inr ⟨c, hc, .inl hv⟩)
    · exact (hfound.isSome_iff x hx v).2 (.inr ⟨c, hc, .inr hv⟩)
    · obtain ⟨p, -, ⟨hvalues⟩⟩ := (exists_mem_of_forall₂ hi.counts).1 c hc
      exact Term.isSome_of_under? hvalues hv

/-- If every match has been made an instance, so has every assignment whose positive literals are
known. -/
theorem Finds.mem_of_instantiates (hr : r.Plain)
    (hfound : Finds .plain known r.positives r.constraints found) {instances : List Instance}
    (hmade : ∀ x ∈ found, ∃ j ∈ instances, r.Evaluates x.binding j ∧ j.positives = x.positives)
    {b : Binding} (hi : r.Instantiates b i) (hknown : ∀ s ∈ i.positives, s ∈ known) :
    i ∈ instances := by
  have hnone : b.get? "_" = none := by
    rw [← Option.not_isSome_iff_eq_none, hi.isSome_iff]
    rintro ⟨t, -, ht⟩
    exact Term.anonymous_notMem_vars t ht
  obtain ⟨x, hx, hle, hps⟩ := hfound.complete b i.positives hnone
    ⟨hr.forall₂_standsFor_iff.2 hi.positives, hknown,
      fun c hc => Constraint.holdsBy_plain.2 (hi.comparisons c (Rule.mem_constraints.1 hc))⟩
  obtain ⟨j, hj, heval, hjps⟩ := hmade x hx
  -- the match binds all variables of the assignment and agrees with it
  have hsame : x.binding = b := by
    refine Binding.eq_of_le hle fun v hv => ?_
    rw [(hfound.instantiates hr hx heval hjps).isSome_iff, ← hi.isSome_iff]
    exact hv
  rw [hsame] at heval
  rwa [hi.toEvaluates.unique heval (hps.symm.trans hjps.symm)]

end Matches

end AnswerSetTest
