import AnswerSetTest.Ground.Evaluation
import AnswerSetTest.Proofs.Ground.Outcome
import AnswerSetTest.Proofs.Ground.Unpooling
import AnswerSetTest.Proofs.Syntax.Locality

/-!
# Pools in parentheses

Parentheses around one term stand for the term. Around several terms with semicolons between them
they do not group: each of the terms becomes a tuple of one.
-/

namespace AnswerSetTest

open Reading Sides
open Term (Evaluation)

namespace Term

section Tokens

inductive Alternatives : List Token → List Term → Prop
  | one {us : List Token} {t : Term} (h : ReadsAs us t) : Alternatives us [t]
  | more {us vs : List Token} {sep : Token} {t : Term} {ts : List Term} (h : ReadsAs us t)
    (hsep : sep.kind = .semicolon) (hrest : Alternatives vs ts) :
    Alternatives (us ++ sep :: vs) (t :: ts)

/-- What parentheses around terms with semicolons between them stand for. -/
def group : List Term → Term
  | [t] => t
  | ts => .pool (ts.map fun t => .function "" [t])

variable {us : List Token} {t : Term} {ts : List Term} {stop : Token} {depth : Nat}

theorem ReadsAs.ne_nil (h : ReadsAs us t) : us ≠ [] := by
  rintro rfl
  obtain ⟨s, last, last', hrun⟩ := h
  rw [read_apply] at hrun
  exact needs_readWithin _ s last t _ hrun

/-- A term begins with no token that ends an empty list of arguments. -/
theorem ReadsAs.begins {first : Token} (h : ReadsAs (first :: us) t) :
    Symbol.begins first.kind := by
  obtain ⟨s, last, last', hrun⟩ := h
  rw [read_apply, Term.readWithin] at hrun
  obtain ⟨low, c, hlow, -⟩ := bind_eq_ok hrun
  obtain ⟨kind, start, stop⟩ := first
  cases kind with
  | rightParen | semicolon => cases hlow
  | _ => rfl

theorem ReadsAs.readArguments (h : ReadsAs us t) (hdepth : us.length < depth)
    (hstop : stop.kind = .semicolon ∨ stop.kind = .rightParen) (s : Source) (last : Option Token)
    (tail : List Token) :
    ∃ last', Term.readArguments (Term.readWithin depth) s ⟨last, us ++ stop :: tail⟩ =
      (.ok [t], ⟨last', stop :: tail⟩) := by
  obtain ⟨first, rest, rfl⟩ := List.exists_cons_of_ne_nil h.ne_nil
  have hclear : Clear onward (stop :: tail) := by
    intro u hu
    obtain rfl := Option.some.inj hu
    rcases hstop with hstop | hstop <;> rw [hstop] <;> decide
  have hcomma : stop.kind ≠ .comma := by
    rcases hstop with hstop | hstop <;> rw [hstop] <;> decide
  obtain ⟨last', hread⟩ := h.readWithin hdepth s last hclear
  refine ⟨last', ?_⟩
  rw [List.cons_append, Symbol.readArguments_of_begins h.begins, separated_apply, separatedUpTo_eq]
  rw [List.cons_append] at hread
  rw [bind_eq_of_ok hread]
  exact separatedRest_of_false t _ (take?_of_ne s last' tail hcomma)

theorem Alternatives.readAlternatives (h : Alternatives us ts) (hdepth : us.length < depth)
    (hstop : stop.kind = .rightParen) {limit : Nat} (hlimit : us.length ≤ limit) (s : Source)
    (last : Option Token) (tail : List Token) :
    ∃ last', separatedUpTo (take? .semicolon) (Term.readArguments (Term.readWithin depth)) limit s
        ⟨last, us ++ stop :: tail⟩ = (.ok (ts.map fun t => [t]), ⟨last', stop :: tail⟩) := by
  induction h generalizing limit last with
  | one h =>
    obtain ⟨last', hread⟩ := h.readArguments hdepth (.inr hstop) s last tail
    refine ⟨last', ?_⟩
    rw [separatedUpTo_eq, bind_eq_of_ok hread]
    exact separatedRest_of_false _ limit (take?_of_ne s last' tail (by rw [hstop]; decide))
  | @more us vs sep t ts h hsep _ ih =>
    rw [List.length_append, List.length_cons] at hdepth hlimit
    obtain ⟨n, rfl⟩ : ∃ n, limit = n + 1 := Nat.exists_eq_add_one_of_ne_zero (by omega)
    have hus : us.length < depth := by omega
    have hvs : vs.length < depth := by omega
    have hn : vs.length ≤ n := by omega
    obtain ⟨last₁, hread⟩ := h.readArguments hus (.inl hsep) s last (vs ++ stop :: tail)
    obtain ⟨last', hrest⟩ := ih hvs hn (some sep)
    refine ⟨last', ?_⟩
    rw [List.append_assoc, List.cons_append, separatedUpTo_eq, bind_eq_of_ok hread,
      separatedRest_of_true _ n (take?_of_eq s last₁ _ hsep), bind_eq_of_ok hrest]
    rfl

theorem Alternatives.ne_nil (h : Alternatives us ts) : ts ≠ [] := by
  cases h <;> exact List.cons_ne_nil _ _

theorem group_eq (hts : ts ≠ []) :
    (match ts.map fun t => [t] with
      | [[t]] => pure t
      | _ => pure (ofAlternatives (.function "") (ts.map fun t => [t])) : Reading Term) =
      pure (group ts) := by
  cases ts with
  | nil => exact absurd rfl hts
  | cons t ts =>
    cases ts with
    | nil => rfl
    | cons t' ts =>
      have hmap : (fun args => Term.function "" args) ∘ (fun t => [t]) =
          fun t => Term.function "" [t] := rfl
      rw [group, ← hmap, ← List.map_map]
      · rfl
      · exact nofun

variable {opening closing : Token}

theorem Alternatives.readPrimary (h : Alternatives us ts) (hopening : opening.kind = .leftParen)
    (hclosing : closing.kind = .rightParen) (hdepth : us.length < depth) (s : Source)
    (last : Option Token) (tail : List Token) :
    Term.readPrimary (readWithin depth) s ⟨last, opening :: (us ++ closing :: tail)⟩ =
      (.ok (group ts), ⟨some closing, tail⟩) := by
  have hlimit : us.length ≤ (us ++ closing :: tail).length := by
    rw [List.length_append]
    omega
  obtain ⟨last', hread⟩ := h.readAlternatives hdepth hclosing hlimit s (some opening) tail
  have hread' : Term.readAlternatives (Term.readWithin depth) s
      ⟨some opening, us ++ closing :: tail⟩ = _ := hread
  rw [Symbol.readPrimary_leftParen hopening, bind_eq_of_ok hread',
    bind_eq_of_ok (expect_of_eq _ s last' tail hclosing)]
  exact congrFun (congrFun (group_eq h.ne_nil) s) _

/-- Terms with semicolons between them and parentheses around them are read as one term, wherever a
term is read: with any number of terms around it, and before anything but the dots of an
interval. -/
theorem Alternatives.readWithin (h : Alternatives us ts) (hopening : opening.kind = .leftParen)
    (hclosing : closing.kind = .rightParen) (hdepth : us.length + 1 < depth) (s : Source)
    (last : Option Token) {tail : List Token} (htail : Clear [.dots] tail) :
    Term.readWithin depth s ⟨last, opening :: (us ++ closing :: tail)⟩ =
      (.ok (group ts), ⟨some closing, tail⟩) := by
  obtain ⟨n, rfl⟩ : ∃ n, depth = n + 1 := Nat.exists_eq_add_one_of_ne_zero (by omega)
  have hus : us.length < n := by omega
  have hprimary := h.readPrimary hopening hclosing hus s last tail
  have hdots : take? .dots s ⟨some closing, tail⟩ = (.ok false, ⟨some closing, tail⟩) := by
    cases tail with
    | nil => rfl
    | cons t tail =>
      apply take?_of_ne
      exact fun ht => htail t rfl (List.mem_singleton.2 ht)
  rw [Term.readWithin, bind_eq_of_ok hprimary, bind_eq_of_ok hdots]
  rfl

theorem Alternatives.read (h : Alternatives us ts) (hopening : opening.kind = .leftParen)
    (hclosing : closing.kind = .rightParen) (s : Source) (last : Option Token) {tail : List Token}
    (htail : Clear [.dots] tail) :
    Term.read s ⟨last, opening :: (us ++ closing :: tail)⟩ =
      (.ok (group ts), ⟨some closing, tail⟩) := by
  rw [read_apply]
  refine h.readWithin hopening hclosing ?_ s last htail
  simp only [List.length_cons, List.length_append]
  omega

end Tokens

section Values

variable {σ : Type} (answer : String → List Symbol → Evaluation σ Symbol) (b : Binding) (s : σ)

/-- One of the terms without pools that a term stands for has a value. -/
def HasValue (t : Term) (v : Symbol) : Prop :=
  ∃ u ∈ t.unpool, ∃ vs s', u.eval answer b s = (.ok vs, s') ∧ v ∈ vs

variable {answer b s} {t : Term} {ts : List Term} {v : Symbol}

theorem unpoolAll_eq_map (ts : List Term) : unpoolAll ts = ts.map unpool := by
  induction ts with
  | nil => rw [unpoolAll, List.map_nil]
  | cons t ts ih => rw [unpoolAll, ih, List.map_cons]

theorem hasValue_pool :
    HasValue answer b s (.pool ts) v ↔ ∃ t ∈ ts, HasValue answer b s t v := by
  have hunpool : ∀ u, u ∈ (Term.pool ts).unpool ↔ ∃ t ∈ ts, u ∈ t.unpool := by
    intro u
    rw [unpool, unpoolAll_eq_map, List.mem_flatten]
    simp
  constructor
  · rintro ⟨u, hu, hvalue⟩
    obtain ⟨t, ht, hut⟩ := (hunpool u).1 hu
    exact ⟨t, ht, u, hut, hvalue⟩
  · rintro ⟨t, ht, u, hu, hvalue⟩
    exact ⟨u, (hunpool u).2 ⟨t, ht, hu⟩, hvalue⟩

theorem eval_singleton (name : String) (u : Term) :
    (Term.function name [u]).eval answer b =
      (u.eval answer b >>= fun vs => pure (vs.map fun v => .function name [v])) := by
  have hproduct : ∀ vs : List Symbol, (product [vs]).map (Symbol.function name) =
      vs.map fun v => .function name [v] := by
    intro vs
    rw [product, product, List.map_flatMap, List.map_eq_flatMap]
    rfl
  rw [eval, evalAll, evalAll]
  simp only [bind_assoc, pure_bind, hproduct]

theorem hasValue_singleton (name : String) : HasValue answer b s (.function name [t]) v ↔
    ∃ u, HasValue answer b s t u ∧ v = .function name [u] := by
  have hunpool : (Term.function name [t]).unpool = t.unpool.map fun u => .function name [u] := by
    rw [unpool, unpoolAll, unpoolAll, product, product, List.map_flatMap, List.map_eq_flatMap]
    rfl
  constructor
  · rintro ⟨w, hw, vs, s', hrun, hv⟩
    rw [hunpool] at hw
    obtain ⟨u, hu, rfl⟩ := List.mem_map.1 hw
    rw [eval_singleton] at hrun
    obtain ⟨us, s₁, hus, hvs⟩ := Returns.bind_eq_ok hrun
    cases hvs
    obtain ⟨a, ha, rfl⟩ := List.mem_map.1 hv
    exact ⟨a, ⟨u, hu, us, _, hus, ha⟩, rfl⟩
  · rintro ⟨a, ⟨u, hu, us, s', hus, ha⟩, rfl⟩
    refine ⟨.function name [u], ?_, us.map fun v => .function name [v], s', ?_, ?_⟩
    · rw [hunpool]
      exact List.mem_map_of_mem hu
    · rw [eval_singleton, Returns.bind_eq_of_ok hus]
      rfl
    · exact List.mem_map_of_mem ha

/-- Parentheses around several terms stand for the tuples of one of their values. -/
theorem hasValue_group (hlength : ts.length ≠ 1) : HasValue answer b s (group ts) v ↔
    ∃ t ∈ ts, ∃ u, HasValue answer b s t u ∧ v = .tuple [u] := by
  have hgroup : group ts = .pool (ts.map fun t => .function "" [t]) := by
    unfold group
    split
    · exact absurd rfl hlength
    · rfl
  rw [hgroup, hasValue_pool]
  simp only [List.mem_map, exists_exists_and_eq_and, hasValue_singleton]
  exact Iff.rfl

end Values

/-- Terms with semicolons between them and parentheses around them are read as one term, as an
argument and as a side of a comparison. The term has the values of the one term between the
parentheses, or, if there are several, the tuples of one of the values of all of them. -/
theorem parenthesized_values {us : List Token} {ts : List Term} (h : Alternatives us ts)
    {opening closing : Token} (hopening : opening.kind = .leftParen)
    (hclosing : closing.kind = .rightParen) :
    ∃ t, (∀ s last tail, Clear [.dots] tail →
        Term.read s ⟨last, opening :: (us ++ closing :: tail)⟩ = (.ok t, ⟨some closing, tail⟩) ∧
        ∀ depth, us.length + 1 < depth →
          readWithin depth s ⟨last, opening :: (us ++ closing :: tail)⟩ =
            (.ok t, ⟨some closing, tail⟩)) ∧
      ∀ {σ : Type} (answer : String → List Symbol → Evaluation σ Symbol) (b : Binding) (s : σ)
        (v : Symbol),
        (∀ t₁, ts = [t₁] → (HasValue answer b s t v ↔ HasValue answer b s t₁ v)) ∧
        (2 ≤ ts.length → (HasValue answer b s t v ↔
          ∃ t₁ ∈ ts, ∃ u, HasValue answer b s t₁ u ∧ v = .tuple [u])) := by
  refine ⟨group ts, fun s last tail htail => ⟨h.read hopening hclosing s last htail,
    fun depth hdepth => h.readWithin hopening hclosing hdepth s last htail⟩,
    fun answer b s v => ⟨?_, fun hlength => hasValue_group (by omega)⟩⟩
  rintro t₁ rfl
  exact Iff.rfl

/-!
The text `p((1;2)).`.
-/

namespace Sample

def opening : Token := ⟨.leftParen, 2, 3⟩

def inside : List Token := [⟨.number 1, 3, 4⟩, ⟨.semicolon, 4, 5⟩, ⟨.number 2, 5, 6⟩]

def closing : Token := ⟨.rightParen, 6, 7⟩

def tuples : Term := .pool [.function "" [.number 1], .function "" [.number 2]]

def unanswered (_ : String) (_ : List Symbol) : Evaluation Unit Symbol := throw .countBound

theorem readsAs_number (n : Int64) (start stop : Nat) :
    ReadsAs [⟨.number n, start, stop⟩] (.number n) :=
  ⟨⟨[], none⟩, none, some ⟨.number n, start, stop⟩, rfl⟩

theorem alternatives_inside : Alternatives inside [.number 1, .number 2] :=
  .more (readsAs_number 1 3 4) rfl (.one (readsAs_number 2 5 6))

theorem hasValue_number {n : Int64} {v : Symbol} :
    HasValue unanswered .empty () (.number n) v ↔ v = .number n := by
  constructor
  · rintro ⟨u, hu, vs, s', hrun, hv⟩
    rw [unpool, List.mem_singleton] at hu
    subst hu
    rw [eval] at hrun
    cases hrun
    exact List.mem_singleton.1 hv
  · rintro rfl
    exact ⟨.number n, by rw [unpool, List.mem_singleton], [.number n], (), by rw [eval]; rfl,
      List.mem_singleton_self _⟩

end Sample

theorem parenthesized_values_sample :
    Alternatives Sample.inside [.number 1, .number 2] ∧
      Sample.opening.kind = .leftParen ∧ Sample.closing.kind = .rightParen ∧
      ∃ t, (Term.read ⟨[], none⟩ ⟨none, Sample.opening :: (Sample.inside ++ [Sample.closing])⟩).1 =
          .ok t ∧
        ∀ v, HasValue Sample.unanswered .empty () t v ↔
          v = .tuple [.number 1] ∨ v = .tuple [.number 2] := by
  have hopening : Sample.opening.kind = .leftParen := rfl
  have hclosing : Sample.closing.kind = .rightParen := rfl
  obtain ⟨t, hread, hvalues⟩ := parenthesized_values Sample.alternatives_inside hopening hclosing
  obtain ⟨htext, -⟩ := hread ⟨[], none⟩ none [] nofun
  refine ⟨Sample.alternatives_inside, hopening, hclosing, t, by rw [htext], fun v => ?_⟩
  rw [(hvalues Sample.unanswered .empty () v).2 (Nat.le_refl 2)]
  simp [Sample.hasValue_number]

/-- The text `(1;2)` does not stand for the numbers. -/
theorem parenthesized_not_union :
    ∃ span, Program.parse "p((1;2))." none =
        .ok ⟨"<string>", [.rule ⟨.atom (.function "p" [Sample.tuples]), [], span⟩]⟩ ∧
      HasValue Sample.unanswered .empty () (.number 1) (.number 1) ∧
      ¬ HasValue Sample.unanswered .empty () Sample.tuples (.number 1) := by
  refine ⟨_, rfl, Sample.hasValue_number.2 rfl, ?_⟩
  rw [Sample.tuples, hasValue_pool]
  simp [hasValue_singleton]

end Term

end AnswerSetTest
