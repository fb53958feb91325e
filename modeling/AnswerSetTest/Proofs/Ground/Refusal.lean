import AnswerSetTest.Proofs.Ground.Selection
import AnswerSetTest.Proofs.Ground.Simulation
import AnswerSetTest.Proofs.Ground.Valuation

/-!
# Refused calls

A call that the handler never answers makes the term around it fail, and with the term the instance
of every match under which the call is made. What a grounding keeps of its state goes through all
its steps if it goes through the answers, so a refused call is never among the answers kept.
-/

namespace AnswerSetTest

open Term (Evaluation)

def Fails {ε σ α : Type} (P : σ → Prop) (x : ExceptT ε (StateM σ) α) : Prop :=
  ∀ s, P s → ∃ e, (x s).1 = .error e

namespace Fails

variable {ε σ α β : Type} {P : σ → Prop} {x : ExceptT ε (StateM σ) α}
  {f : α → ExceptT ε (StateM σ) β}

theorem bind (h : Fails P x) : Fails P (x >>= f) := by
  intro s hs
  obtain ⟨e, he⟩ := h s hs
  exact ⟨e, congrArg Prod.fst (Returns.bind_eq_of_error (Prod.ext he rfl))⟩

theorem of_bind (hx : Keeps P x) (hf : ∀ a, Fails P (f a)) : Fails P (x >>= f) := by
  intro s hs
  cases hr : (x s).1 with
  | ok a =>
    rw [Returns.bind_eq_of_ok (Prod.ext hr rfl)]
    exact hf a _ (hx s hs)
  | error e => exact ⟨e, congrArg Prod.fst (Returns.bind_eq_of_error (Prod.ext hr rfl))⟩

theorem not_ok (h : Fails P x) {s s' : σ} {a : α} (hs : P s) : x s ≠ (.ok a, s') := by
  intro hx
  obtain ⟨e, he⟩ := h s hs
  rw [hx] at he
  cases he

theorem of_follows {y : ExceptT ε (StateM σ) α} (h : Fails P y) (hxy : Follows x y) :
    Fails P x := by
  intro s hs
  cases hr : (x s).1 with
  | ok a => exact absurd (hxy s a _ (Prod.ext hr rfl)) (h.not_ok hs)
  | error e => exact ⟨e, rfl⟩

end Fails

namespace Term

theorem anyCall_iff {ts : List Term} : anyCall ts ↔ ∃ t ∈ ts, t.hasCall := by
  induction ts with
  | nil => simp [anyCall]
  | cons t ts ih => simp [anyCall, ih]

/-- A term mentions a call whose arguments have the given values under a binding. -/
inductive Makes (b : Binding) (name : String) (values : List Symbol) : Term → Prop
  | here {args : List Term} (h : List.Forall₂ (fun t v => under? b t = some [v]) args values) :
    Makes b name values (.call name args)
  | function {f : String} {args : List Term} {t : Term} (ht : t ∈ args)
    (h : Makes b name values t) : Makes b name values (.function f args)
  | call {f : String} {args : List Term} {t : Term} (ht : t ∈ args)
    (h : Makes b name values t) : Makes b name values (.call f args)
  | low {low high : Term} (h : Makes b name values low) : Makes b name values (.interval low high)
  | high {low high : Term} (h : Makes b name values high) :
    Makes b name values (.interval low high)
  | pool {alternatives : List Term} {t : Term} (ht : t ∈ alternatives)
    (h : Makes b name values t) : Makes b name values (.pool alternatives)

variable {b c : Binding} {name : String} {values : List Symbol} {t : Term} {ts : List Term}

theorem Makes.hasCall (h : t.Makes b name values) : t.hasCall := by
  induction h with
  | here => rfl
  | function ht _ ih => exact anyCall_iff.2 ⟨_, ht, ih⟩
  | call => rfl
  | low _ ih => simp [Term.hasCall, ih]
  | high _ ih => simp [Term.hasCall, ih]
  | pool ht _ ih => exact anyCall_iff.2 ⟨_, ht, ih⟩

theorem Makes.ne_variable (h : t.Makes b name values) (v : String) : t ≠ .variable v := by
  rintro rfl
  cases h

theorem StandsFor.not_hasCall {s : Symbol} (h : t.StandsFor b s) : ¬ t.hasCall := by
  induction t using Term.induct generalizing s with
  | number | text | var => simp [hasCall]
  | function name args ih =>
    cases h with
    | function _ hargs =>
      rw [hasCall, anyCall_iff]
      rintro ⟨t, ht, hcall⟩
      obtain ⟨u, -, hu⟩ := (exists_mem_of_forall₂ hargs).1 t ht
      exact ih t ht hu hcall
  | interval low high =>
    have hbound : ∀ {u : Term} {n : Int64}, boundNumber? b u = some n → u.hasCall = false := by
      intro u n hn
      cases u with
      | number | «variable» => rfl
      | text | function | call | interval | pool => cases hn
    cases h with
    | interval hlow hhigh => simp [hasCall, hbound hlow, hbound hhigh]
  | call | pool => cases h

section Evaluation

variable {σ : Type} {P : σ → Prop} {answer : String → List Symbol → Evaluation σ Symbol}

theorem fails_eval_of_le (h : b ≤ c) (ht : Fails P (t.eval answer c)) :
    Fails P (t.eval answer b) :=
  ht.of_follows (follows_eval (P := fun _ => True) (fun v _ s hs => h v s hs) trivial t
    fun _ _ => trivial)

variable (hkeeps : ∀ n args, Keeps P (answer n args))

include hkeeps

theorem keeps_eval (b : Binding) (t : Term) : Keeps P (t.eval answer b) :=
  @Congruent.eval σ σ _ answer answer (Keeps.congruent P) hkeeps b t

theorem fails_evalAll (ht : t ∈ ts) (h : Fails P (t.eval answer b)) :
    Fails P (evalAll answer b ts) := by
  induction ts with
  | nil => cases ht
  | cons u us ih =>
    rw [evalAll]
    rcases List.mem_cons.1 ht with rfl | ht
    · exact h.bind
    · exact .of_bind (keeps_eval hkeeps b u) fun _ => (ih ht).bind

theorem Makes.fails_eval (hrefused : Fails P (answer name values)) (h : t.Makes b name values) :
    Fails P (t.eval answer b) := by
  induction h with
  | @here args hargs =>
    intro s hs
    have hrows : allUnder? b args = some (values.map fun v => [v]) :=
      allUnder?_eq_some.2 (List.forall₂_map_right_iff.2 hargs)
    -- the arguments have single values, so the call is the first one that is made
    have hrun : evalAll answer b args s = (.ok (values.map fun v => [v]), s) :=
      evalAll_of_allUnder? (fun _ _ _ s h => eval_of_under? h s) hrows s
    rw [eval, Returns.bind_eq_of_ok hrun, product_map_singleton, List.mapM_cons]
    exact hrefused.bind s hs
  | function ht _ ih =>
    rw [eval]
    exact (fails_evalAll hkeeps ht ih).bind
  | call ht _ ih =>
    rw [eval]
    exact (fails_evalAll hkeeps ht ih).bind
  | low _ ih =>
    rw [eval]
    exact ih.bind
  | @high low high _ ih =>
    rw [eval]
    refine .of_bind (keeps_eval hkeeps b low) fun lows => ?_
    exact .of_bind ((Keeps.congruent P).singleNumber lows) fun _ => ih.bind
  | pool ht _ ih =>
    rw [eval]
    exact (fails_evalAll hkeeps ht ih).bind

end Evaluation

end Term

namespace Instance

section

variable {σ : Type} {P : σ → Prop} {answer answerOnce : String → List Symbol → Evaluation σ Symbol}
  {b : Binding} {t : Term} {ts : List Term} {ls : List Literal}
  (hkeeps : ∀ n args, Keeps P (answer n args))

include hkeeps

theorem fails_headAtoms (ht : t ∈ ts) (h : Fails P (t.eval answer b)) (before : List Symbol) :
    Fails P (headAtoms answer b before ts) := by
  induction ts generalizing before with
  | nil => cases ht
  | cons u us ih =>
    rw [headAtoms]
    rcases List.mem_cons.1 ht with rfl | ht
    · exact h.bind
    · refine .of_bind (Term.keeps_eval hkeeps b u) fun atoms => ?_
      exact .of_bind ((Keeps.congruent P).requireAtoms atoms) fun _ => ih ht _

variable (honce : ∀ n args, Keeps P (answerOnce n args))

include honce

theorem fails_addBody (h : (∃ t, .atom true t ∈ ls ∧ Fails P (t.eval answer b)) ∨
      ∃ elements op bound, .count elements op bound ∈ ls ∧ Fails P (bound.eval answerOnce b))
    (i : Instance) : Fails P (addBody answer answerOnce b i ls) := by
  induction ls generalizing i with
  | nil => simp at h
  | cons l ls ih =>
    simp only [List.mem_cons] at h
    cases l with
    | atom negated u =>
      cases negated with
      | true =>
        rw [addBody]
        by_cases hu : Fails P (u.eval answer b)
        · exact hu.bind
        · refine .of_bind (Term.keeps_eval hkeeps b u) fun _ => ih ?_ _
          grind
      | false =>
        rw [addBody]
        exact ih (by grind) i
    | comparison left op right =>
      rw [addBody]
      exact ih (by grind) i
    | count elements op bound =>
      rw [addBody]
      by_cases hu : Fails P (bound.eval answerOnce b)
      · exact hu.bind
      · refine .of_bind (Term.keeps_eval honce b bound) fun bounds => ?_
        split
        · exact ih (by grind) _
        · exact fun _ _ => ⟨_, rfl⟩

/-- No match has an instance if a call is refused that its head, a negative literal or the bound of
a count makes. -/
theorem fails_ofMatch {name : String} {values : List Symbol} {r : Rule} {x : Match}
    (hrefused : Fails P (answer name values)) (hrefusedOnce : Fails P (answerOnce name values))
    (hle : x.binding ≤ b) (hmakes : t.Makes b name values)
    (ht : t ∈ r.head.atoms ∨ t ∈ r.negatives ∨ ∃ c ∈ r.counts, t = c.bound) :
    Fails P (ofMatch answer answerOnce r x) := by
  have hfails := Term.fails_eval_of_le hle (hmakes.fails_eval hkeeps hrefused)
  rcases ht with ht | hbody
  · exact (fails_headAtoms hkeeps ht hfails []).bind
  · have hhead := @Congruent.headAtoms σ σ _ answer answer (Keeps.congruent P) hkeeps
      x.binding [] r.head.atoms
    refine .of_bind hhead fun head => fails_addBody hkeeps honce ?_ _
    rcases hbody with ht | ⟨c, hc, rfl⟩
    · exact .inl ⟨t, Rule.mem_negatives.1 ht, hfails⟩
    · have hbound := Term.fails_eval_of_le hle (hmakes.fails_eval honce hrefusedOnce)
      exact .inr ⟨c.elements, c.op, c.bound, Rule.mem_counts.1 hc, hbound⟩

end

end Instance

/-- The handler answers a call with an error, whatever its state. -/
def Handler.Refuses {σ : Type} (h : Handler σ) (name : String) (values : List Symbol) : Prop :=
  ∀ world, ∃ message, ((h.call name values).run world).1 = .error message

theorem Handler.AnswersBy.refuses {σ : Type} {h : Handler σ} {name message : String}
    {values : List Symbol} {answer : String → List Symbol → Except String Symbol}
    (hanswers : h.AnswersBy answer) (hanswer : answer name values = .error message) :
    h.Refuses name values :=
  fun world => ⟨message, (hanswers name values world).trans hanswer⟩

def Scratch.Lacks {σ : Type} (name : String) (values : List Symbol) (s : Scratch σ) : Prop :=
  ∀ rule, s.answers[(⟨rule, name, values⟩ : CallKey)]? = none

section Handler

open Grounding (answer answerOnce)

variable {σ : Type} {handler : Handler σ} {name : String} {values : List Symbol}

theorem Scratch.lacks_empty (w : σ) : Scratch.Lacks name values ⟨w, ∅⟩ := by
  simp [Scratch.Lacks]

theorem Scratch.Lacks.keeps_answer (n : String) (args : List Symbol) :
    Keeps (Scratch.Lacks name values) (answer handler n args) := by
  intro s hs
  rw [Scratch.Lacks, Grounding.answers_answer]
  exact hs

namespace Handler.Refuses

variable (h : handler.Refuses name values)

include h

theorem keeps_answerOnce (rule : Nat) (n : String) (args : List Symbol) :
    Keeps (Scratch.Lacks name values) (answerOnce handler rule n args) := by
  intro s hs
  obtain ⟨value, -, hrun⟩ | ⟨-, ⟨message, w, -, hrun⟩ | ⟨value, w, hcall, hrun⟩⟩ :=
    Grounding.answerOnce_cases (h := handler) rule n args s
  · rw [hrun]
    exact hs
  · rw [hrun]
    exact hs
  · rw [hrun]
    intro rule'
    have hne : (⟨rule, n, args⟩ : CallKey) ≠ ⟨rule', name, values⟩ := by
      rintro heq
      cases heq
      obtain ⟨message, hmessage⟩ := h s.world
      rw [hcall] at hmessage
      cases hmessage
    rw [Std.HashMap.getElem?_insert, if_neg (by simpa using hne)]
    exact hs rule'

theorem fails_answer : Fails (Scratch.Lacks name values) (answer handler name values) := by
  intro s _
  obtain ⟨message, hmessage⟩ := h s.world
  exact ⟨_, congrArg Prod.fst (Grounding.answer_of_error (Prod.ext hmessage rfl))⟩

theorem fails_answerOnce (rule : Nat) :
    Fails (Scratch.Lacks name values) (answerOnce handler rule name values) := by
  intro s hs
  rw [Grounding.answerOnce_of_none (hs rule)]
  exact h.fails_answer.bind s hs

theorem fails_ofMatch {b : Binding} {t : Term} {r : Rule} {x : Match} (rule : Nat)
    (hle : x.binding ≤ b) (hmakes : t.Makes b name values)
    (ht : t ∈ r.head.atoms ∨ t ∈ r.negatives ∨ ∃ c ∈ r.counts, t = c.bound) :
    Fails (Scratch.Lacks name values)
      (Instance.ofMatch (answer handler) (answerOnce handler rule) r x) :=
  Instance.fails_ofMatch Scratch.Lacks.keeps_answer (h.keeps_answerOnce rule) h.fails_answer
    (h.fails_answerOnce rule) hle hmakes ht

end Handler.Refuses

end Handler

end AnswerSetTest
