import AnswerSetTest.Engine

/-!
# Events

The uses of a handler as data: a list of events says all that happened to a handler, and gives the
state that it left.
-/

namespace AnswerSetTest.Handler

inductive Event where
  | call (name : String) (args : List Symbol)
  | rule (choice : Bool) (head : List AtomId) (body : List SignedAtom)
  | output (symbol : Symbol) (atom : AtomId)

variable {σ τ : Type}

def handle (h : Handler σ) (s : σ) : Event → σ
  | .call name args => ((h.call name args).run s).2
  | .rule choice head body => ((h.rule choice head body).run s).2
  | .output symbol a => ((h.output symbol a).run s).2

def handleAll (h : Handler σ) (s : σ) (es : List Event) : σ := es.foldl h.handle s

def Event.IsCall : Event → Prop
  | .call .. => True
  | .rule .. | .output .. => False

theorem handleAll_append (h : Handler σ) (s : σ) (es fs : List Event) :
    h.handleAll s (es ++ fs) = h.handleAll (h.handleAll s es) fs :=
  List.foldl_append

def AnswersAlike (R : σ → τ → Prop) (h : Handler σ) (k : Handler τ) : Prop :=
  ∀ name args s t, R s t →
    ((h.call name args).run s).1 = ((k.call name args).run t).1 ∧
      R ((h.call name args).run s).2 ((k.call name args).run t).2

/-- Handlers that answer calls alike and leave related states after every event. -/
structure Simulates (R : σ → τ → Prop) (h : Handler σ) (k : Handler τ) : Prop where
  call : ∀ name args s t, R s t →
    ((h.call name args).run s).1 = ((k.call name args).run t).1 ∧
      R ((h.call name args).run s).2 ((k.call name args).run t).2
  rule : ∀ choice head body s t, R s t →
    R ((h.rule choice head body).run s).2 ((k.rule choice head body).run t).2
  output : ∀ symbol a s t, R s t →
    R ((h.output symbol a).run s).2 ((k.output symbol a).run t).2

theorem Simulates.handle {R : σ → τ → Prop} {h : Handler σ} {k : Handler τ}
    (hk : h.Simulates R k) (e : Event) {s : σ} {t : τ} (hst : R s t) :
    R (h.handle s e) (k.handle t e) := by
  cases e with
  | call name args => exact (hk.call name args s t hst).2
  | rule choice head body => exact hk.rule choice head body s t hst
  | output symbol a => exact hk.output symbol a s t hst

theorem Simulates.handleAll {R : σ → τ → Prop} {h : Handler σ} {k : Handler τ}
    (hk : h.Simulates R k) (es : List Event) {s : σ} {t : τ} (hst : R s t) :
    R (h.handleAll s es) (k.handleAll t es) := by
  induction es generalizing s t with
  | nil => exact hst
  | cons e es ih => exact ih (hk.handle e hst)

def recorded (h : Handler σ) : Handler (σ × List Event) where
  call name args := fun (s, es) =>
    (((h.call name args).run s).1, ((h.call name args).run s).2, es ++ [.call name args])
  rule choice head body := fun (s, es) =>
    ((), ((h.rule choice head body).run s).2, es ++ [.rule choice head body])
  output symbol a := fun (s, es) =>
    ((), ((h.output symbol a).run s).2, es ++ [.output symbol a])

theorem handleAll_recorded (h : Handler σ) (s : σ) (es fs : List Event) :
    h.recorded.handleAll (s, es) fs = (h.handleAll s fs, es ++ fs) := by
  induction fs generalizing s es with
  | nil => rw [List.append_nil]; rfl
  | cons e fs ih =>
    have hstep : h.recorded.handle (s, es) e = (h.handle s e, es ++ [e]) := by
      cases e <;> rfl
    change h.recorded.handleAll (h.recorded.handle (s, es) e) fs = _
    rw [hstep, ih, List.append_assoc]
    rfl

end AnswerSetTest.Handler
