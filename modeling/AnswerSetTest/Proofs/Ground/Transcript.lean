import AnswerSetTest.Proofs.Ground.Calls

/-!
# Transcripts

A transcript of a grounding notes every call with its place, and what each search for the matches of
a rule finds. Noting changes nothing else, so whatever relates the calls relates the groundings with
and without a transcript.
-/

namespace AnswerSetTest

/-- Where a call stands: in an external, in a comparison or count bound of a rule, or in the head or
a negative literal of a rule that is instantiated for a match. -/
inductive Place where
  | external
  | shared (rule : Nat)
  | own (rule : Nat) (x : Match)

inductive Note where
  | call (place : Place) (name : String) (args : List Symbol)
  | found (rule : Nat) (xs : List Match)

namespace Note

def event? : Note → Option Handler.Event
  | .call _ name args => some (.call name args)
  | .found .. => none

/-- The call of a rule's comparisons and count bounds that a note is about. -/
def shared? : Note → Option CallKey
  | .call (.shared rule) name args => some ⟨rule, name, args⟩
  | .call .external .. | .call (.own ..) .. | .found .. => none

def IsAt (place : Place) : Note → Prop
  | .call p .. => p = place
  | .found .. => False

end Note

/-- The handler that also notes its calls, with their place. -/
def Handler.noting {σ : Type} (h : Handler σ) (place : Place) : Handler (σ × List Note) where
  call name args := fun (s, notes) =>
    (((h.call name args).run s).1, ((h.call name args).run s).2, notes ++ [.call place name args])
  rule choice head body := fun (s, notes) => ((), ((h.rule choice head body).run s).2, notes)
  output symbol a := fun (s, notes) => ((), ((h.output symbol a).run s).2, notes)

namespace Handler

variable {σ : Type} (h : Handler σ) (place : Place)

theorem answersAlike_noting : h.AnswersAlike (fun v u => v = u.1) (h.noting place) := by
  rintro name args _ u rfl
  exact ⟨rfl, rfl⟩

theorem recorded_answersAlike_noting :
    h.recorded.AnswersAlike (fun v u => v = (u.1, u.2.filterMap Note.event?)) (h.noting place) := by
  rintro name args _ u rfl
  have hnotes : (u.2 ++ [Note.call place name args]).filterMap Note.event? =
      u.2.filterMap Note.event? ++ [.call name args] := List.filterMap_append
  exact ⟨rfl, Prod.ext rfl hnotes.symm⟩

end Handler

namespace Grounding

section

variable {σ : Type} (handler : Handler σ)

def note (n : Note) : Grounding (σ × List Note) Unit := fun s =>
  (.ok (), { s with world := (s.world.1, s.world.2 ++ [n]) })

def transcribeMatches (rule : Rule) (index : Nat) (p : Progress) :
    List Match → Grounding (σ × List Note) Progress
  | [] => pure p
  | x :: xs =>
    if p.seen.contains (index, x) then transcribeMatches rule index p xs
    else do
      let i ← locate rule.span (Instance.ofMatch (answer (handler.noting (.own index x)))
        (answerOnce (handler.noting (.shared index)) index) rule x)
      transcribeMatches rule index
        ⟨p.seen.insert (index, x), p.instances.push i, i.head ++ p.derived⟩ xs

def transcribeRule (known : List Symbol) (p : Progress) (rule : Rule × Nat) :
    Grounding (σ × List Note) Progress := do
  let found ← locate rule.1.span
    (rule.1.findMatches (answerOnce (handler.noting (.shared rule.2)) rule.2) known)
  note (.found rule.2 found)
  transcribeMatches handler rule.1 rule.2 p found

def transcribeRound (rules : List Rule) (known : List Symbol) (p : Progress) :
    Grounding (σ × List Note) Progress :=
  rules.zipIdx.foldlM (transcribeRule handler known) { p with derived := [] }

def transcribeUpTo (rules : List Rule) (known : List Symbol) (p : Progress) :
    (limit : Nat) → Grounding (σ × List Note) (List Symbol × Array Instance)
  | 0 => throw .tooManyAtoms
  | limit + 1 => do
    let p ← transcribeRound handler rules known p
    let all := Atoms.union known (Atoms.ofList p.derived)
    if all.length > maxAtoms then throw .tooManyAtoms
    else if all.length = known.length then return (known, p.instances)
    else transcribeUpTo rules all p limit

/-- `ofSelection` with a transcript. -/
def transcribe (s : Selection) : Grounding (σ × List Note) (List Symbol × Array Instance) := do
  let known ← externals (handler.noting .external) [] s.externals
  transcribeUpTo handler s.rules known .empty (maxAtoms + 1)

end

end Grounding

namespace Congruent

open Grounding

variable {σ τ : Type} {handler : Handler σ} {handler' : Handler τ}
  {ρ : {ε α : Type} → ExceptT ε (StateM (Scratch σ)) α →
    ExceptT ε (StateM (Scratch (τ × List Note))) α → Prop}
  (hρ : Congruent ρ)
  (he : ∀ name args, ρ (answer handler name args) (answer (handler'.noting .external) name args))
  (h : ∀ rule x name args,
    ρ (answer handler name args) (answer (handler'.noting (.own rule x)) name args))
  (ho : ∀ rule name args, ρ (answerOnce handler rule name args)
    (answerOnce (handler'.noting (.shared rule)) rule name args))
  (hnote : ∀ rule xs, ρ (pure () : Grounding σ Unit) (note (.found rule xs)))

include hρ h ho

theorem transcribeMatches (rule : Rule) (index : Nat) (p : Progress) (xs : List Match) :
    ρ (Grounding.instantiateMatches handler rule index p xs)
      (Grounding.transcribeMatches handler' rule index p xs) := by
  induction xs generalizing p with
  | nil => exact hρ.of_pure _
  | cons x xs ih =>
    have hx := hρ.ofMatch (h index x) (ho index) rule x
    exact ite (ih p) (hρ.bind (hρ.locate rule.span hx) fun _ => ih _)

include hnote

theorem transcribeRule (known : List Symbol) (p : Progress) (rule : Rule × Nat) :
    ρ (Grounding.instantiateRule handler known p rule)
      (Grounding.transcribeRule handler' known p rule) := by
  have hfound := hρ.locate rule.1.span (hρ.findMatches (ho rule.2) known rule.1)
  exact hρ.bind hfound fun found => hρ.bind (hnote rule.2 found) fun _ =>
    hρ.transcribeMatches h ho rule.1 rule.2 p found

theorem transcribeUpTo (rules : List Rule) (known : List Symbol) (p : Progress) (limit : Nat) :
    ρ (Grounding.instantiateUpTo handler rules known p limit)
      (Grounding.transcribeUpTo handler' rules known p limit) := by
  induction limit generalizing known p with
  | zero => exact hρ.of_throw _
  | succ limit ih =>
    refine hρ.bind (hρ.foldlM (hρ.transcribeRule h ho hnote known) _ _) fun p => ?_
    exact ite (hρ.of_throw _) (ite (hρ.of_pure _) (ih _ p))

include he

/-- What relates the calls relates a grounding and its transcript. -/
theorem transcribe (s : Selection) :
    ρ (Grounding.ofSelection handler s) (Grounding.transcribe handler' s) :=
  hρ.bind (hρ.externals he [] s.externals) fun _ => hρ.transcribeUpTo h ho hnote _ _ _ _

end Congruent

namespace Grounding

variable {σ τ : Type} {handler : Handler σ}

theorem agree_transcribe {k : Handler τ} {R : τ → σ × List Note → Prop}
    (hk : ∀ place, k.AnswersAlike R (handler.noting place))
    (hfound : ∀ t s notes rule xs, R t (s, notes) → R t (s, notes ++ [.found rule xs]))
    (s : Selection) :
    Agree (Scratch.Related R) (ofSelection k s) (transcribe handler s) :=
  (Agree.congruent _).transcribe (agree_answer (hk .external))
    (fun rule x => agree_answer (hk (.own rule x)))
    (fun rule => agree_answerOnce (hk (.shared rule)) rule)
    (fun rule xs _ _ hst => ⟨rfl, hfound _ _ _ rule xs hst.1, hst.2⟩) s

variable {s : Selection} {w : σ} {t : Scratch σ}
  {r : Except GroundFault (List Symbol × Array Instance)}

/-- A transcript notes the calls of the run that it is taken from. -/
theorem transcribe_of_run (h : ofSelection handler s ⟨w, ∅⟩ = (r, t)) :
    ∃ notes, transcribe handler s ⟨(w, []), ∅⟩ = (r, ⟨(t.world, notes), t.answers⟩) ∧
      ofSelection handler.recorded s ⟨(w, []), ∅⟩ =
        (r, ⟨(t.world, notes.filterMap Note.event?), t.answers⟩) := by
  have hplain := agree_transcribe (Handler.answersAlike_noting handler) (fun _ _ _ _ _ h => h) s
  have hevents := agree_transcribe (Handler.recorded_answersAlike_noting handler)
    (fun v u notes rule xs hvu => by
      rw [hvu, List.filterMap_append]
      exact Prod.ext rfl (List.append_nil _).symm) s
  obtain ⟨hval, hworld, hanswers⟩ := hplain ⟨w, ∅⟩ ⟨(w, []), ∅⟩ ⟨rfl, rfl⟩
  obtain ⟨hval', hworld', hanswers'⟩ := hevents ⟨(w, []), ∅⟩ ⟨(w, []), ∅⟩ ⟨rfl, rfl⟩
  rw [h] at hval hworld hanswers
  generalize transcribe handler s ⟨(w, []), ∅⟩ = run at *
  obtain ⟨r', ⟨⟨w', notes⟩, answers⟩⟩ := run
  obtain rfl : r = r' := hval
  obtain rfl : t.world = w' := hworld
  obtain rfl : t.answers = answers := hanswers
  refine ⟨notes, rfl, ?_⟩
  generalize ofSelection handler.recorded s ⟨(w, []), ∅⟩ = run at *
  obtain ⟨r', ⟨world, answers⟩⟩ := run
  obtain rfl : r' = r := hval'
  obtain rfl : world = _ := hworld'
  obtain rfl : answers = t.answers := hanswers'
  rfl

end Grounding

end AnswerSetTest
