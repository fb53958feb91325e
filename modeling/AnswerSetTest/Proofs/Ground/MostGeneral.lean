import AnswerSetTest.Proofs.Ground.Matching

/-!
# Most general matches

Matching a pattern with a symbol succeeds if some extension of the binding makes the pattern stand
for the symbol, and then gives the least of these extensions.

A matcher can also change its binding as it goes. When it fails, the variables of the arguments
that did match stay bound, so it has to work on a copy. `matchCopy` is that matcher, with copies
on a stack; it finds what `matchSymbol` finds and leaves the caller's binding as it was.
-/

namespace AnswerSetTest

/-- The binding that is being changed, on top of those that it is a copy of. -/
structure Frames where
  current : Binding
  below : List Binding

namespace Frames

def copied (f : Frames) : Frames := ⟨f.current, f.current :: f.below⟩

def kept (f : Frames) : Frames := ⟨f.current, f.below.tail⟩

/-- The copy is dropped, and the binding that it was made of is current again. -/
def discarded (f : Frames) : Frames := ⟨f.below.headD f.current, f.below.tail⟩

theorem discarded_eq {f g : Frames} (h : g.below = f.copied.below) : g.discarded = f := by
  rw [discarded, h]
  rfl

end Frames

namespace Term

def bindInto (v : String) (value : Symbol) (f : Frames) : Bool × Frames :=
  if v = "_" then (true, f)
  else
    match f.current.get? v with
    | some s => (s = value, f)
    | none => (true, { f with current := f.current.insert v value })

mutual

/-- Matches a term with a symbol, and binds variables in the current binding on the way. -/
def matchInto : Term → Symbol → Frames → Bool × Frames
  | .variable v, value, f => bindInto v value f
  | .number n, .number m, f => (n = m, f)
  | .text s, .text t, f => (s = t, f)
  | .function name args, .function name' values, f =>
    if name = name' ∧ args.length = values.length then matchAllInto args values f else (false, f)
  | .interval low high, .number n, f =>
    match low.boundNumber? f.current, high.boundNumber? f.current with
    | some l, some h => (l ≤ n ∧ n ≤ h, f)
    | _, _ => (false, f)
  | .pool alternatives, value, f => matchAnyInto alternatives value f
  | _, _, f => (false, f)

def matchAllInto : List Term → List Symbol → Frames → Bool × Frames
  | t :: ts, s :: ss, f =>
    match matchInto t s f with
    | (true, g) => matchAllInto ts ss g
    | (false, g) => (false, g)
  | _, _, f => (true, f)

/-- Tries each alternative on a copy and keeps the first copy that matches. -/
def matchAnyInto : List Term → Symbol → Frames → Bool × Frames
  | [], _, f => (false, f)
  | t :: ts, value, f =>
    match matchInto t value f.copied with
    | (true, g) => (true, g.kept)
    | (false, g) => matchAnyInto ts value g.discarded

end

def matchCopy (t : Term) (value : Symbol) (f : Frames) : Option Binding × Frames :=
  match matchInto t value f.copied with
  | (true, g) => (some g.current, g.discarded)
  | (false, g) => (none, g.discarded)

/-- Matching in place from `f` has bound further variables at most and has left the bindings below
alone. If it succeeded, the current binding is the one found. -/
inductive InPlace (f : Frames) : Option Binding → Bool × Frames → Prop
  | found {g : Frames} (hle : f.current ≤ g.current) (hbelow : g.below = f.below) :
    InPlace f (some g.current) (true, g)
  | failed {g : Frames} (hle : f.current ≤ g.current) (hbelow : g.below = f.below) :
    InPlace f none (false, g)

variable {b b' c : Binding} {t : Term} {s : Symbol}

theorem InPlace.of_decide (f : Frames) (p : Prop) [Decidable p] :
    InPlace f (if p then some f.current else none) (p, f) := by
  by_cases hp : p
  · simp only [hp, if_true, decide_true]
    exact .found f.current.le_refl rfl
  · simp only [hp, if_false, decide_false]
    exact .failed f.current.le_refl rfl

theorem InPlace.trans {f g : Frames} {found : Option Binding} {ran : Bool × Frames}
    (h : InPlace g found ran) (hle : f.current ≤ g.current) (hbelow : g.below = f.below) :
    InPlace f found ran := by
  cases h with
  | found hle' hbelow' => exact .found (Binding.le_trans hle hle') (hbelow'.trans hbelow)
  | failed hle' hbelow' => exact .failed (Binding.le_trans hle hle') (hbelow'.trans hbelow)

theorem bindInto_inPlace (v : String) (s : Symbol) (f : Frames) :
    InPlace f (matchVariable f.current v s) (bindInto v s f) := by
  rw [matchVariable, bindInto]
  split
  · exact .found f.current.le_refl rfl
  · cases hget : f.current.get? v with
    | some u => exact .of_decide f (u = s)
    | none => exact .found (g := { f with current := _ }) (Binding.le_insert hget s) rfl

mutual

theorem matchInto_inPlace (f : Frames) :
    (t : Term) → (s : Symbol) → InPlace f (matchSymbol f.current t s) (matchInto t s f)
  | .variable v, s => by
    rw [matchSymbol, matchInto]
    exact bindInto_inPlace v s f
  | .number n, .number m => by
    rw [matchSymbol, matchInto]
    exact .of_decide f (n = m)
  | .text x, .text y => by
    rw [matchSymbol, matchInto]
    exact .of_decide f (x = y)
  | .function name args, .function name' values => by
    rw [matchSymbol, matchInto]
    split
    · exact matchAllInto_inPlace f args values
    · exact .failed f.current.le_refl rfl
  | .interval low high, .number n => by
    simp only [matchSymbol, matchInto]
    cases low.boundNumber? f.current with
    | none => exact .failed f.current.le_refl rfl
    | some l =>
      cases high.boundNumber? f.current with
      | none => exact .failed f.current.le_refl rfl
      | some h => exact .of_decide f (l ≤ n ∧ n ≤ h)
  | .pool alternatives, s => by
    rw [matchSymbol, matchInto]
    exact matchAnyInto_inPlace f alternatives s
  | .number _, .text _ | .number _, .function _ _ | .text _, .number _ | .text _, .function _ _
  | .function _ _, .number _ | .function _ _, .text _ | .call _ _, _ | .interval _ _, .text _
  | .interval _ _, .function _ _ => by
    simp only [matchSymbol, matchInto]
    exact .failed f.current.le_refl rfl

theorem matchAllInto_inPlace (f : Frames) :
    (ts : List Term) → (ss : List Symbol) →
      InPlace f (matchAll f.current ts ss) (matchAllInto ts ss f)
  | [], _ | _ :: _, [] => by
    simp only [matchAll, matchAllInto]
    exact .found f.current.le_refl rfl
  | t :: ts, s :: ss => by
    have hfirst := matchInto_inPlace f t s
    rw [matchAll, matchAllInto]
    generalize matchSymbol f.current t s = found, matchInto t s f = ran at hfirst
    cases hfirst with
    | failed hle hbelow => exact .failed hle hbelow
    | @found g hle hbelow => exact (matchAllInto_inPlace g ts ss).trans hle hbelow

theorem matchAnyInto_inPlace (f : Frames) :
    (ts : List Term) → (s : Symbol) →
      InPlace f (matchAny f.current ts s) (matchAnyInto ts s f)
  | [], _ => by
    simp only [matchAny, matchAnyInto]
    exact .failed f.current.le_refl rfl
  | t :: ts, s => by
    have hfirst : InPlace f.copied (matchSymbol f.current t s) _ := matchInto_inPlace f.copied t s
    rw [matchAny, matchAnyInto]
    generalize matchSymbol f.current t s = found, matchInto t s f.copied = ran at hfirst
    cases hfirst with
    | @failed g hle hbelow =>
      -- what the alternative has bound goes with its copy, and the next starts where it did
      have hback : g.discarded = f := Frames.discarded_eq hbelow
      simp only [hback]
      exact matchAnyInto_inPlace f ts s
    | @found g hle hbelow => exact .found (g := g.kept) hle (congrArg List.tail hbelow)

end

theorem matchCopy_eq (t : Term) (s : Symbol) (f : Frames) :
    matchCopy t s f = (matchSymbol f.current t s, f) := by
  have hcopy : InPlace f.copied (matchSymbol f.current t s) _ := matchInto_inPlace f.copied t s
  rw [matchCopy]
  generalize matchSymbol f.current t s = found, matchInto t s f.copied = ran at hcopy
  cases hcopy with
  | found hle hbelow => simp only [Frames.discarded_eq hbelow]
  | failed hle hbelow => simp only [Frames.discarded_eq hbelow]

/-- Matching a pattern is sound and complete, and what it finds is the most general match. The
caller's binding is not touched, whether the match succeeds or not. -/
theorem matchSymbol_mostGeneral (ht : Pattern t) (b : Binding) (s : Symbol) :
    ((matchSymbol b t s).isSome ↔ ∃ c, b ≤ c ∧ Matches c t s) ∧
    (∀ b', matchSymbol b t s = some b' →
      b ≤ b' ∧ Matches b' t s ∧ (∀ v, (b'.get? v).isSome ↔ (b.get? v).isSome ∨ v ∈ t.vars) ∧
        ∀ c, b ≤ c → Matches c t s → ∀ v ∈ t.vars, c.get? v = b'.get? v) ∧
    ∀ below, matchCopy t s ⟨b, below⟩ = (matchSymbol b t s, ⟨b, below⟩) := by
  refine ⟨isSome_matchSymbol ht, fun b' hb' => ?_, fun below => matchCopy_eq t s ⟨b, below⟩⟩
  have hext := matchSymbol_sound ht.poolFree hb'
  refine ⟨hext.le, ht.standsFor_iff.1 hext.stands, hext.isSome_iff, fun c hle hm v hv => ?_⟩
  obtain ⟨b₁, hb₁, hleast⟩ := matchSymbol_of_matches ht hle hm
  obtain rfl := Option.some.inj (hb'.symm.trans hb₁)
  obtain ⟨u, hu⟩ := Option.isSome_iff_exists.1 ((hext.isSome_iff v).2 (.inr hv))
  rw [hu, hleast v u hu]

/-- `f(X, _, g(X, _))` binds `X`, and each `_` stands for something else. A conflict is noticed when
`X` has been bound in the copy. -/
theorem matchSymbol_mostGeneral_sample :
    let t : Term := .function "f" [.variable "X", .variable "_",
      .function "g" [.variable "X", .variable "_"]]
    let s : Int64 → Symbol := fun n => .function "f" [.number 1, .number 2,
      .function "g" [.number n, .number 3]]
    let b : Binding := Binding.empty.insert "Y" (.number 7)
    Pattern t ∧ matchSymbol b t (s 1) = some (b.insert "X" (.number 1)) ∧
      Matches (b.insert "X" (.number 1)) t (s 1) ∧
      (∀ c, b ≤ c → Matches c t (s 1) → c.get? "X" = some (.number 1)) ∧
      (¬ ∃ c, b ≤ c ∧ Matches c t (s 4)) ∧
      matchInto t (s 4) ⟨b, []⟩ = (false, ⟨b.insert "X" (.number 1), []⟩) ∧
      matchCopy t (s 4) ⟨b, []⟩ = (none, ⟨b, []⟩) := by
  intro t s b
  have ht : Pattern t := by
    refine .function "f" fun u hu => ?_
    simp only [List.mem_cons, List.not_mem_nil, or_false] at hu
    rcases hu with rfl | rfl | rfl
    · exact .variable "X"
    · exact .variable "_"
    · refine .function "g" fun u hu => ?_
      simp only [List.mem_cons, List.not_mem_nil, or_false] at hu
      rcases hu with rfl | rfl
      · exact .variable "X"
      · exact .variable "_"
  have hrun : matchSymbol b t (s 1) = some (b.insert "X" (.number 1)) := rfl
  have hfails : matchSymbol b t (s 4) = none := rfl
  obtain ⟨-, hfound, -⟩ := matchSymbol_mostGeneral ht b (s 1)
  obtain ⟨-, hmatches, -, hagree⟩ := hfound _ hrun
  obtain ⟨hiff, -, hcopy⟩ := matchSymbol_mostGeneral ht b (s 4)
  have hnone : ¬ ∃ c, b ≤ c ∧ Matches c t (s 4) := by
    rw [← hiff, hfails]
    exact Bool.false_ne_true
  refine ⟨ht, hrun, hmatches, fun c hle hm => ?_, hnone, rfl, hfails ▸ hcopy []⟩
  exact hagree c hle hm "X" (by decide)

end Term

end AnswerSetTest
