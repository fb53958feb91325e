import AnswerSetTest.Proofs.Ground.Evaluable
import AnswerSetTest.Proofs.Ground.Matching

/-!
# Generating and recognising values

A term is evaluated where its values are needed, and matched where a symbol is at hand. Once the
variables of the term are bound, the two agree: evaluation gives the symbols that are matched.
Matching reads the bounds of an interval only if they are numbers or variables.
-/

namespace AnswerSetTest.Term

inductive Bound : Term → Prop
  | number (n : Int64) : Bound (.number n)
  | variable (v : String) : Bound (.variable v)

/-- Plain terms whose intervals have bounds that matching can read. -/
inductive Recognizable : Term → Prop
  | number (n : Int64) : Recognizable (.number n)
  | text (s : String) : Recognizable (.text s)
  | variable (v : String) : Recognizable (.variable v)
  | function (name : String) {args : List Term} (h : ∀ t ∈ args, Recognizable t) :
    Recognizable (.function name args)
  | interval {low high : Term} (hl : Bound low) (hh : Bound high) :
    Recognizable (.interval low high)

variable {b b' : Binding} {t : Term} {s : Symbol} {known : String → Prop}

theorem Bound.plain (ht : Bound t) : Plain t := by
  cases ht with
  | number n => exact .number n
  | «variable» v => exact .variable v

theorem Recognizable.plain (ht : Recognizable t) : Plain t := by
  induction ht with
  | number n => exact .number n
  | text s => exact .text s
  | «variable» v => exact .variable v
  | function name _ ih => exact .function name ih
  | interval hl hh => exact .interval hl.plain hh.plain

section Matched

theorem allReadable_of_known {ts : List Term}
    (ih : ∀ t ∈ ts, ∀ {known : String → Prop}, (∀ v, t.HasVariable v → known v) → t.Readable known)
    (h : ∀ t ∈ ts, ∀ v, t.HasVariable v → known v) : AllReadable known ts := by
  induction ts generalizing known with
  | nil => trivial
  | cons t ts iht =>
    obtain ⟨ht, hts⟩ := List.forall_mem_cons.1 h
    refine ⟨ih t List.mem_cons_self ht, iht (fun u hu => ih u (List.mem_cons_of_mem _ hu)) ?_⟩
    exact fun u hu v hv => .inl (hts u hu v hv)

theorem boundKnown_of_known (h : ∀ v, t.HasVariable v → known v) : t.BoundKnown known := by
  cases t with
  | «variable» v => exact h v .here
  | number | text | function | call | interval | pool => trivial

theorem readable_of_known (h : ∀ v, t.HasVariable v → known v) : t.Readable known := by
  induction t using Term.induct generalizing known with
  | number | text | var | call | pool =>
    rw [Readable]
    trivial
  | function name args ih =>
    rw [Readable]
    exact allReadable_of_known ih fun t ht v hv => h v (.function ht hv)
  | interval low high =>
    rw [Readable]
    exact ⟨boundKnown_of_known fun v hv => h v (.low hv),
      boundKnown_of_known fun v hv => h v (.high hv)⟩

theorem matchSymbol_eq_some_iff (ht : PoolFree t) (hnamed : ¬ t.HasVariable "_")
    (hb : ∀ v ∈ t.vars, (b.get? v).isSome) :
    matchSymbol b t s = some b' ↔ StandsFor b t s ∧ b' = b := by
  have hsame : ∀ {c}, matchSymbol b t s = some c → StandsFor b t s ∧ c = b := by
    intro c hc
    have hext := matchSymbol_sound ht hc
    obtain rfl := Binding.eq_of_le hext.le fun v hv => ((hext.isSome_iff v).1 hv).elim id (hb v)
    exact ⟨hext.stands, rfl⟩
  refine ⟨hsame, ?_⟩
  rintro ⟨hs, rfl⟩
  have hread : t.Readable fun v => (b'.get? v).isSome := by
    refine readable_of_known fun v hv => hb v (hv.mem_vars ?_)
    rintro rfl
    exact hnamed hv
  obtain ⟨c, hc, -⟩ := matchSymbol_complete ht (fun v hv => hv) hread b'.le_refl hs
  rw [hc, (hsame hc).2]

end Matched

section Values

theorem under?_of_boundNumber? {n : Int64} (h : boundNumber? b t = some n) :
    under? b t = some [.number n] := by
  cases t with
  | number m =>
    cases h
    rfl
  | «variable» v =>
    obtain ⟨s, hs, hnum⟩ := Option.bind_eq_some_iff.1 h
    cases s with
    | number m =>
      cases hnum
      rw [under?, hs]
      rfl
    | text | function => cases hnum
  | text | function | call | interval | pool => cases h

theorem denotes_number_iff (ht : Bound t) {n : Int64} :
    t.Denotes b (.number n) ↔ boundNumber? b t = some n := by
  constructor
  · intro h
    cases h with
    | number => rfl
    | «variable» hn =>
      rw [boundNumber?, hn]
      rfl
    | interval => cases ht
  · intro h
    exact (mem_under?_iff_denotes (under?_of_boundNumber? h)).1 (List.mem_singleton_self _)

theorem denotes_iff_standsFor (ht : Recognizable t) (hnamed : ¬ t.HasVariable "_") :
    t.Denotes b s ↔ StandsFor b t s := by
  induction ht generalizing s with
  | number n =>
    constructor
    · rintro ⟨⟩
      exact .number n
    · rintro ⟨⟩
      exact .number n
  | text x =>
    constructor
    · rintro ⟨⟩
      exact .text x
    · rintro ⟨⟩
      exact .text x
  | «variable» v =>
    constructor
    · intro hs
      cases hs with
      | «variable» hs => exact .variable hs
    · intro hs
      cases hs with
      | anonymous => exact absurd .here hnamed
      | «variable» hs => exact .variable hs
  | @function name args _ ih =>
    have hargs : ∀ t ∈ args, ∀ s, t.Denotes b s ↔ StandsFor b t s := fun t ht s =>
      ih t ht fun hv => hnamed (.function ht hv)
    constructor
    · intro hs
      cases hs with
      | function _ h => exact .function name ((forall₂_congr_of_mem hargs).1 h)
    · intro hs
      cases hs with
      | function _ h => exact .function name ((forall₂_congr_of_mem hargs).2 h)
  | interval hl hh =>
    constructor
    · intro hs
      cases hs with
      | interval hlow hhigh hn hn' =>
        exact .interval ((denotes_number_iff hl).1 hlow) ((denotes_number_iff hh).1 hhigh) hn hn'
    · intro hs
      cases hs with
      | interval hlow hhigh hn hn' =>
        exact .interval ((denotes_number_iff hl).2 hlow) ((denotes_number_iff hh).2 hhigh) hn hn'

end Values

section Evaluation

variable {σ : Type} {answer : String → List Symbol → Evaluation σ Symbol}

/-- An interval whose bounds are known and not too far apart has the integers between them as its
values, up to the ends of the range of numbers. -/
theorem eval_interval {low high : Term} {l h : Int64} (hlow : boundNumber? b low = some l)
    (hhigh : boundNumber? b high = some h) (hsize : h.toInt - l.toInt ≤ maxInterval) (st : σ) :
    eval answer b (.interval low high) st = (.ok (interval.values l h), st) := by
  have hbetween : between? [.number l] [.number h] = some (interval.values l h) :=
    between?_eq_some.2 ⟨l, h, rfl, rfl, hsize, rfl⟩
  exact eval_of_under? (interval_eq_some.2 ⟨_, _, under?_of_boundNumber? hlow,
    under?_of_boundNumber? hhigh, hbetween⟩) st

/-- Evaluation, if it succeeds, gives the symbols that matching accepts, which binds nothing more.
In particular an interval gives the integers that are between its bounds. -/
theorem eval_exact (answer : String → List Symbol → Evaluation σ Symbol) (b : Binding) :
    (∀ t, Recognizable t → ¬ t.HasVariable "_" → ∀ values st st',
      eval answer b t st = (.ok values, st') →
        ∀ s, (s ∈ values ↔ (matchSymbol b t s).isSome) ∧ ∀ b' ∈ matchSymbol b t s, b' = b) ∧
    ∀ low high l h, boundNumber? b low = some l → boundNumber? b high = some h →
      h.toInt - l.toInt ≤ maxInterval → ∀ st, ∃ values,
        eval answer b (.interval low high) st = (.ok values, st) ∧
          ∀ s, s ∈ values ↔ ∃ n, l ≤ n ∧ n ≤ h ∧ s = .number n := by
  constructor
  · intro t ht hnamed values st st' hrun s
    have hvalues := returns_eval ht.plain st values st' hrun
    -- there are no values while a variable is unbound
    have hb : ∀ v ∈ t.vars, (b.get? v).isSome := fun v hv => isSome_of_under? hvalues hv
    have hmatch : ∀ b', matchSymbol b t s = some b' ↔ StandsFor b t s ∧ b' = b := fun _ =>
      matchSymbol_eq_some_iff ht.plain.poolFree hnamed hb
    refine ⟨?_, fun b' hb' => ((hmatch b').1 hb').2⟩
    rw [mem_under?_iff_denotes hvalues, denotes_iff_standsFor ht hnamed,
      Option.isSome_iff_exists]
    constructor
    · exact fun hs => ⟨b, (hmatch b).2 ⟨hs, rfl⟩⟩
    · rintro ⟨b', hb'⟩
      exact ((hmatch b').1 hb').1
  · intro low high l h hlow hhigh hsize st
    exact ⟨_, eval_interval hlow hhigh hsize st, fun s => mem_interval_values⟩

theorem eval_exact_sample :
    let answer : String → List Symbol → Evaluation Unit Symbol :=
      fun name _ => throw (.call name "no functions")
    let b : Binding := Binding.empty.insert "X" (.number (Int64.maxValue - 1))
    let range : Term := .interval (.variable "X") (.number Int64.maxValue)
    let t : Term := .function "f" [range, .text "a"]
    let value : Int64 → Symbol := fun n => .function "f" [.number n, .text "a"]
    Recognizable t ∧ ¬ t.HasVariable "_" ∧
      eval answer b t () = (.ok [value (Int64.maxValue - 1), value Int64.maxValue], ()) ∧
      (matchSymbol b t (value Int64.maxValue)).isSome ∧
      ¬ (matchSymbol b t (value Int64.minValue)).isSome ∧
      ∃ values, eval answer b range () = (.ok values, ()) ∧
        ∀ s, s ∈ values ↔ ∃ n, Int64.maxValue - 1 ≤ n ∧ n ≤ Int64.maxValue ∧ s = .number n := by
  intro answer b range t value
  have ht : Recognizable t := by
    refine .function "f" fun u hu => ?_
    simp only [List.mem_cons, List.not_mem_nil, or_false] at hu
    rcases hu with rfl | rfl
    · exact .interval (.variable "X") (.number _)
    · exact .text "a"
  have hnamed : ¬ t.HasVariable "_" := by simp [t, range]
  have hrun : eval answer b t () =
      (.ok [value (Int64.maxValue - 1), value Int64.maxValue], ()) := rfl
  obtain ⟨hterm, hrange⟩ := eval_exact answer b
  have hagree := fun s => (hterm t ht hnamed _ () () hrun s).1
  have hmax := (hagree (value Int64.maxValue)).1 (by simp)
  have hmin : ¬ (matchSymbol b t (value Int64.minValue)).isSome :=
    mt (hagree (value Int64.minValue)).2 (by decide)
  exact ⟨ht, hnamed, hrun, hmax, hmin, hrange _ _ _ _ rfl rfl (by decide) ()⟩

end Evaluation

end AnswerSetTest.Term
