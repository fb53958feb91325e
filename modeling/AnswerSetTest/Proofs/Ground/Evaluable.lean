import Mathlib.Data.List.Nodup
import AnswerSetTest.Proofs.Ground.Unpooling

/-!
# Evaluable terms

The values of a term without calls and pools, and when evaluation succeeds, said of the term
itself. The lists of values that evaluation makes have just these values, each once.
-/

namespace AnswerSetTest

theorem nodup_product {α : Type} {xss : List (List α)} (h : ∀ xs ∈ xss, xs.Nodup) :
    (product xss).Nodup := by
  induction xss with
  | nil => exact List.nodup_singleton []
  | cons xs xss ih =>
    obtain ⟨hxs, hxss⟩ := List.forall_mem_cons.1 h
    have hrows := ih hxss
    rw [product, List.nodup_flatMap]
    constructor
    · intro x _
      exact hrows.map (List.cons_injective (a := x))
    · -- rows that start with different elements differ
      refine hxs.imp fun {x y} hxy => List.disjoint_left.2 fun row hx hy => hxy ?_
      obtain ⟨_, _, rfl⟩ := List.mem_map.1 hx
      obtain ⟨_, _, heq⟩ := List.mem_map.1 hy
      exact (List.cons.inj heq).1.symm

namespace Term

inductive Denotes (b : Binding) : Term → Symbol → Prop
  | number (n : Int64) : Denotes b (.number n) (.number n)
  | text (s : String) : Denotes b (.text s) (.text s)
  | variable {v : String} {s : Symbol} (h : b.get? v = some s) : Denotes b (.variable v) s
  | function (name : String) {args : List Term} {values : List Symbol}
    (h : List.Forall₂ (Denotes b) args values) :
    Denotes b (.function name args) (.function name values)
  | interval {low high : Term} {l h n : Int64} (hlow : Denotes b low (.number l))
    (hhigh : Denotes b high (.number h)) (hl : l ≤ n) (hh : n ≤ h) :
    Denotes b (.interval low high) (.number n)

/-- Evaluation succeeds: all variables are bound, and each bound of an interval has one value, an
integer that is not too far from the other. -/
inductive Evaluable (b : Binding) : Term → Prop
  | number (n : Int64) : Evaluable b (.number n)
  | text (s : String) : Evaluable b (.text s)
  | variable {v : String} (h : (b.get? v).isSome) : Evaluable b (.variable v)
  | function (name : String) {args : List Term} (h : ∀ t ∈ args, Evaluable b t) :
    Evaluable b (.function name args)
  | interval {low high : Term} {l h : Int64} (evalLow : Evaluable b low)
    (evalHigh : Evaluable b high) (hlow : ∀ s, Denotes b low s ↔ s = .number l)
    (hhigh : ∀ s, Denotes b high s ↔ s = .number h) (hsize : h.toInt - l.toInt ≤ 10000) :
    Evaluable b (.interval low high)

variable {b : Binding} {t : Term} {s : Symbol} {ts : List Term} {vs : List Symbol}
  {rows : List (List Symbol)}

theorem nodup_interval_values (l h : Int64) : (interval.values l h).Nodup := by
  have hl := l.le_toInt
  have hh := h.toInt_lt
  unfold interval.values
  apply List.Nodup.map_on
  · intro i hi j hj heq
    rw [List.mem_range] at hi hj
    have hvalue := congrArg Int64.toInt (Symbol.number.inj heq)
    rw [Int64.toInt_ofInt_of_le (by omega) (by omega),
      Int64.toInt_ofInt_of_le (by omega) (by omega)] at hvalue
    omega
  · exact List.nodup_range

theorem nodup_of_under? (h : under? b t = some vs) : vs.Nodup := by
  induction t using Term.induct generalizing vs with
  | number n =>
    cases h
    exact List.nodup_singleton _
  | text s =>
    cases h
    exact List.nodup_singleton _
  | var v =>
    obtain ⟨s, -, rfl⟩ := Option.map_eq_some_iff.1 h
    exact List.nodup_singleton s
  | function name args ih =>
    obtain ⟨rows, hrows, rfl⟩ := Option.map_eq_some_iff.1 h
    have hnodup : ∀ row ∈ rows, row.Nodup := by
      intro row hrow
      obtain ⟨t, ht, hvalues⟩ := (exists_mem_of_forall₂ (allUnder?_eq_some.1 hrows)).2 row hrow
      exact ih t ht hvalues
    exact (nodup_product hnodup).map fun _ _ heq => (Symbol.function.inj heq).2
  | interval low high _ _ =>
    obtain ⟨_, _, -, -, hvs⟩ := interval_eq_some.1 h
    obtain ⟨l, m, -, -, -, rfl⟩ := between?_eq_some.1 hvs
    exact nodup_interval_values l m
  | call name args => cases h
  | pool alternatives => cases h

theorem mem_under?_iff_denotes (h : under? b t = some vs) : s ∈ vs ↔ t.Denotes b s := by
  induction t using Term.induct generalizing s vs with
  | number n =>
    cases h
    rw [List.mem_singleton]
    constructor
    · rintro rfl
      exact .number n
    · intro hs
      cases hs
      rfl
  | text x =>
    cases h
    rw [List.mem_singleton]
    constructor
    · rintro rfl
      exact .text x
    · intro hs
      cases hs
      rfl
  | var v =>
    obtain ⟨x, hx, rfl⟩ := Option.map_eq_some_iff.1 h
    rw [List.mem_singleton]
    constructor
    · rintro rfl
      exact .variable hx
    · intro hs
      cases hs with
      | «variable» hs => exact Option.some.inj (hs.symm.trans hx)
  | function name args ih =>
    obtain ⟨rows, hrows, rfl⟩ := Option.map_eq_some_iff.1 h
    have hvalues : List.Forall₂ (fun t vs => ∀ s, s ∈ vs ↔ t.Denotes b s) args rows := by
      have hboth := (List.forall₂_and_left args rows).2 ⟨fun _ ht => ht, allUnder?_eq_some.1 hrows⟩
      exact hboth.imp fun t vs hvs s => ih t hvs.1 hvs.2
    have hmem : ∀ row, row ∈ product rows ↔ List.Forall₂ (Denotes b) args row := fun row =>
      mem_product.trans (forall₂_mem_iff hvalues)
    simp only [List.mem_map, hmem]
    constructor
    · rintro ⟨row, hrow, rfl⟩
      exact .function name hrow
    · intro hs
      cases hs with
      | function _ hrow => exact ⟨_, hrow, rfl⟩
  | interval low high ihl ihh =>
    obtain ⟨lows, highs, hlows, hhighs, hvs⟩ := interval_eq_some.1 h
    obtain ⟨l, m, rfl, rfl, -, rfl⟩ := between?_eq_some.1 hvs
    have hlow : ∀ x, low.Denotes b x ↔ x = .number l := fun x => by
      rw [← ihl hlows, List.mem_singleton]
    have hhigh : ∀ x, high.Denotes b x ↔ x = .number m := fun x => by
      rw [← ihh hhighs, List.mem_singleton]
    rw [mem_interval_values]
    constructor
    · rintro ⟨n, hn, hn', rfl⟩
      exact .interval ((hlow _).2 rfl) ((hhigh _).2 rfl) hn hn'
    · intro hs
      cases hs with
      | interval hl hh hn hn' =>
        obtain rfl := Symbol.number.inj ((hlow _).1 hl)
        obtain rfl := Symbol.number.inj ((hhigh _).1 hh)
        exact ⟨_, hn, hn', rfl⟩
  | call name args => cases h
  | pool alternatives => cases h

theorem eq_singleton_of_under? (h : under? b t = some vs) (hs : ∀ x, t.Denotes b x ↔ x = s) :
    vs = [s] := by
  have hperm : vs.Perm [s] := by
    refine (List.perm_ext_iff_of_nodup (nodup_of_under? h) (List.nodup_singleton s)).2 fun x => ?_
    rw [mem_under?_iff_denotes h, hs, List.mem_singleton]
  exact List.perm_singleton.1 hperm

theorem exists_allUnder? (h : ∀ t ∈ ts, ∃ vs, under? b t = some vs) :
    ∃ rows, allUnder? b ts = some rows := by
  induction ts with
  | nil => exact ⟨[], rfl⟩
  | cons t ts ih =>
    obtain ⟨ht, hts⟩ := List.forall_mem_cons.1 h
    obtain ⟨vs, hvs⟩ := ht
    obtain ⟨rows, hrows⟩ := ih hts
    exact ⟨vs :: rows, allUnder?_cons_eq_some.2 ⟨vs, rows, hvs, hrows, rfl⟩⟩

theorem evaluable_iff : t.Evaluable b ↔ ∃ vs, under? b t = some vs := by
  constructor
  · intro h
    induction h with
    | number n => exact ⟨_, rfl⟩
    | text s => exact ⟨_, rfl⟩
    | «variable» h =>
      obtain ⟨s, hs⟩ := Option.isSome_iff_exists.1 h
      exact ⟨[s], by rw [under?, hs]; rfl⟩
    | function name _ ih =>
      obtain ⟨rows, hrows⟩ := exists_allUnder? ih
      exact ⟨_, by rw [under?, hrows]; rfl⟩
    | interval _ _ hlow hhigh hsize ihl ihh =>
      obtain ⟨lows, hlows⟩ := ihl
      obtain ⟨highs, hhighs⟩ := ihh
      obtain rfl := eq_singleton_of_under? hlows hlow
      obtain rfl := eq_singleton_of_under? hhighs hhigh
      exact ⟨_, interval_eq_some.2
        ⟨_, _, hlows, hhighs, between?_eq_some.2 ⟨_, _, rfl, rfl, hsize, rfl⟩⟩⟩
  · rintro ⟨vs, h⟩
    induction t using Term.induct generalizing vs with
    | number n => exact .number n
    | text s => exact .text s
    | var v =>
      obtain ⟨s, hs, -⟩ := Option.map_eq_some_iff.1 h
      exact .variable (hs ▸ rfl)
    | function name args ih =>
      obtain ⟨rows, hrows, -⟩ := Option.map_eq_some_iff.1 h
      refine .function name fun t ht => ?_
      obtain ⟨vs, hvs⟩ := exists_under?_of_mem hrows ht
      exact ih t ht vs hvs
    | interval low high ihl ihh =>
      obtain ⟨lows, highs, hlows, hhighs, hvs⟩ := interval_eq_some.1 h
      obtain ⟨l, m, rfl, rfl, hsize, rfl⟩ := between?_eq_some.1 hvs
      refine .interval (ihl _ hlows) (ihh _ hhighs) (fun x => ?_) (fun x => ?_) hsize
      · rw [← mem_under?_iff_denotes hlows, List.mem_singleton]
      · rw [← mem_under?_iff_denotes hhighs, List.mem_singleton]
    | call name args => cases h
    | pool alternatives => cases h

theorem under?_eq_singleton_iff :
    under? b t = some [s] ↔ t.Evaluable b ∧ ∀ x, t.Denotes b x ↔ x = s := by
  constructor
  · intro h
    exact ⟨evaluable_iff.2 ⟨_, h⟩, fun x => by rw [← mem_under?_iff_denotes h, List.mem_singleton]⟩
  · rintro ⟨ht, hs⟩
    obtain ⟨vs, hvs⟩ := evaluable_iff.1 ht
    rw [hvs, eq_singleton_of_under? hvs hs]

theorem mem_flatten_of_allUnder? (h : allUnder? b ts = some rows) :
    s ∈ rows.flatten ↔ ∃ t ∈ ts, t.Denotes b s := by
  have hmem := exists_mem_of_forall₂ (allUnder?_eq_some.1 h)
  rw [List.mem_flatten]
  constructor
  · rintro ⟨row, hrow, hs⟩
    obtain ⟨t, ht, hvalues⟩ := hmem.2 row hrow
    exact ⟨t, ht, (mem_under?_iff_denotes hvalues).1 hs⟩
  · rintro ⟨t, ht, hs⟩
    obtain ⟨row, hrow, hvalues⟩ := hmem.1 t ht
    exact ⟨row, hrow, (mem_under?_iff_denotes hvalues).2 hs⟩

end Term

end AnswerSetTest
