import AnswerSetTest.Proofs.Ground.Selection
import AnswerSetTest.Proofs.Syntax.Pools

/-!
# Values of pools

A pool is expanded before a rule is grounded, or evaluated where it stands. Both give the same: a
term has the values of all the terms without pools that it stands for, and it has none if one of
them fails. This needs pools with alternatives, since a term around an empty pool stands for
nothing, and it needs bounds without pools, since an interval has one number for each bound.
-/

namespace AnswerSetTest

section Rows

variable {α : Type} {xss : List (List α)}

theorem product_ne_nil (h : ∀ xs ∈ xss, xs ≠ []) : product xss ≠ [] := by
  induction xss with
  | nil => exact List.cons_ne_nil _ _
  | cons xs xss ih =>
    obtain ⟨hxs, hxss⟩ := List.forall_mem_cons.1 h
    rw [product]
    intro hnil
    obtain ⟨x, hx⟩ := List.exists_mem_of_ne_nil xs hxs
    exact ih hxss (List.map_eq_nil_iff.1 (List.flatMap_eq_nil_iff.1 hnil x hx))

theorem exists_row_of_mem (h : ∀ xs ∈ xss, xs ≠ []) {xs : List α} (hxs : xs ∈ xss) {x : α}
    (hx : x ∈ xs) : ∃ row ∈ product xss, x ∈ row := by
  induction xss with
  | nil => cases hxs
  | cons ys xss ih =>
    obtain ⟨hys, hxss⟩ := List.forall_mem_cons.1 h
    simp only [product, List.mem_flatMap, List.mem_map]
    rcases List.mem_cons.1 hxs with rfl | hxs
    · obtain ⟨row, hrow⟩ := List.exists_mem_of_ne_nil _ (product_ne_nil hxss)
      exact ⟨x :: row, ⟨x, hx, row, hrow, rfl⟩, List.mem_cons_self⟩
    · obtain ⟨y, hy⟩ := List.exists_mem_of_ne_nil ys hys
      obtain ⟨row, hrow, hxrow⟩ := ih hxss hxs
      exact ⟨y :: row, ⟨y, hy, row, hrow, rfl⟩, List.mem_cons_of_mem y hxrow⟩

end Rows

namespace Term

/-- Terms without calls in which every pool has alternatives and no pool stands in a bound of an
interval. -/
inductive Pooled : Term → Prop
  | number (n : Int64) : Pooled (.number n)
  | text (s : String) : Pooled (.text s)
  | variable (v : String) : Pooled (.variable v)
  | function (name : String) {args : List Term} (h : ∀ t ∈ args, Pooled t) :
    Pooled (.function name args)
  | interval {low high : Term} (hl : Plain low) (hh : Plain high) : Pooled (.interval low high)
  | pool {alternatives : List Term} (hne : alternatives ≠ []) (h : ∀ t ∈ alternatives, Pooled t) :
    Pooled (.pool alternatives)

variable {b : Binding} {t u : Term} {ts us : List Term} {v : Symbol} {name : String}

theorem mem_unpool_function : u ∈ (function name ts).unpool ↔
    ∃ us, List.Forall₂ (fun u t => u ∈ t.unpool) us ts ∧ u = function name us := by
  rw [unpool, unpoolAll_eq_map, List.mem_map]
  simp only [mem_product, List.forall₂_map_right_iff, eq_comm]

theorem mem_unpool_pool : u ∈ (pool ts).unpool ↔ ∃ t ∈ ts, u ∈ t.unpool := by
  rw [unpool, unpoolAll_eq_map, List.mem_flatten]
  simp

namespace Pooled

theorem plain_of_mem_unpool (ht : Pooled t) (hu : u ∈ t.unpool) : Plain u := by
  have hself : ∀ {t : Term}, Plain t → u ∈ t.unpool → Plain u := by
    intro t ht hu
    rw [unpool_plain ht, List.mem_singleton] at hu
    exact hu ▸ ht
  induction ht generalizing u with
  | number n => exact hself (.number n) hu
  | text s => exact hself (.text s) hu
  | «variable» v => exact hself (.variable v) hu
  | function name _ ih =>
    obtain ⟨us, hus, rfl⟩ := mem_unpool_function.1 hu
    refine .function name fun w hw => ?_
    obtain ⟨t, ht, hwt⟩ := (exists_mem_of_forall₂ hus).1 w hw
    refine ih t ht hwt fun {t'} ht' hu' => ?_
    rw [unpool_plain ht', List.mem_singleton] at hu'
    exact hu' ▸ ht'
  | interval hl hh => exact hself (.interval hl hh) hu
  | pool _ _ ih =>
    obtain ⟨t, ht, hut⟩ := mem_unpool_pool.1 hu
    exact ih t ht hut hself

theorem unpool_ne_nil (ht : Pooled t) : t.unpool ≠ [] := by
  induction ht with
  | number n => exact unpool_plain (.number n) ▸ List.cons_ne_nil _ _
  | text s => exact unpool_plain (.text s) ▸ List.cons_ne_nil _ _
  | «variable» v => exact unpool_plain (.variable v) ▸ List.cons_ne_nil _ _
  | function name _ ih =>
    rw [unpool, unpoolAll_eq_map, ne_eq, List.map_eq_nil_iff]
    exact product_ne_nil (List.forall_mem_map.2 ih)
  | interval hl hh => exact unpool_plain (.interval hl hh) ▸ List.cons_ne_nil _ _
  | pool hne _ ih =>
    obtain ⟨t, ht⟩ := List.exists_mem_of_ne_nil _ hne
    obtain ⟨u, hu⟩ := List.exists_mem_of_ne_nil _ (ih t ht)
    exact List.ne_nil_of_mem (mem_unpool_pool.2 ⟨t, ht, hu⟩)

end Pooled

section Values

/-- All terms without pools that `t` stands for have values. -/
def HasValues (b : Binding) (t : Term) : Prop := ∀ u ∈ t.unpool, (under? b u).isSome

/-- One of the terms without pools that `t` stands for has the value `v`. -/
def IsValue (b : Binding) (t : Term) (v : Symbol) : Prop :=
  ∃ u ∈ t.unpool, ∃ vs ∈ under? b u, v ∈ vs

theorem hasValues_plain (ht : Plain t) : HasValues b t ↔ (under? b t).isSome := by
  simp [HasValues, unpool_plain ht]

theorem isValue_plain (ht : Plain t) {vs : List Symbol} (hvs : under? b t = some vs) :
    IsValue b t v ↔ v ∈ vs := by
  simp [IsValue, unpool_plain ht, hvs]

theorem isSome_allUnder? : (allUnder? b ts).isSome ↔ ∀ t ∈ ts, (under? b t).isSome := by
  induction ts with
  | nil => simp [allUnder?]
  | cons t ts ih =>
    rw [List.forall_mem_cons, ← ih, allUnder?]
    cases under? b t with
    | none => simp
    | some vs => simp

theorem isSome_under?_function :
    (under? b (function name ts)).isSome ↔ ∀ t ∈ ts, (under? b t).isSome := by
  rw [under?, Option.isSome_map, isSome_allUnder?]

theorem hasValues_function (h : ∀ t ∈ ts, t.unpool ≠ []) :
    HasValues b (function name ts) ↔ ∀ t ∈ ts, HasValues b t := by
  constructor
  · intro hvalues t ht u hu
    obtain ⟨us, hus, huus⟩ := exists_row_of_mem (List.forall_mem_map.2 h)
      (List.mem_map_of_mem ht) hu
    have hrow := hvalues (function name us)
      (mem_unpool_function.2 ⟨us, List.forall₂_map_right_iff.1 (mem_product.1 hus), rfl⟩)
    exact isSome_under?_function.1 hrow u huus
  · intro hvalues u hu
    obtain ⟨us, hus, rfl⟩ := mem_unpool_function.1 hu
    refine isSome_under?_function.2 fun w hw => ?_
    obtain ⟨t, ht, hwt⟩ := (exists_mem_of_forall₂ hus).1 w hw
    exact hvalues t ht w hwt

theorem forall₂_isValue {row : List Symbol} : List.Forall₂ (IsValue b) ts row ↔
    ∃ us, List.Forall₂ (fun u t => u ∈ t.unpool) us ts ∧
      ∃ rows, allUnder? b us = some rows ∧ List.Forall₂ (· ∈ ·) row rows := by
  induction ts generalizing row with
  | nil =>
    rw [List.forall₂_nil_left_iff]
    constructor
    · rintro rfl
      exact ⟨[], .nil, [], rfl, .nil⟩
    · rintro ⟨us, hus, rows, hrows, hrow⟩
      cases hus
      cases hrows
      exact List.forall₂_nil_right_iff.1 hrow
  | cons t ts ih =>
    rw [List.forall₂_cons_left_iff]
    constructor
    · rintro ⟨v, row, ⟨u, hu, vs, hvs, hv⟩, hrow, rfl⟩
      obtain ⟨us, hus, rows, hrows, hrow⟩ := ih.1 hrow
      exact ⟨u :: us, .cons hu hus, vs :: rows,
        allUnder?_cons_eq_some.2 ⟨vs, rows, hvs, hrows, rfl⟩, .cons hv hrow⟩
    · rintro ⟨us, hus, rows, hrows, hrow⟩
      cases hus with
      | @cons u _ us _ hu hus =>
        obtain ⟨vs, rows', hvs, hrows', rfl⟩ := allUnder?_cons_eq_some.1 hrows
        cases hrow with
        | @cons v _ row _ hv hrow =>
          exact ⟨v, row, ⟨u, hu, vs, hvs, hv⟩, ih.2 ⟨us, hus, rows', hrows', hrow⟩, rfl⟩

theorem isValue_function : IsValue b (function name ts) v ↔
    ∃ row, List.Forall₂ (IsValue b) ts row ∧ v = .function name row := by
  constructor
  · rintro ⟨u, hu, vs, hvs, hv⟩
    obtain ⟨us, hus, rfl⟩ := mem_unpool_function.1 hu
    obtain ⟨rows, hrows, rfl⟩ := Option.map_eq_some_iff.1 hvs
    obtain ⟨row, hrow, rfl⟩ := List.mem_map.1 hv
    exact ⟨row, forall₂_isValue.2 ⟨us, hus, rows, hrows, mem_product.1 hrow⟩, rfl⟩
  · rintro ⟨row, hrow, rfl⟩
    obtain ⟨us, hus, rows, hrows, hrow⟩ := forall₂_isValue.1 hrow
    exact ⟨_, mem_unpool_function.2 ⟨us, hus, rfl⟩, _, Option.map_eq_some_iff.2 ⟨rows, hrows, rfl⟩,
      List.mem_map_of_mem (mem_product.2 hrow)⟩

theorem hasValues_pool : HasValues b (pool ts) ↔ ∀ t ∈ ts, HasValues b t := by
  simp only [HasValues, mem_unpool_pool]
  grind

theorem isValue_pool : IsValue b (pool ts) v ↔ ∃ t ∈ ts, IsValue b t v := by
  simp only [IsValue, mem_unpool_pool]
  grind

end Values

section Evaluation

variable {τ : Type} {answer : String → List Symbol → Evaluation τ Symbol} {P : τ → Prop}

theorem yields_evalAll {ok : Term → Prop} {Q : Term → List Symbol → Prop}
    (h : ∀ t ∈ ts, Yields P (eval answer b t) (ok t) (Q t)) :
    Yields P (evalAll answer b ts) (∀ t ∈ ts, ok t) (List.Forall₂ Q ts) := by
  induction ts with
  | nil =>
    rw [evalAll]
    exact .of_pure (List.forall_mem_nil ok) .nil
  | cons t ts ih =>
    obtain ⟨ht, hts⟩ := List.forall_mem_cons.1 h
    rw [evalAll]
    refine ht.bind (fun values hok hvalues => ?_) fun hall => (List.forall_mem_cons.1 hall).1
    refine (ih hts).bind (fun rows hrest hrows => ?_) fun hall => (List.forall_mem_cons.1 hall).2
    exact .of_pure (List.forall_mem_cons.2 ⟨hok, hrest⟩) (.cons hvalues hrows)

theorem yields_singleNumber (values : List Symbol) :
    Yields P (singleNumber values : Evaluation τ Int64) (∃ n, values = [.number n])
      fun n => values = [.number n] := by
  unfold singleNumber
  split
  · exact .of_pure ⟨_, rfl⟩ rfl
  · next hnot => exact .of_throw fun ⟨n, hn⟩ => hnot n hn

theorem yields_expandInterval (low high : Int64) :
    Yields P (expandInterval low high : Evaluation τ (List Symbol))
      (between? [.number low] [.number high]).isSome
      fun values => between? [.number low] [.number high] = some values := by
  rw [expandInterval, between?]
  split
  · exact .of_throw Bool.false_ne_true
  · exact .of_pure rfl rfl

theorem yields_eval_plain (ht : Plain t) :
    Yields P (eval answer b t) (under? b t).isSome fun values => under? b t = some values := by
  induction ht with
  | number n =>
    rw [eval]
    exact .of_pure rfl rfl
  | text s =>
    rw [eval]
    exact .of_pure rfl rfl
  | «variable» v =>
    rw [eval, under?]
    cases b.get? v with
    | some s => exact .of_pure rfl rfl
    | none => exact .of_throw Bool.false_ne_true
  | function name _ ih =>
    rw [eval]
    refine (yields_evalAll ih).bind (fun rows hall hrows => .of_pure ?_ ?_)
      isSome_under?_function.1
    · exact isSome_under?_function.2 hall
    · rw [under?, allUnder?_eq_some.2 hrows]
      rfl
  | @interval low high _ _ ihl ihh =>
    have hsome : (under? b (.interval low high)).isSome → ∃ l h : Int64,
        under? b low = some [.number l] ∧ under? b high = some [.number h] ∧
          (between? [.number l] [.number h]).isSome := by
      intro h
      obtain ⟨vs, hvs⟩ := Option.isSome_iff_exists.1 h
      obtain ⟨lows, highs, hlows, hhighs, hbetween⟩ := interval_eq_some.1 hvs
      obtain ⟨l, h, rfl, rfl, -⟩ := between?_eq_some.1 hbetween
      exact ⟨l, h, hlows, hhighs, Option.isSome_iff_exists.2 ⟨vs, hbetween⟩⟩
    rw [eval]
    refine ihl.bind (fun lows _ hlows => (yields_singleNumber lows).bind ?_ ?_) ?_
    · rintro l - rfl
      refine ihh.bind (fun highs _ hhighs => (yields_singleNumber highs).bind ?_ ?_) ?_
      · rintro h - rfl
        refine (yields_expandInterval l h).congr ?_ fun values hvalues =>
          interval_eq_some.2 ⟨_, _, hlows, hhighs, hvalues⟩
        rw [under?, hlows, Option.bind_some, hhighs, Option.bind_some]
      · intro hok
        obtain ⟨_, h, -, hhigh, -⟩ := hsome hok
        exact ⟨h, Option.some.inj (hhighs.symm.trans hhigh)⟩
      · intro hok
        obtain ⟨_, h, -, hhigh, -⟩ := hsome hok
        exact hhigh ▸ rfl
    · intro hok
      obtain ⟨l, _, hlow, -⟩ := hsome hok
      exact ⟨l, Option.some.inj (hlows.symm.trans hlow)⟩
    · intro hok
      obtain ⟨l, _, hlow, -⟩ := hsome hok
      exact hlow ▸ rfl

theorem yields_eval (ht : Pooled t) :
    Yields P (eval answer b t) (HasValues b t) fun values => ∀ v, v ∈ values ↔ IsValue b t v := by
  have hplain : ∀ {t : Term}, Plain t →
      Yields P (eval answer b t) (HasValues b t) fun values => ∀ v, v ∈ values ↔ IsValue b t v :=
    fun ht => (yields_eval_plain ht).congr (hasValues_plain ht).symm fun values hvalues v =>
      (isValue_plain ht hvalues).symm
  induction ht with
  | number n => exact hplain (.number n)
  | text s => exact hplain (.text s)
  | «variable» v => exact hplain (.variable v)
  | @function name args hargs ih =>
    have hok : HasValues b (function name args) ↔ ∀ t ∈ args, HasValues b t :=
      hasValues_function fun t ht => (hargs t ht).unpool_ne_nil
    rw [eval]
    refine (yields_evalAll ih).bind (fun rows hall hrows => .of_pure (hok.2 hall) fun v => ?_) hok.1
    have hrow : ∀ row, row ∈ product rows ↔ List.Forall₂ (IsValue b) args row := fun row =>
      mem_product.trans (forall₂_mem_iff hrows)
    rw [List.mem_map, isValue_function]
    simp only [hrow, eq_comm]
  | interval hl hh => exact hplain (.interval hl hh)
  | @pool alternatives _ _ ih =>
    rw [eval]
    refine (yields_evalAll ih).bind (fun rows hall hrows => .of_pure (hasValues_pool.2 hall)
      fun v => ?_) hasValues_pool.1
    rw [List.mem_flatten, isValue_pool]
    obtain ⟨hleft, hright⟩ := exists_mem_of_forall₂ hrows
    constructor
    · rintro ⟨values, hvalues, hv⟩
      obtain ⟨t, ht, hiff⟩ := hright values hvalues
      exact ⟨t, ht, (hiff v).1 hv⟩
    · rintro ⟨t, ht, hv⟩
      obtain ⟨values, hvalues, hiff⟩ := hleft t ht
      exact ⟨values, hvalues, (hiff v).2 hv⟩

/-- Expanding pools keeps what a term means: evaluation succeeds if it does for all the terms
without pools that the term stands for, and then gives the union of their values. Parameters may be
replaced before or after. -/
theorem eval_unpool :
    (∀ t, Pooled t → (∀ u ∈ t.unpool, u.PoolFree) ∧
      ∀ {τ : Type} (answer : String → List Symbol → Evaluation τ Symbol) (b : Binding) (s : τ),
        ((eval answer b t s).1.isOk ↔ ∀ u ∈ t.unpool, (eval answer b u s).1.isOk) ∧
        ∀ values s', eval answer b t s = (.ok values, s') →
          ∀ v, v ∈ values ↔ HasValue answer b s t v) ∧
    ∀ (t : Term) (σ : Substitution),
      (t.substitute σ).unpool = t.unpool.map (substitute σ) ∧
      (t.substituteAtom σ).unpool = t.unpool.map (substituteAtom σ) := by
  refine ⟨fun t ht => ⟨poolFree_of_mem_unpool t, fun {τ} answer b s => ?_⟩,
    fun t σ => ⟨unpool_substitute σ t, unpool_substituteAtom σ t⟩⟩
  have hplain : ∀ u ∈ t.unpool,
      Yields (fun _ : τ => True) (eval answer b u) (under? b u).isSome
        fun values => under? b u = some values :=
    fun u hu => yields_eval_plain (ht.plain_of_mem_unpool hu)
  have hpooled : Yields (fun _ : τ => True) (eval answer b t) (HasValues b t)
      fun values => ∀ v, v ∈ values ↔ IsValue b t v := yields_eval ht
  constructor
  · rw [hpooled.isOk_iff trivial]
    exact forall₂_congr fun u hu => ((hplain u hu).isOk_iff trivial).symm
  · intro values s' hrun v
    rw [(hpooled.of_ok trivial hrun).2 v]
    constructor
    · rintro ⟨u, hu, vs, hvs, hv⟩
      exact ⟨u, hu, vs, s, eval_of_under? hvs s, hv⟩
    · rintro ⟨u, hu, vs, s'', hrun, hv⟩
      exact ⟨u, hu, vs, ((hplain u hu).of_ok trivial hrun).2, hv⟩

/-- `f((1;g((X;2))),3..4)`, where the inner pool stands in an alternative of the outer one. -/
theorem eval_unpool_nested :
    let answer : String → List Symbol → Evaluation Unit Symbol :=
      fun name _ => throw (.call name "no functions")
    let b : Binding := Binding.empty.insert "X" (.text "a")
    let inner : Term := .function "g" [.pool [.variable "X", .number 2]]
    let range : Term := .interval (.number 3) (.number 4)
    let t : Term := .function "f" [.pool [.number 1, inner], range]
    let value : Symbol → Int64 → Symbol := fun s n => .function "f" [s, .number n]
    Pooled t ∧ (eval answer b t ()).1.isOk ∧
      (∀ u ∈ t.unpool, u.PoolFree ∧ (eval answer b u ()).1.isOk) ∧
      HasValue answer b () t (value (.function "g" [.text "a"]) 4) ∧
      ¬ HasValue answer b () t (value (.function "g" [.number 1]) 4) := by
  intro answer b inner range t value
  have hinner : Pooled inner := by
    refine .function "g" (List.forall_mem_singleton.2 (.pool (by simp) ?_))
    exact List.forall_mem_cons.2 ⟨.variable "X", List.forall_mem_singleton.2 (.number 2)⟩
  have houter : Pooled (.pool [.number 1, inner]) :=
    .pool (by simp) (List.forall_mem_cons.2 ⟨.number 1, List.forall_mem_singleton.2 hinner⟩)
  have ht : Pooled t := .function "f" (List.forall_mem_cons.2
    ⟨houter, List.forall_mem_singleton.2 (.interval (.number 3) (.number 4))⟩)
  have hrun : eval answer b t () = (.ok [value (.number 1) 3, value (.number 1) 4,
      value (.function "g" [.text "a"]) 3, value (.function "g" [.text "a"]) 4,
      value (.function "g" [.number 2]) 3, value (.function "g" [.number 2]) 4], ()) := rfl
  obtain ⟨hfree, hevaluation⟩ := eval_unpool.1 t ht
  obtain ⟨hok, hvalues⟩ := hevaluation answer b ()
  refine ⟨ht, by rw [hrun]; rfl, fun u hu => ⟨hfree u hu, hok.1 (by rw [hrun]; rfl) u hu⟩, ?_, ?_⟩
  · exact (hvalues _ _ hrun _).1 (by simp)
  · exact mt (hvalues _ _ hrun _).2 (by decide)

end Evaluation

end Term

end AnswerSetTest
