import AnswerSetTest.Proofs.Ground.Binding
import AnswerSetTest.Proofs.Ground.Outcome
import AnswerSetTest.Proofs.Traversal

/-!
# Values of terms

The values of a term without calls and pools under a binding, apart from the evaluation that
computes them. They stay the same when the binding is extended.
-/

namespace AnswerSetTest

namespace Term

/-- Terms without calls and pools. -/
inductive Plain : Term → Prop
  | number (n : Int64) : Plain (.number n)
  | text (s : String) : Plain (.text s)
  | variable (v : String) : Plain (.variable v)
  | function (name : String) {args : List Term} (h : ∀ t ∈ args, Plain t) :
    Plain (.function name args)
  | interval {low high : Term} (hl : Plain low) (hh : Plain high) : Plain (.interval low high)

mutual

def decidePlain : (t : Term) → Decidable t.Plain
  | .number n => isTrue (.number n)
  | .text s => isTrue (.text s)
  | .variable v => isTrue (.variable v)
  | .function name args =>
    match decideAllPlain args with
    | isTrue h => isTrue (.function name h)
    | isFalse h => isFalse fun | .function _ hargs => h hargs
  | .interval low high =>
    match decidePlain low, decidePlain high with
    | isTrue hl, isTrue hh => isTrue (.interval hl hh)
    | isFalse hl, _ => isFalse fun | .interval hlow _ => hl hlow
    | _, isFalse hh => isFalse fun | .interval _ hhigh => hh hhigh
  | .call _ _ | .pool _ => isFalse nofun

def decideAllPlain : (ts : List Term) → Decidable (∀ t ∈ ts, t.Plain)
  | [] => isTrue nofun
  | t :: ts =>
    match decidePlain t, decideAllPlain ts with
    | isTrue h, isTrue hs => isTrue (List.forall_mem_cons.2 ⟨h, hs⟩)
    | isFalse h, _ => isFalse fun hall => h (hall t List.mem_cons_self)
    | _, isFalse hs => isFalse fun hall => hs (List.forall_mem_cons.1 hall).2

end

instance : DecidablePred Plain := decidePlain

/-- Induction in which a function term has the hypothesis for each of its arguments. -/
@[elab_as_elim]
theorem induct {motive : Term → Prop} (number : ∀ n, motive (.number n))
    (text : ∀ s, motive (.text s)) (var : ∀ v, motive (.variable v))
    (function : ∀ name args, (∀ t ∈ args, motive t) → motive (.function name args))
    (call : ∀ name args, motive (.call name args))
    (interval : ∀ low high, motive low → motive high → motive (.interval low high))
    (pool : ∀ alternatives, motive (.pool alternatives)) (t : Term) : motive t :=
  Term.rec (motive_2 := fun args => ∀ t ∈ args, motive t) number text var
    (fun name args ih => function name args ih) (fun name args _ => call name args)
    (fun low high ihl ihh => interval low high ihl ihh) (fun alternatives _ => pool alternatives)
    (by simp) (fun t ts iht ihts => List.forall_mem_cons.2 ⟨iht, ihts⟩) t

section Variables

variable {v : String}

mutual

theorem mem_addVariables (found : List String) :
    (t : Term) → (v ∈ t.addVariables found ↔ v ∈ found ∨ v ∈ t.vars)
  | .number _ | .text _ => by simp [addVariables, vars]
  | .variable w => by
    simp only [addVariables, vars]
    by_cases hw : w = "_"
    · simp [hw]
    · by_cases hf : w ∈ found
      · simp only [hw, hf, or_true, if_true, List.not_mem_nil, or_self, if_false, List.nil_append,
          List.mem_singleton]
        exact ⟨.inl, fun h => h.elim id fun h => h ▸ hf⟩
      · simp [hw, hf]
  | .function _ args | .call _ args | .pool args => by
    simp only [addVariables, vars]
    rw [mem_addAllVariables found args, mem_addAllVariables [] args]
    simp
  | .interval low high => by
    simp only [addVariables, vars]
    rw [mem_addVariables _ high, mem_addVariables found low, mem_addVariables _ high,
      mem_addVariables [] low]
    simp [or_assoc]

theorem mem_addAllVariables (found : List String) :
    (ts : List Term) → (v ∈ addAllVariables found ts ↔ v ∈ found ∨ ∃ t ∈ ts, v ∈ t.vars)
  | [] => by simp [addAllVariables]
  | t :: ts => by
    rw [addAllVariables, mem_addAllVariables _ ts, mem_addVariables found t]
    simp [or_assoc]

end

mutual

theorem anonymous_notMem_addVariables {found : List String} (h : "_" ∉ found) :
    (t : Term) → "_" ∉ t.addVariables found
  | .number _ | .text _ => by rwa [addVariables]
  | .variable w => by
    rw [addVariables]
    split
    · exact h
    · simp_all [eq_comm]
  | .function _ args | .call _ args | .pool args => by
    rw [addVariables]
    exact anonymous_notMem_addAllVariables h args
  | .interval low high => by
    rw [addVariables]
    exact anonymous_notMem_addVariables (anonymous_notMem_addVariables h low) high

theorem anonymous_notMem_addAllVariables {found : List String} (h : "_" ∉ found) :
    (ts : List Term) → "_" ∉ addAllVariables found ts
  | [] => h
  | t :: ts => by
    rw [addAllVariables]
    exact anonymous_notMem_addAllVariables (anonymous_notMem_addVariables h t) ts

end

theorem anonymous_notMem_vars (t : Term) : "_" ∉ t.vars :=
  anonymous_notMem_addVariables List.not_mem_nil t

@[simp] theorem mem_vars_function {name : String} {args : List Term} :
    v ∈ (function name args).vars ↔ ∃ t ∈ args, v ∈ t.vars := by
  rw [vars, addVariables, mem_addAllVariables]
  simp

theorem mem_vars_call {name : String} {args : List Term} :
    v ∈ (call name args).vars ↔ ∃ t ∈ args, v ∈ t.vars := by
  rw [vars, addVariables, mem_addAllVariables]
  simp

theorem mem_vars_pool {alternatives : List Term} :
    v ∈ (pool alternatives).vars ↔ ∃ t ∈ alternatives, v ∈ t.vars := by
  rw [vars, addVariables, mem_addAllVariables]
  simp

@[simp] theorem mem_vars_interval {low high : Term} :
    v ∈ (interval low high).vars ↔ v ∈ low.vars ∨ v ∈ high.vars := by
  rw [vars, addVariables, mem_addVariables]
  rfl

@[simp] theorem mem_vars_variable {w : String} :
    v ∈ (Term.variable w).vars ↔ v = w ∧ w ≠ "_" := by
  rw [vars, addVariables]
  by_cases hw : w = "_"
  · simp [hw]
  · simp [hw]

/-- A variable stands somewhere in a term, be it named or not. -/
inductive HasVariable (v : String) : Term → Prop
  | here : HasVariable v (.variable v)
  | function {name : String} {args : List Term} {t : Term} (ht : t ∈ args)
    (h : HasVariable v t) : HasVariable v (.function name args)
  | call {name : String} {args : List Term} {t : Term} (ht : t ∈ args) (h : HasVariable v t) :
    HasVariable v (.call name args)
  | low {low high : Term} (h : HasVariable v low) : HasVariable v (.interval low high)
  | high {low high : Term} (h : HasVariable v high) : HasVariable v (.interval low high)
  | pool {alternatives : List Term} {t : Term} (ht : t ∈ alternatives) (h : HasVariable v t) :
    HasVariable v (.pool alternatives)

@[simp] theorem hasVariable_number {n : Int64} : ¬ (Term.number n).HasVariable v := nofun

@[simp] theorem hasVariable_text {s : String} : ¬ (Term.text s).HasVariable v := nofun

@[simp] theorem hasVariable_variable {w : String} : (Term.variable w).HasVariable v ↔ v = w := by
  constructor
  · rintro ⟨⟩
    rfl
  · rintro rfl
    exact .here

@[simp] theorem hasVariable_function {name : String} {args : List Term} :
    (function name args).HasVariable v ↔ ∃ t ∈ args, t.HasVariable v := by
  constructor
  · intro h
    cases h with
    | function ht h => exact ⟨_, ht, h⟩
  · rintro ⟨t, ht, h⟩
    exact .function ht h

@[simp] theorem hasVariable_interval {low high : Term} :
    (interval low high).HasVariable v ↔ low.HasVariable v ∨ high.HasVariable v := by
  constructor
  · intro h
    cases h with
    | low h => exact .inl h
    | high h => exact .inr h
  · rintro (h | h)
    · exact .low h
    · exact .high h

theorem HasVariable.mem_vars {t : Term} (h : t.HasVariable v) (hv : v ≠ "_") : v ∈ t.vars := by
  induction h with
  | here => exact mem_vars_variable.2 ⟨rfl, hv⟩
  | function ht _ ih => exact mem_vars_function.2 ⟨_, ht, ih⟩
  | call ht _ ih => exact mem_vars_call.2 ⟨_, ht, ih⟩
  | low _ ih => exact mem_vars_interval.2 (.inl ih)
  | high _ ih => exact mem_vars_interval.2 (.inr ih)
  | pool ht _ ih => exact mem_vars_pool.2 ⟨_, ht, ih⟩

theorem HasVariable.of_mem_vars : (t : Term) → v ∈ t.vars → t.HasVariable v
  | .number _, h | .text _, h => (List.not_mem_nil h).elim
  | .variable w, h => hasVariable_variable.2 (mem_vars_variable.1 h).1
  | .function _ args, h =>
    have ⟨t, ht, hv⟩ := mem_vars_function.1 h
    .function ht (of_mem_vars t hv)
  | .call _ args, h =>
    have ⟨t, ht, hv⟩ := mem_vars_call.1 h
    .call ht (of_mem_vars t hv)
  | .interval t u, h =>
    (mem_vars_interval.1 h).elim (fun h => .low (of_mem_vars t h)) fun h => .high (of_mem_vars u h)
  | .pool alternatives, h =>
    have ⟨t, ht, hv⟩ := mem_vars_pool.1 h
    .pool ht (of_mem_vars t hv)

/-- The variables that a term lists are those that have a name. -/
theorem mem_vars_iff {t : Term} : v ∈ t.vars ↔ t.HasVariable v ∧ v ≠ "_" := by
  constructor
  · intro h
    refine ⟨.of_mem_vars t h, ?_⟩
    rintro rfl
    exact anonymous_notMem_vars t h
  · exact fun h => h.1.mem_vars h.2

end Variables

theorem mem_interval_values {low high : Int64} {s : Symbol} :
    s ∈ interval.values low high ↔ ∃ n, low ≤ n ∧ n ≤ high ∧ s = .number n := by
  simp only [interval.values, List.mem_map, List.mem_range, Int64.le_iff_toInt_le]
  have hlow := low.le_toInt
  have hhigh := high.toInt_lt
  constructor
  · rintro ⟨i, hi, rfl⟩
    have hvalue : (Int64.ofInt (low.toInt + i)).toInt = low.toInt + i :=
      Int64.toInt_ofInt_of_le (by omega) (by omega)
    exact ⟨_, by omega, by omega, rfl⟩
  · rintro ⟨n, hl, hh, rfl⟩
    have hsum : low.toInt + ((n.toInt - low.toInt).toNat : Int) = n.toInt := by omega
    exact ⟨(n.toInt - low.toInt).toNat, by omega, by rw [hsum, Int64.ofInt_toInt]⟩

/-- The integers between two single bounds that are not too far apart. -/
def between? : (lows highs : List Symbol) → Option (List Symbol)
  | [.number low], [.number high] =>
    if high.toInt - low.toInt > maxInterval then none else some (interval.values low high)
  | _, _ => none

theorem between?_eq_some {lows highs vs : List Symbol} :
    between? lows highs = some vs ↔ ∃ l h : Int64, lows = [.number l] ∧ highs = [.number h] ∧
      h.toInt - l.toInt ≤ maxInterval ∧ vs = interval.values l h := by
  constructor
  · intro h
    unfold between? at h
    split at h
    · next l m =>
      rw [Option.ite_none_left_eq_some, Option.some.injEq] at h
      exact ⟨l, m, rfl, rfl, Int.not_lt.1 h.1, h.2.symm⟩
    · cases h
  · rintro ⟨l, h, rfl, rfl, hsize, rfl⟩
    rw [between?, if_neg (Int.not_lt.2 hsize)]

mutual

/-- The values of a term, unless a variable is not bound or an interval has no values. -/
def under? (b : Binding) : Term → Option (List Symbol)
  | .number n => some [.number n]
  | .text s => some [.text s]
  | .variable v => (b.get? v).map fun s => [s]
  | .function name args => (allUnder? b args).map fun rows => (product rows).map (.function name)
  | .interval low high => (under? b low).bind fun lows => (under? b high).bind (between? lows)
  | .call _ _ | .pool _ => none

def allUnder? (b : Binding) : List Term → Option (List (List Symbol))
  | [] => some []
  | t :: ts => (under? b t).bind fun values => (allUnder? b ts).map (values :: ·)

end

section Values

variable {b c : Binding}

theorem allUnder?_cons_eq_some {t : Term} {ts : List Term} {vss : List (List Symbol)} :
    allUnder? b (t :: ts) = some vss ↔
      ∃ vs vss', under? b t = some vs ∧ allUnder? b ts = some vss' ∧ vss = vs :: vss' := by
  simp only [allUnder?, Option.bind_eq_some_iff, Option.map_eq_some_iff]
  grind

theorem allUnder?_eq_some {ts : List Term} {vss : List (List Symbol)} :
    allUnder? b ts = some vss ↔ List.Forall₂ (fun t vs => under? b t = some vs) ts vss := by
  induction ts generalizing vss with
  | nil =>
    rw [allUnder?, Option.some.injEq, List.forall₂_nil_left_iff, eq_comm]
  | cons t ts ih =>
    rw [allUnder?_cons_eq_some, List.forall₂_cons_left_iff]
    simp only [ih]

theorem interval_eq_some {low high : Term} {vs : List Symbol} :
    under? b (.interval low high) = some vs ↔ ∃ lows highs,
      under? b low = some lows ∧ under? b high = some highs ∧ between? lows highs = some vs := by
  simp only [under?, Option.bind_eq_some_iff]
  grind

theorem allUnder?_mono {ts : List Term}
    (ih : ∀ t ∈ ts, ∀ vs, under? b t = some vs → under? c t = some vs) {vss : List (List Symbol)}
    (h : allUnder? b ts = some vss) : allUnder? c ts = some vss := by
  induction ts generalizing vss with
  | nil => exact h
  | cons t ts iht =>
    obtain ⟨ht, hts⟩ := List.forall_mem_cons.1 ih
    obtain ⟨vs, vss', hvs, hvss, rfl⟩ := allUnder?_cons_eq_some.1 h
    exact allUnder?_cons_eq_some.2 ⟨vs, vss', ht vs hvs, iht hts hvss, rfl⟩

theorem under?_mono (h : b ≤ c) {t : Term} {vs : List Symbol} (ht : under? b t = some vs) :
    under? c t = some vs := by
  induction t using Term.induct generalizing vs with
  | number n => exact ht
  | text s => exact ht
  | var v =>
    obtain ⟨s, hs, rfl⟩ := Option.map_eq_some_iff.1 ht
    rw [under?, h v s hs]
    rfl
  | function name args ih =>
    obtain ⟨vss, hvss, rfl⟩ := Option.map_eq_some_iff.1 ht
    rw [under?, allUnder?_mono (fun t ht vs => ih t ht) hvss]
    rfl
  | interval low high ihl ihh =>
    obtain ⟨lows, highs, hl, hh, hb⟩ := interval_eq_some.1 ht
    exact interval_eq_some.2 ⟨lows, highs, ihl hl, ihh hh, hb⟩
  | call name args => cases ht
  | pool alternatives => cases ht

theorem exists_under?_of_mem {ts : List Term} {vss : List (List Symbol)}
    (h : allUnder? b ts = some vss) {t : Term} (ht : t ∈ ts) : ∃ vs, under? b t = some vs := by
  obtain ⟨vs, -, hvs⟩ := (exists_mem_of_forall₂ (allUnder?_eq_some.1 h)).1 t ht
  exact ⟨vs, hvs⟩

theorem isSome_of_under? {v : String} {t : Term} {vs : List Symbol} (ht : under? b t = some vs)
    (hv : v ∈ t.vars) : (b.get? v).isSome := by
  induction t using Term.induct generalizing vs with
  | number n => simp [vars, addVariables] at hv
  | text s => simp [vars, addVariables] at hv
  | var w =>
    obtain ⟨s, hs, -⟩ := Option.map_eq_some_iff.1 ht
    obtain ⟨rfl, -⟩ := mem_vars_variable.1 hv
    rw [hs]
    rfl
  | function name args ih =>
    obtain ⟨vss, hvss, -⟩ := Option.map_eq_some_iff.1 ht
    obtain ⟨t, ht, hvt⟩ := mem_vars_function.1 hv
    obtain ⟨vs, hvs⟩ := exists_under?_of_mem hvss ht
    exact ih t ht hvs hvt
  | interval low high ihl ihh =>
    obtain ⟨lows, highs, hl, hh, -⟩ := interval_eq_some.1 ht
    rcases mem_vars_interval.1 hv with hv | hv
    · exact ihl hl hv
    · exact ihh hh hv
  | call name args => cases ht
  | pool alternatives => cases ht

/-- If all variables of a term are bound already, but for those without a value, an extension gives
it no more values. -/
theorem under?_of_le (h : b ≤ c) {t : Term}
    (hb : ∀ v, t.HasVariable v → (b.get? v).isSome ∨ c.get? v = none) {vs : List Symbol}
    (ht : under? c t = some vs) : under? b t = some vs := by
  induction t using Term.induct generalizing vs with
  | number n => exact ht
  | text s => exact ht
  | var v =>
    obtain ⟨s, hs, rfl⟩ := Option.map_eq_some_iff.1 ht
    have hbound : (b.get? v).isSome := by
      refine (hb v .here).resolve_right fun hnone => ?_
      rw [hnone] at hs
      cases hs
    obtain ⟨t, ht⟩ := Option.isSome_iff_exists.1 hbound
    rw [h v t ht] at hs
    rw [under?, ht, hs]
    rfl
  | function name args ih =>
    obtain ⟨vss, hvss, rfl⟩ := Option.map_eq_some_iff.1 ht
    have hargs : ∀ t ∈ args, ∀ vs, under? c t = some vs → under? b t = some vs :=
      fun t ht vs => ih t ht fun v hv => hb v (.function ht hv)
    rw [under?, allUnder?_mono hargs hvss]
    rfl
  | interval low high ihl ihh =>
    obtain ⟨lows, highs, hl, hh, hi⟩ := interval_eq_some.1 ht
    have hlow := ihl (fun v hv => hb v (.low hv)) hl
    have hhigh := ihh (fun v hv => hb v (.high hv)) hh
    exact interval_eq_some.2 ⟨lows, highs, hlow, hhigh, hi⟩
  | call name args => cases ht
  | pool alternatives => cases ht

end Values

section Evaluation

variable {σ : Type} {answer : String → List Symbol → Evaluation σ Symbol} {b : Binding}

theorem returns_singleNumber (values : List Symbol) :
    Returns (singleNumber values : Evaluation σ Int64) fun n => values = [.number n] := by
  unfold singleNumber
  split
  · exact .of_pure rfl
  · exact .of_throw

theorem returns_expandInterval (low high : Int64) :
    Returns (expandInterval low high : Evaluation σ (List Symbol)) fun values =>
      between? [.number low] [.number high] = some values := by
  rw [expandInterval, between?]
  split
  · exact .of_throw
  · exact .of_pure rfl

theorem returns_evalAll {ts : List Term}
    (h : ∀ t ∈ ts, Returns (eval answer b t) fun values => under? b t = some values) :
    Returns (evalAll answer b ts) fun rows => allUnder? b ts = some rows := by
  induction ts with
  | nil =>
    rw [evalAll]
    exact .of_pure rfl
  | cons t ts ih =>
    obtain ⟨ht, hts⟩ := List.forall_mem_cons.1 h
    rw [evalAll]
    exact ht.bind fun values hvalues => (ih hts).bind fun rows hrows =>
      .of_pure (allUnder?_cons_eq_some.2 ⟨values, rows, hvalues, hrows, rfl⟩)

theorem returns_eval {t : Term} (ht : Plain t) :
    Returns (eval answer b t) fun values => under? b t = some values := by
  induction ht with
  | number n =>
    rw [eval]
    exact .of_pure rfl
  | text s =>
    rw [eval]
    exact .of_pure rfl
  | «variable» v =>
    rw [eval, under?]
    cases b.get? v with
    | some s => exact .of_pure rfl
    | none => exact .of_throw
  | function name h ih =>
    rw [eval]
    refine (returns_evalAll ih).bind fun rows hrows => .of_pure ?_
    rw [under?, hrows]
    rfl
  | interval hl hh ihl ihh =>
    rw [eval]
    refine ihl.bind fun lows hlows => (returns_singleNumber lows).bind ?_
    rintro low rfl
    refine ihh.bind fun highs hhighs => (returns_singleNumber highs).bind ?_
    rintro high rfl
    exact (returns_expandInterval low high).mono fun values hvalues =>
      interval_eq_some.2 ⟨_, _, hlows, hhighs, hvalues⟩

theorem evalAll_of_allUnder? {ts : List Term} {rows : List (List Symbol)}
    (ih : ∀ t ∈ ts, ∀ values s, under? b t = some values → eval answer b t s = (.ok values, s))
    (h : allUnder? b ts = some rows) (s : σ) : evalAll answer b ts s = (.ok rows, s) := by
  induction ts generalizing rows with
  | nil =>
    cases h
    rfl
  | cons t ts iht =>
    obtain ⟨ht, hts⟩ := List.forall_mem_cons.1 ih
    obtain ⟨values, rows', hvalues, hrows, rfl⟩ := allUnder?_cons_eq_some.1 h
    rw [evalAll, Returns.bind_eq_of_ok (ht values s hvalues),
      Returns.bind_eq_of_ok (iht hts hrows)]
    rfl

theorem eval_of_under? {t : Term} {values : List Symbol} (h : under? b t = some values) (s : σ) :
    eval answer b t s = (.ok values, s) := by
  induction t using Term.induct generalizing values s with
  | number n =>
    cases h
    rw [eval]
    rfl
  | text x =>
    cases h
    rw [eval]
    rfl
  | var v =>
    obtain ⟨x, hx, rfl⟩ := Option.map_eq_some_iff.1 h
    rw [eval, hx]
    rfl
  | function name args ih =>
    obtain ⟨rows, hrows, rfl⟩ := Option.map_eq_some_iff.1 h
    have hargs := evalAll_of_allUnder? (fun t ht values s h => ih t ht h s) hrows s
    rw [eval, Returns.bind_eq_of_ok hargs]
    rfl
  | interval low high ihl ihh =>
    obtain ⟨lows, highs, hl, hh, hb⟩ := interval_eq_some.1 h
    obtain ⟨m, n, rfl, rfl, hsize, rfl⟩ := between?_eq_some.1 hb
    have hlow : singleNumber [.number m] s = (.ok m, s) := rfl
    have hhigh : singleNumber [.number n] s = (.ok n, s) := rfl
    rw [eval, Returns.bind_eq_of_ok (ihl hl s), Returns.bind_eq_of_ok hlow,
      Returns.bind_eq_of_ok (ihh hh s), Returns.bind_eq_of_ok hhigh, expandInterval,
      if_neg (Int.not_lt.2 hsize)]
    rfl
  | call name args => cases h
  | pool alternatives => cases h

end Evaluation

end Term

end AnswerSetTest
