import AnswerSetTest.Ground.Selection

/-!
# Substitution

A substitution that gives every name its own constant changes no term and no rule. Symbols have no
pools, so it makes no difference whether parameters are replaced before or after pools are
expanded.
-/

namespace AnswerSetTest

/-- Every name that has a value stands for the constant of that name. -/
def Substitution.Fixes (σ : Substitution) : Prop :=
  ∀ name value, σ.value? name = some value → value = .constant name

theorem Substitution.fixes_nil : Substitution.Fixes [] := nofun

theorem Substitution.fixes_zip (names : List String) :
    Substitution.Fixes (names.zip (names.map Symbol.constant)) := by
  intro name value h
  obtain ⟨e, he, rfl⟩ := Option.map_eq_some_iff.1 h
  have hname : e.1 = name := by simpa using List.find?_some he
  have hmem : e ∈ names.zip (names.map Symbol.constant) :=
    List.mem_reverse.1 (List.mem_of_find?_eq_some he)
  rw [← List.map_prod_left_eq_zip, List.mem_map] at hmem
  obtain ⟨n, -, rfl⟩ := hmem
  exact congrArg Symbol.constant hname

namespace Term

variable {σ : Substitution}

mutual

theorem substitute_of_fixes (h : σ.Fixes) : (t : Term) → t.substitute σ = t
  | .number _ | .text _ | .variable _ => by rw [substitute]
  | .function name [] => by
    rw [substitute]
    split
    · next value hvalue =>
      rw [h name value hvalue]
      rfl
    · rfl
  | .function name (t :: ts) => by
    rw [substitute, substitute_of_fixes h t, substituteAll_of_fixes h ts]
  | .call name args => by rw [substitute, substituteAll_of_fixes h args]
  | .interval low high => by rw [substitute, substitute_of_fixes h low, substitute_of_fixes h high]
  | .pool alternatives => by rw [substitute, substituteAll_of_fixes h alternatives]

theorem substituteAll_of_fixes (h : σ.Fixes) : (ts : List Term) → substituteAll σ ts = ts
  | [] => by rw [substituteAll]
  | t :: ts => by rw [substituteAll, substitute_of_fixes h t, substituteAll_of_fixes h ts]

end

mutual

theorem substituteAtom_of_fixes (h : σ.Fixes) : (t : Term) → t.substituteAtom σ = t
  | .number _ | .text _ | .variable _ => by rw [substituteAtom]
  | .function name args => by rw [substituteAtom, substituteAll_of_fixes h args]
  | .call name args => by rw [substituteAtom, substituteAll_of_fixes h args]
  | .interval low high => by
    rw [substituteAtom, substitute_of_fixes h low, substitute_of_fixes h high]
  | .pool alternatives => by rw [substituteAtom, substituteAtoms_of_fixes h alternatives]

theorem substituteAtoms_of_fixes (h : σ.Fixes) : (ts : List Term) → substituteAtoms σ ts = ts
  | [] => by rw [substituteAtoms]
  | t :: ts => by rw [substituteAtoms, substituteAtom_of_fixes h t, substituteAtoms_of_fixes h ts]

end

section Pools

theorem substituteAll_eq_map (σ : Substitution) (ts : List Term) :
    substituteAll σ ts = ts.map (substitute σ) := by
  induction ts with
  | nil => rw [substituteAll, List.map_nil]
  | cons t ts ih => rw [substituteAll, ih, List.map_cons]

mutual

theorem unpool_ofSymbol : (s : Symbol) → (ofSymbol s).unpool = [ofSymbol s]
  | .number n => by rw [ofSymbol, unpool]
  | .text s => by rw [ofSymbol, unpool]
  | .function name args => by
    rw [ofSymbol, unpool, unpoolAll_ofSymbols args, List.map_singleton]

theorem unpoolAll_ofSymbols : (ss : List Symbol) →
    product (unpoolAll (ofSymbols ss)) = [ofSymbols ss]
  | [] => by rw [ofSymbols, unpoolAll, product]
  | s :: ss => by
    rw [ofSymbols, unpoolAll, product, unpoolAll_ofSymbols ss, unpool_ofSymbol s]
    rfl

end

theorem product_map_map {α β : Type} (f : α → β) (xss : List (List α)) :
    product (xss.map (List.map f)) = (product xss).map (List.map f) := by
  induction xss with
  | nil => rfl
  | cons xs xss ih =>
    rw [List.map_cons, product, product, ih, List.flatMap_map, List.map_flatMap]
    simp only [List.map_map, Function.comp_def, List.map_cons]

/-- Arguments may be changed before or after the terms around them are built. -/
theorem map_product {f g : Term → Term} {build : List Term → Term} {xss : List (List Term)}
    (h : ∀ us ∈ product xss, g (build us) = build (us.map f)) :
    (product (xss.map (List.map f))).map build = ((product xss).map build).map g := by
  rw [product_map_map, List.map_map, List.map_map]
  exact List.map_congr_left fun us hus => (h us hus).symm

mutual

theorem unpool_substitute (σ : Substitution) :
    (t : Term) → (t.substitute σ).unpool = t.unpool.map (substitute σ)
  | .number _ | .text _ | .variable _ => by rw [substitute, unpool, List.map_singleton, substitute]
  | .function name [] => by
    have hunpool : (function name []).unpool = [function name []] := by
      rw [unpool, unpoolAll, product, List.map_singleton]
    rw [hunpool, List.map_singleton, substitute]
    split
    · exact unpool_ofSymbol _
    · exact hunpool
  | .function name (t :: ts) => by
    have hrest := unpoolAll_substituteAll σ ts
    rw [substitute, unpool, unpool, unpoolAll, unpoolAll, unpool_substitute σ t, hrest,
      ← List.map_cons]
    refine map_product fun us hus => ?_
    -- the row has a first argument, so it is not taken for a constant
    simp only [product, List.mem_flatMap, List.mem_map] at hus
    obtain ⟨u, -, us, -, rfl⟩ := hus
    rw [substitute, substituteAll_eq_map, List.map_cons]
  | .call name args => by
    rw [substitute, unpool, unpool, unpoolAll_substituteAll σ args]
    exact map_product fun us _ => by rw [substitute, substituteAll_eq_map]
  | .interval low high => by
    rw [substitute, unpool, unpool, unpool_substitute σ low, unpool_substitute σ high,
      List.flatMap_map, List.map_flatMap]
    simp only [List.map_map, Function.comp_def, substitute]
  | .pool alternatives => by
    rw [substitute, unpool, unpool, unpoolAll_substituteAll σ alternatives, List.map_flatten]

theorem unpoolAll_substituteAll (σ : Substitution) :
    (ts : List Term) → unpoolAll (substituteAll σ ts) = (unpoolAll ts).map (List.map (substitute σ))
  | [] => by rw [substituteAll, unpoolAll, List.map_nil]
  | t :: ts => by
    rw [substituteAll, unpoolAll, unpoolAll, unpool_substitute σ t, unpoolAll_substituteAll σ ts,
      List.map_cons]

end

mutual

theorem unpool_substituteAtom (σ : Substitution) :
    (t : Term) → (t.substituteAtom σ).unpool = t.unpool.map (substituteAtom σ)
  | .number _ | .text _ | .variable _ => by
    rw [substituteAtom, unpool, List.map_singleton, substituteAtom]
  | .function name args => by
    rw [substituteAtom, unpool, unpool, unpoolAll_substituteAll σ args]
    exact map_product fun us _ => by rw [substituteAtom, substituteAll_eq_map]
  | .call name args => by
    rw [substituteAtom, unpool, unpool, unpoolAll_substituteAll σ args]
    exact map_product fun us _ => by rw [substituteAtom, substituteAll_eq_map]
  | .interval low high => by
    rw [substituteAtom, unpool, unpool, unpool_substitute σ low, unpool_substitute σ high,
      List.flatMap_map, List.map_flatMap]
    simp only [List.map_map, Function.comp_def, substituteAtom]
  | .pool alternatives => by
    rw [substituteAtom, unpool, unpool, unpoolAll_substituteAtoms σ alternatives, List.map_flatten]

theorem unpoolAll_substituteAtoms (σ : Substitution) : (ts : List Term) →
    unpoolAll (substituteAtoms σ ts) = (unpoolAll ts).map (List.map (substituteAtom σ))
  | [] => by rw [substituteAtoms, unpoolAll, List.map_nil]
  | t :: ts => by
    rw [substituteAtoms, unpoolAll, unpoolAll, unpool_substituteAtom σ t,
      unpoolAll_substituteAtoms σ ts, List.map_cons]

end

end Pools

end Term

theorem Head.substitute_of_fixes {σ : Substitution} (hσ : σ.Fixes) (h : Head) :
    h.substitute σ = h := by
  cases h with
  | atom t => rw [substitute, Term.substituteAtom_of_fixes hσ]
  | disjunction ts => rw [substitute, Term.substituteAtoms_of_fixes hσ]
  | choice ts => rw [substitute, Term.substituteAtoms_of_fixes hσ]
  | falsity => rfl

theorem Literal.substitute_of_fixes {σ : Substitution} (hσ : σ.Fixes) (l : Literal) :
    l.substitute σ = l := by
  cases l with
  | atom negated t => rw [substitute, Term.substituteAtom_of_fixes hσ]
  | comparison left op right =>
    rw [substitute, Term.substitute_of_fixes hσ, Term.substitute_of_fixes hσ]
  | count elements op bound =>
    rw [substitute, Term.substituteAtoms_of_fixes hσ, Term.substitute_of_fixes hσ]

theorem Rule.substitute_of_fixes {σ : Substitution} (hσ : σ.Fixes) (r : Rule) :
    r.substitute σ = r := by
  have hbody : r.body.map (Literal.substitute σ) = r.body := by
    rw [List.map_congr_left fun l _ => l.substitute_of_fixes hσ, List.map_id']
  rw [substitute, Head.substitute_of_fixes hσ, hbody]

end AnswerSetTest
