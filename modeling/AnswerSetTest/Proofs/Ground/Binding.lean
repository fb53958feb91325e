import AnswerSetTest.Ground.Binding

/-!
# Bindings as partial maps

A binding is determined by the values of its variables. Bindings are ordered by extension.
-/

namespace AnswerSetTest.Binding

namespace Entries

def get? (es : Entries) (v : String) : Option Symbol := (es.find? fun e => e.1 == v).map Prod.snd

theorem get?_cons (e : String × Symbol) (es : Entries) (v : String) :
    get? (e :: es) v = if e.1 = v then some e.2 else get? es v := by
  rw [get?, List.find?_cons]
  by_cases h : e.1 = v
  · simp [h]
  · have hne : (e.1 == v) = false := beq_eq_false_iff_ne.2 h
    rw [hne, if_neg h]
    rfl

theorem get?_eq_none {es : Entries} {v : String} (h : ∀ e ∈ es, e.1 ≠ v) : get? es v = none := by
  simpa [get?] using h

theorem get?_insert (es : Entries) (v w : String) (s : Symbol) :
    get? (es.insert v s) w = if v = w then some s else get? es w := by
  induction es with
  | nil => rw [insert, get?_cons]
  | cons e es ih =>
    obtain ⟨x, t⟩ := e
    rw [insert]
    split
    · rw [get?_cons]
    · split
      · next hv =>
        subst hv
        rw [get?_cons, get?_cons]
        by_cases hvw : v = w <;> simp [hvw]
      · next hv =>
        rw [get?_cons, get?_cons, ih]
        by_cases hvw : v = w
        · subst hvw
          simp [Ne.symm hv]
        · simp [hvw]

theorem ne_of_lt {e : String × Symbol} {es : Entries} {v : String} (h : Sorted (e :: es))
    (hv : v < e.1) : ∀ g ∈ e :: es, g.1 ≠ v := by
  intro g hg
  rcases List.mem_cons.1 hg with rfl | hg
  · exact (String.ne_of_lt hv).symm
  · exact (String.ne_of_lt (String.lt_trans hv ((List.pairwise_cons.1 h).1 g hg))).symm

theorem Sorted.ext {es fs : Entries} (he : es.Sorted) (hf : fs.Sorted)
    (h : ∀ v, get? es v = get? fs v) : es = fs := by
  induction es generalizing fs with
  | nil =>
    cases fs with
    | nil => rfl
    | cons f fs =>
      have hnone := h f.1
      rw [get?_cons, if_pos rfl] at hnone
      cases hnone
  | cons e es ih =>
    obtain ⟨hlt, hes⟩ := List.pairwise_cons.1 he
    cases fs with
    | nil =>
      have hnone := h e.1
      rw [get?_cons, if_pos rfl] at hnone
      cases hnone
    | cons f fs =>
      obtain ⟨hlt', hfs⟩ := List.pairwise_cons.1 hf
      -- the least variable of the one is the least variable of the other
      have hkey : e.1 = f.1 := by
        refine String.le_antisymm (String.not_lt.1 fun hfe => ?_) (String.not_lt.1 fun hef => ?_)
        · have hnone := h f.1
          rw [get?_eq_none (ne_of_lt he hfe), get?_cons, if_pos rfl] at hnone
          cases hnone
        · have hnone := h e.1
          rw [get?_cons, if_pos rfl, get?_eq_none (ne_of_lt hf hef)] at hnone
          cases hnone
      have hvalue : e.2 = f.2 := by
        have hsome := h e.1
        rw [get?_cons, if_pos rfl, get?_cons, if_pos hkey.symm] at hsome
        exact Option.some.inj hsome
      have hrest : es = fs := by
        refine ih hes hfs fun v => ?_
        by_cases hv : e.1 = v
        · rw [get?_eq_none fun g hg => hv ▸ (String.ne_of_lt (hlt g hg)).symm,
            get?_eq_none fun g hg => hv ▸ hkey ▸ (String.ne_of_lt (hlt' g hg)).symm]
        · have hget := h v
          rwa [get?_cons, if_neg hv, get?_cons, if_neg (hkey ▸ hv)] at hget
      rw [Prod.ext hkey hvalue, hrest]

end Entries

variable {b c d : Binding} {v w : String} {s t : Symbol}

@[simp] theorem get?_empty (v : String) : empty.get? v = none := rfl

theorem get?_insert (b : Binding) (v w : String) (s : Symbol) :
    (b.insert v s).get? w = if v = w then some s else b.get? w :=
  Entries.get?_insert b.entries v w s

theorem ext (h : ∀ v, b.get? v = c.get? v) : b = c := by
  have hentries := b.sorted.ext c.sorted h
  cases b
  cases c
  congr

instance : LE Binding := ⟨fun b c => ∀ v s, b.get? v = some s → c.get? v = some s⟩

theorem le_refl (b : Binding) : b ≤ b := fun _ _ h => h

theorem le_trans (h : b ≤ c) (h' : c ≤ d) : b ≤ d := fun v s hs => h' v s (h v s hs)

theorem empty_le (b : Binding) : empty ≤ b := nofun

theorem eq_of_le (h : b ≤ c) (hdom : ∀ v, (c.get? v).isSome → (b.get? v).isSome) : b = c := by
  refine ext fun v => ?_
  cases hc : c.get? v with
  | none =>
    cases hb : b.get? v with
    | none => rfl
    | some s => exact absurd (h v s hb) (by simp [hc])
  | some s =>
    obtain ⟨t, ht⟩ := Option.isSome_iff_exists.1 (hdom v (by simp [hc]))
    rw [ht, ← h v t ht, hc]

theorem le_insert (h : b.get? v = none) (s : Symbol) : b ≤ b.insert v s := by
  intro w t hw
  rw [get?_insert]
  by_cases hvw : v = w
  · subst hvw
    rw [h] at hw
    cases hw
  · rwa [if_neg hvw]

theorem insert_le (h : b ≤ c) (hs : c.get? v = some s) : b.insert v s ≤ c := by
  intro w t hw
  rw [get?_insert] at hw
  split at hw
  · next hvw =>
    cases hw
    exact hvw ▸ hs
  · exact h w t hw

theorem isSome_insert : ((b.insert v s).get? w).isSome ↔ (b.get? w).isSome ∨ w = v := by
  rw [get?_insert]
  by_cases h : v = w
  · simp [h]
  · simp [h, Ne.symm h]

end AnswerSetTest.Binding
