import AnswerSetTest.Ground.Matching
import AnswerSetTest.Proofs.Ground.Values
import Mathlib.Data.List.Forall2

/-!
# Matching

Matching a term with a symbol finds the least extension of a binding under which the term stands
for the symbol, and binds exactly the variables of the term. An interval has to be readable: its
bounds have to be known by the time it is reached.
-/

namespace AnswerSetTest

namespace Term

/-- Plain terms whose intervals have numbers as bounds. -/
inductive Pattern : Term → Prop
  | number (n : Int64) : Pattern (.number n)
  | text (s : String) : Pattern (.text s)
  | variable (v : String) : Pattern (.variable v)
  | function (name : String) {args : List Term} (h : ∀ t ∈ args, Pattern t) :
    Pattern (.function name args)
  | interval (low high : Int64) : Pattern (.interval (.number low) (.number high))

mutual

def decidePattern : (t : Term) → Decidable t.Pattern
  | .number n => isTrue (.number n)
  | .text s => isTrue (.text s)
  | .variable v => isTrue (.variable v)
  | .function name args =>
    match decideAllPattern args with
    | isTrue h => isTrue (.function name h)
    | isFalse h => isFalse fun | .function _ hargs => h hargs
  | .interval low high =>
    match low, high with
    | .number l, .number h => isTrue (.interval l h)
    | .number _, .text _ | .number _, .variable _ | .number _, .function _ _
    | .number _, .call _ _ | .number _, .interval _ _ | .number _, .pool _
    | .text _, _ | .variable _, _ | .function _ _, _ | .call _ _, _ | .interval _ _, _
    | .pool _, _ => isFalse nofun
  | .call _ _ | .pool _ => isFalse nofun

def decideAllPattern : (ts : List Term) → Decidable (∀ t ∈ ts, t.Pattern)
  | [] => isTrue nofun
  | t :: ts =>
    match decidePattern t, decideAllPattern ts with
    | isTrue h, isTrue hs => isTrue (List.forall_mem_cons.2 ⟨h, hs⟩)
    | isFalse h, _ => isFalse fun hall => h (hall t List.mem_cons_self)
    | _, isFalse hs => isFalse fun hall => hs (List.forall_mem_cons.1 hall).2

end

instance : DecidablePred Pattern := decidePattern

inductive PoolFree : Term → Prop
  | number (n : Int64) : PoolFree (.number n)
  | text (s : String) : PoolFree (.text s)
  | variable (v : String) : PoolFree (.variable v)
  | function (name : String) {args : List Term} (h : ∀ t ∈ args, PoolFree t) :
    PoolFree (.function name args)
  | call (name : String) {args : List Term} (h : ∀ t ∈ args, PoolFree t) :
    PoolFree (.call name args)
  | interval {low high : Term} (hl : PoolFree low) (hh : PoolFree high) :
    PoolFree (.interval low high)

/-- What a pattern stands for under a binding: `_` for every symbol, and an interval for every
integer between its bounds. -/
inductive Matches (b : Binding) : Term → Symbol → Prop
  | number (n : Int64) : Matches b (.number n) (.number n)
  | text (s : String) : Matches b (.text s) (.text s)
  | anonymous (s : Symbol) : Matches b (.variable "_") s
  | variable {v : String} {s : Symbol} (h : b.get? v = some s) : Matches b (.variable v) s
  | function (name : String) {args : List Term} {values : List Symbol}
    (h : List.Forall₂ (Matches b) args values) :
    Matches b (.function name args) (.function name values)
  | interval {low high n : Int64} (hl : low ≤ n) (hh : n ≤ high) :
    Matches b (.interval (.number low) (.number high)) (.number n)

/-- What a term without pools stands for under a binding. The bounds of an interval may be
variables, and a call stands for nothing. -/
inductive StandsFor (b : Binding) : Term → Symbol → Prop
  | number (n : Int64) : StandsFor b (.number n) (.number n)
  | text (s : String) : StandsFor b (.text s) (.text s)
  | anonymous (s : Symbol) : StandsFor b (.variable "_") s
  | variable {v : String} {s : Symbol} (h : b.get? v = some s) : StandsFor b (.variable v) s
  | function (name : String) {args : List Term} {values : List Symbol}
    (h : List.Forall₂ (StandsFor b) args values) :
    StandsFor b (.function name args) (.function name values)
  | interval {low high : Term} {l h n : Int64} (hlow : low.boundNumber? b = some l)
    (hhigh : high.boundNumber? b = some h) (hl : l ≤ n) (hh : n ≤ h) :
    StandsFor b (.interval low high) (.number n)

/-- A bound of an interval that is not a variable, or is a known one. -/
def BoundKnown (known : String → Prop) : Term → Prop
  | .variable v => known v
  | _ => True

mutual

/-- Each variable that bounds an interval is known or occurs in an argument further left. -/
def Readable (known : String → Prop) : Term → Prop
  | .function _ args => AllReadable known args
  | .interval low high => low.BoundKnown known ∧ high.BoundKnown known
  | .number _ | .text _ | .variable _ | .call _ _ | .pool _ => True

def AllReadable (known : String → Prop) : List Term → Prop
  | [] => True
  | t :: ts => t.Readable known ∧ AllReadable (fun v => known v ∨ v ∈ t.vars) ts

end

structure Extends (b : Binding) (t : Term) (s : Symbol) (b' : Binding) : Prop where
  le : b ≤ b'
  stands : StandsFor b' t s
  isSome_iff : ∀ v, (b'.get? v).isSome ↔ (b.get? v).isSome ∨ v ∈ t.vars

variable {b b' c : Binding} {t : Term} {s : Symbol} {known : String → Prop}

section Bounds

variable {n : Int64}

theorem boundNumber?_mono (h : b ≤ c) (hn : boundNumber? b t = some n) :
    boundNumber? c t = some n := by
  cases t with
  | «variable» v =>
    obtain ⟨s, hs, hnum⟩ := Option.bind_eq_some_iff.1 hn
    rw [boundNumber?, h v s hs]
    exact hnum
  | number m => exact hn
  | text | function | call | interval | pool => cases hn

theorem isSome_of_boundNumber? (hn : boundNumber? b t = some n) {v : String} (hv : v ∈ t.vars) :
    (b.get? v).isSome := by
  cases t with
  | «variable» w =>
    obtain ⟨s, hs, -⟩ := Option.bind_eq_some_iff.1 hn
    obtain ⟨rfl, -⟩ := mem_vars_variable.1 hv
    rw [hs]
    rfl
  | number m => simp [vars, addVariables] at hv
  | text | function | call | interval | pool => cases hn

theorem boundNumber?_of_le (h : b ≤ c) (hknown : ∀ v, known v → (b.get? v).isSome)
    (ht : t.BoundKnown known) (hn : boundNumber? c t = some n) : boundNumber? b t = some n := by
  cases t with
  | «variable» v =>
    obtain ⟨s, hs⟩ := Option.isSome_iff_exists.1 (hknown v ht)
    rw [boundNumber?, h v s hs] at hn
    rw [boundNumber?, hs]
    exact hn
  | number m => exact hn
  | text | function | call | interval | pool => cases hn

theorem boundKnown_of_boundNumber? (hknown : ∀ v, (b.get? v).isSome → known v)
    (hn : boundNumber? b t = some n) : t.BoundKnown known := by
  cases t with
  | «variable» v =>
    obtain ⟨s, hs, -⟩ := Option.bind_eq_some_iff.1 hn
    exact hknown v (hs ▸ rfl)
  | number | text | function | call | interval | pool => trivial

theorem boundNumber?_number (n : Int64) : boundNumber? b (.number n) = some n := rfl

theorem matchInterval_eq_some {low high : Option Int64} :
    matchInterval b low high n = some b' ↔
      ∃ l h, low = some l ∧ high = some h ∧ (l ≤ n ∧ n ≤ h) ∧ b = b' := by
  cases low with
  | none => simp [matchInterval]
  | some l =>
    cases high with
    | none => simp [matchInterval]
    | some h => simp [matchInterval]

end Bounds

theorem StandsFor.mono (h : b ≤ c) (hs : StandsFor b t s) : StandsFor c t s := by
  induction t using Term.induct generalizing s with
  | number n =>
    cases hs
    exact .number n
  | text x =>
    cases hs
    exact .text x
  | var v =>
    cases hs with
    | anonymous => exact .anonymous s
    | «variable» hv => exact .variable (h v s hv)
  | function name args ih =>
    cases hs with
    | function _ hargs =>
      exact .function name (List.forall₂_iff_zip.2 ⟨hargs.length_eq, fun hmem =>
        ih _ (List.of_mem_zip hmem).1 ((List.forall₂_iff_zip.1 hargs).2 hmem)⟩)
  | interval low high =>
    cases hs with
    | interval hlow hhigh hl hh =>
      exact .interval (boundNumber?_mono h hlow) (boundNumber?_mono h hhigh) hl hh
  | call name args => cases hs
  | pool alternatives => cases hs

theorem matchVariable_sound {v : String} (h : matchVariable b v s = some b') :
    Extends b (.variable v) s b' := by
  rw [matchVariable] at h
  split at h
  · next hv =>
    cases h
    exact ⟨b.le_refl, hv ▸ .anonymous s, by simp [hv]⟩
  · next hv =>
    cases hget : b.get? v with
    | some u =>
      rw [hget] at h
      simp only [Option.ite_none_right_eq_some, Option.some.injEq] at h
      obtain ⟨rfl, rfl⟩ := h
      refine ⟨b.le_refl, .variable hget, fun w => ⟨.inl, fun hw => hw.elim id fun hw => ?_⟩⟩
      rw [(mem_vars_variable.1 hw).1, hget]
      rfl
    | none =>
      rw [hget] at h
      cases h
      refine ⟨Binding.le_insert hget s, .variable ?_, fun w => ?_⟩
      · rw [Binding.get?_insert, if_pos rfl]
      · rw [Binding.isSome_insert, mem_vars_variable]
        simp [hv]

theorem matchVariable_complete {v : String} (h : b ≤ c) (hs : StandsFor c (.variable v) s) :
    ∃ b', matchVariable b v s = some b' ∧ b' ≤ c := by
  rw [matchVariable]
  split
  · exact ⟨b, rfl, h⟩
  · next hv =>
    cases hs with
    | anonymous => exact absurd rfl hv
    | «variable» hs =>
      cases hget : b.get? v with
      | some u =>
        have hu : u = s := Option.some.inj ((h v u hget).symm.trans hs)
        exact ⟨b, by simp [hu], h⟩
      | none => exact ⟨b.insert v s, rfl, Binding.insert_le h hs⟩

theorem matchAll_sound {ts : List Term} {ss : List Symbol}
    (ih : ∀ t ∈ ts, ∀ b s b', matchSymbol b t s = some b' → Extends b t s b')
    (hlen : ts.length = ss.length) (h : matchAll b ts ss = some b') :
    b ≤ b' ∧ List.Forall₂ (StandsFor b') ts ss ∧
      ∀ v, (b'.get? v).isSome ↔ (b.get? v).isSome ∨ ∃ t ∈ ts, v ∈ t.vars := by
  induction ts generalizing b ss with
  | nil =>
    cases ss with
    | cons s ss => cases hlen
    | nil =>
      simp only [matchAll, Option.some.injEq] at h
      subst h
      exact ⟨b.le_refl, .nil, by simp⟩
  | cons t ts iht =>
    cases ss with
    | nil => cases hlen
    | cons s ss =>
      obtain ⟨ht, hts⟩ := List.forall_mem_cons.1 ih
      rw [matchAll] at h
      split at h
      · next b₁ hb₁ =>
        have hfirst := ht b s b₁ hb₁
        obtain ⟨hle, hall, hdom⟩ := iht hts (Nat.succ.inj hlen) h
        refine ⟨Binding.le_trans hfirst.le hle, .cons (hfirst.stands.mono hle) hall, fun v => ?_⟩
        rw [hdom, hfirst.isSome_iff]
        simp [or_assoc]
      · cases h

/-- A successful match binds the variables of the term so that it stands for the symbol. -/
theorem matchSymbol_sound (ht : PoolFree t) (h : matchSymbol b t s = some b') :
    Extends b t s b' := by
  induction ht generalizing b b' s with
  | «variable» v =>
    rw [matchSymbol] at h
    exact matchVariable_sound h
  | number n =>
    cases s with
    | number m =>
      rw [matchSymbol, Option.ite_none_right_eq_some] at h
      obtain ⟨rfl, hb⟩ := h
      cases hb
      exact ⟨b.le_refl, .number n, by simp [vars, addVariables]⟩
    | text | function => simp [matchSymbol] at h
  | text x =>
    cases s with
    | text y =>
      rw [matchSymbol, Option.ite_none_right_eq_some] at h
      obtain ⟨rfl, hb⟩ := h
      cases hb
      exact ⟨b.le_refl, .text x, by simp [vars, addVariables]⟩
    | number | function => simp [matchSymbol] at h
  | function name hargs ih =>
    cases s with
    | function name' values =>
      rw [matchSymbol, Option.ite_none_right_eq_some] at h
      obtain ⟨⟨rfl, hlen⟩, hall⟩ := h
      obtain ⟨hle, hs, hdom⟩ := matchAll_sound (fun t ht b s b' => ih t ht) hlen hall
      exact ⟨hle, .function name hs, fun v => by rw [hdom, mem_vars_function]⟩
    | number | text => simp [matchSymbol] at h
  | interval =>
    cases s with
    | number n =>
      rw [matchSymbol] at h
      obtain ⟨l, h, hlow, hhigh, ⟨hl, hh⟩, rfl⟩ := matchInterval_eq_some.1 h
      refine ⟨b.le_refl, .interval hlow hhigh hl hh, fun v => ?_⟩
      rw [mem_vars_interval]
      refine (or_iff_left_of_imp fun hv => ?_).symm
      exact hv.elim (isSome_of_boundNumber? hlow) (isSome_of_boundNumber? hhigh)
    | text | function => simp [matchSymbol] at h
  | call name _ _ => simp [matchSymbol] at h

theorem matchAll_complete {ts : List Term} {ss : List Symbol} (hts : ∀ t ∈ ts, PoolFree t)
    (ih : ∀ t ∈ ts, ∀ {b s known}, (∀ v, known v → (b.get? v).isSome) → t.Readable known →
      b ≤ c → StandsFor c t s → ∃ b', matchSymbol b t s = some b' ∧ b' ≤ c)
    (hknown : ∀ v, known v → (b.get? v).isSome) (hread : AllReadable known ts) (h : b ≤ c)
    (hs : List.Forall₂ (StandsFor c) ts ss) : ∃ b', matchAll b ts ss = some b' ∧ b' ≤ c := by
  induction hs generalizing b known with
  | nil => exact ⟨b, by rw [matchAll]; exact nofun, h⟩
  | cons hs _ iht =>
    obtain ⟨htfree, htsfree⟩ := List.forall_mem_cons.1 hts
    obtain ⟨hfirst, hrest⟩ := hread
    obtain ⟨b₁, hb₁, hle⟩ := ih _ List.mem_cons_self hknown hfirst h hs
    -- the variables of the first term are known to the others
    have hknown₁ := fun v (hv : known v ∨ _) =>
      ((matchSymbol_sound htfree hb₁).isSome_iff v).2 (hv.imp_left (hknown v))
    obtain ⟨b', hb', hle'⟩ :=
      iht htsfree (fun t ht => ih t (List.mem_cons_of_mem _ ht)) hknown₁ hrest hle
    refine ⟨b', ?_, hle'⟩
    rw [matchAll, hb₁]
    exact hb'

/-- A readable term that stands for the symbol under an extension is matched, and the match binds
no variable otherwise. -/
theorem matchSymbol_complete (ht : PoolFree t) (hknown : ∀ v, known v → (b.get? v).isSome)
    (hread : t.Readable known) (h : b ≤ c) (hs : StandsFor c t s) :
    ∃ b', matchSymbol b t s = some b' ∧ b' ≤ c := by
  induction ht generalizing b s known with
  | «variable» v =>
    rw [matchSymbol]
    exact matchVariable_complete h hs
  | number n =>
    cases hs
    exact ⟨b, by simp [matchSymbol], h⟩
  | text x =>
    cases hs
    exact ⟨b, by simp [matchSymbol], h⟩
  | function name hargs ih =>
    cases hs with
    | function _ hs =>
      rw [Readable] at hread
      obtain ⟨b', hb', hle⟩ := matchAll_complete hargs
        (fun t ht _ _ _ hknown hread h hs => ih t ht hknown hread h hs) hknown hread h hs
      refine ⟨b', ?_, hle⟩
      rw [matchSymbol, if_pos ⟨rfl, hs.length_eq⟩, hb']
  | interval =>
    cases hs with
    | interval hlow hhigh hl hh =>
      rw [Readable] at hread
      refine ⟨b, ?_, h⟩
      rw [matchSymbol, boundNumber?_of_le h hknown hread.1 hlow,
        boundNumber?_of_le h hknown hread.2 hhigh, matchInterval, if_pos ⟨hl, hh⟩]
  | call => cases hs

theorem allReadable_of_matchAll {ts : List Term} {ss : List Symbol} (hts : ∀ t ∈ ts, PoolFree t)
    (ih : ∀ t ∈ ts, ∀ {b s b' known}, (∀ v, (b.get? v).isSome → known v) →
      matchSymbol b t s = some b' → t.Readable known)
    (hlen : ts.length = ss.length) (hknown : ∀ v, (b.get? v).isSome → known v)
    (h : matchAll b ts ss = some b') : AllReadable known ts := by
  induction ts generalizing b ss known with
  | nil => trivial
  | cons t ts iht =>
    cases ss with
    | nil => cases hlen
    | cons s ss =>
      obtain ⟨htfree, htsfree⟩ := List.forall_mem_cons.1 hts
      rw [matchAll] at h
      split at h
      · next b₁ hb₁ =>
        refine ⟨ih t List.mem_cons_self hknown hb₁, ?_⟩
        refine iht htsfree (fun u hu => ih u (List.mem_cons_of_mem _ hu)) (Nat.succ.inj hlen) ?_ h
        intro v hv
        exact (((matchSymbol_sound htfree hb₁).isSome_iff v).1 hv).imp_left (hknown v)
      · cases h

theorem readable_of_matchSymbol (ht : PoolFree t) (hknown : ∀ v, (b.get? v).isSome → known v)
    (h : matchSymbol b t s = some b') : t.Readable known := by
  induction ht generalizing b b' s known with
  | number | text | «variable» | call =>
    rw [Readable]
    trivial
  | function name hargs ih =>
    cases s with
    | function name' values =>
      rw [matchSymbol, Option.ite_none_right_eq_some] at h
      rw [Readable]
      exact allReadable_of_matchAll hargs
        (fun t ht _ _ _ _ hknown h => ih t ht hknown h) h.1.2 hknown h.2
    | number | text => simp [matchSymbol] at h
  | interval =>
    cases s with
    | number n =>
      rw [matchSymbol] at h
      obtain ⟨l, h, hlow, hhigh, -⟩ := matchInterval_eq_some.1 h
      rw [Readable]
      exact ⟨boundKnown_of_boundNumber? hknown hlow, boundKnown_of_boundNumber? hknown hhigh⟩
    | text | function => simp [matchSymbol] at h

theorem Plain.poolFree (ht : Plain t) : PoolFree t := by
  induction ht with
  | number n => exact .number n
  | text s => exact .text s
  | «variable» v => exact .variable v
  | function name _ ih => exact .function name ih
  | interval _ _ hl hh => exact .interval hl hh

namespace Pattern

theorem plain (ht : Pattern t) : Plain t := by
  induction ht with
  | number n => exact .number n
  | text s => exact .text s
  | «variable» v => exact .variable v
  | function name _ ih => exact .function name ih
  | interval low high => exact .interval (.number low) (.number high)

theorem poolFree (ht : Pattern t) : PoolFree t := ht.plain.poolFree

theorem allReadable {ts : List Term} (h : ∀ t ∈ ts, ∀ known, t.Readable known)
    (known : String → Prop) : AllReadable known ts := by
  induction ts generalizing known with
  | nil => trivial
  | cons t ts ih =>
    obtain ⟨ht, hts⟩ := List.forall_mem_cons.1 h
    exact ⟨ht known, ih hts _⟩

theorem readable (ht : Pattern t) (known : String → Prop) : t.Readable known := by
  induction ht generalizing known with
  | number | text | «variable» =>
    rw [Readable]
    trivial
  | function name _ ih =>
    rw [Readable]
    exact allReadable ih known
  | interval low high =>
    rw [Readable]
    exact ⟨trivial, trivial⟩

theorem standsFor_iff (ht : Pattern t) : StandsFor b t s ↔ Matches b t s := by
  induction ht generalizing s with
  | number n => exact ⟨by rintro ⟨⟩; exact .number n, by rintro ⟨⟩; exact .number n⟩
  | text x => exact ⟨by rintro ⟨⟩; exact .text x, by rintro ⟨⟩; exact .text x⟩
  | «variable» v =>
    constructor
    · intro h
      cases h with
      | anonymous => exact .anonymous s
      | «variable» h => exact .variable h
    · intro h
      cases h with
      | anonymous => exact .anonymous s
      | «variable» h => exact .variable h
  | function name _ ih =>
    constructor
    · intro h
      cases h with
      | function _ h => exact .function name ((forall₂_congr_of_mem fun t ht _ => ih t ht).1 h)
    · intro h
      cases h with
      | function _ h => exact .function name ((forall₂_congr_of_mem fun t ht _ => ih t ht).2 h)
  | interval low high =>
    constructor
    · intro h
      cases h with
      | interval hlow hhigh hl hh =>
        cases hlow
        cases hhigh
        exact .interval hl hh
    · intro h
      cases h with
      | interval hl hh =>
        exact .interval (boundNumber?_number low) (boundNumber?_number high) hl hh

end Pattern

/-- A match binds no more than any extension under which the pattern stands for the symbol. -/
theorem matchSymbol_of_matches (ht : Pattern t) (h : b ≤ c) (hm : Matches c t s) :
    ∃ b', matchSymbol b t s = some b' ∧ b' ≤ c := by
  have hknown : ∀ v, False → (b.get? v).isSome := fun v h => h.elim
  exact matchSymbol_complete ht.poolFree hknown (ht.readable _) h (ht.standsFor_iff.2 hm)

theorem isSome_matchSymbol (ht : Pattern t) :
    (matchSymbol b t s).isSome ↔ ∃ c, b ≤ c ∧ Matches c t s := by
  constructor
  · intro h
    obtain ⟨b', hb'⟩ := Option.isSome_iff_exists.1 h
    have hext := matchSymbol_sound ht.poolFree hb'
    exact ⟨b', hext.le, ht.standsFor_iff.1 hext.stands⟩
  · rintro ⟨c, hle, hm⟩
    obtain ⟨b', hb', -⟩ := matchSymbol_of_matches ht hle hm
    rw [hb']
    rfl

end Term

end AnswerSetTest
