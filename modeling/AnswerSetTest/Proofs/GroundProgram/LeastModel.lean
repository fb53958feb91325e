import Mathlib.Data.Finset.Card
import AnswerSetTest.AnswerSet

/-!
# Least models of clauses

`Clause.leastModel` gives the least interpretation that is closed under clauses. Each of its atoms
is the head of a clause whose body it contains.
-/

namespace AnswerSetTest

def Interpretation.ofArray (atoms : Array Bool) : Interpretation := fun a => atoms.getD a false

namespace Clause

def Closed (clauses : List Clause) (I : Interpretation) : Prop :=
  ∀ c ∈ clauses, (∀ a ∈ c.body, I a) → I c.head

open Interpretation (ofArray)

theorem ofArray_setIfInBounds {atoms : Array Bool} {a b : AtomId} :
    ofArray (atoms.setIfInBounds a true) b ↔ ofArray atoms b ∨ a = b ∧ b < atoms.size := by
  simp only [ofArray, Array.getD_eq_getD_getElem?, Array.getElem?_setIfInBounds]
  split
  · next h =>
    subst h
    split
    · next hlt => simp [hlt]
    · next hlt => simp [hlt]
  · next h => simp [h]

theorem lt_size_of_ofArray {atoms : Array Bool} {a : AtomId} (h : ofArray atoms a) :
    a < atoms.size := by
  by_contra hn
  have hle : atoms.size ≤ a := Nat.le_of_not_lt hn
  simp [ofArray, Array.getElem?_eq_none hle] at h

/-- What applying clauses to `xs` can make of it. -/
structure Derives (clauses : List Clause) (xs ys : Array Bool) : Prop where
  size : ys.size = xs.size
  mono : ∀ a, ofArray xs a → ofArray ys a
  least : ∀ I, Closed clauses I → (∀ a, ofArray xs a → I a) → ∀ a, ofArray ys a → I a
  supported : ∀ a, ofArray ys a →
    ofArray xs a ∨ ∃ c ∈ clauses, c.head = a ∧ ∀ b ∈ c.body, ofArray ys b

namespace Derives

variable {clauses : List Clause} {xs ys zs : Array Bool}

theorem refl (clauses : List Clause) (xs : Array Bool) : Derives clauses xs xs :=
  ⟨rfl, fun _ h => h, fun _ _ h => h, fun _ h => .inl h⟩

theorem trans (h : Derives clauses xs ys) (h' : Derives clauses ys zs) :
    Derives clauses xs zs where
  size := h'.size.trans h.size
  mono a ha := h'.mono a (h.mono a ha)
  least I hI hxs := h'.least I hI (h.least I hI hxs)
  supported a ha := by
    rcases h'.supported a ha with hy | hc
    · rcases h.supported a hy with hx | ⟨c, hc, hhead, hbody⟩
      · exact .inl hx
      · exact .inr ⟨c, hc, hhead, fun b hb => h'.mono b (hbody b hb)⟩
    · exact .inr hc

end Derives

def fires (atoms : Array Bool) (c : Clause) : Bool :=
  c.body.all (fun a => atoms.getD a false) && !atoms.getD c.head false

theorem fires_iff {atoms : Array Bool} {c : Clause} :
    c.fires atoms ↔ (∀ a ∈ c.body, ofArray atoms a) ∧ ¬ ofArray atoms c.head := by
  simp [fires, ofArray]

theorem apply_eq (atoms : Array Bool) (changed : Bool) (c : Clause) :
    apply (atoms, changed) c =
      if c.fires atoms then (atoms.setIfInBounds c.head true, true) else (atoms, changed) := rfl

theorem derives_apply {clauses : List Clause} {c : Clause} (hc : c ∈ clauses)
    (s : Array Bool × Bool) : Derives clauses s.1 (apply s c).1 := by
  obtain ⟨atoms, changed⟩ := s
  rw [apply_eq]
  split
  · next hf =>
    have hbody := (fires_iff.1 hf).1
    refine ⟨Array.size_setIfInBounds, fun a ha => ofArray_setIfInBounds.2 (.inl ha), ?_, ?_⟩
    · intro I hI hsub a ha
      rcases ofArray_setIfInBounds.1 ha with ha | ⟨rfl, -⟩
      · exact hsub a ha
      · exact hI c hc fun b hb => hsub b (hbody b hb)
    · intro a ha
      rcases ofArray_setIfInBounds.1 ha with ha | ⟨rfl, -⟩
      · exact .inl ha
      · exact .inr ⟨c, hc, rfl, fun b hb => ofArray_setIfInBounds.2 (.inl (hbody b hb))⟩
  · exact .refl _ _

theorem derives_foldl {clauses : List Clause} (cs : List Clause) (hcs : ∀ c ∈ cs, c ∈ clauses)
    (s : Array Bool × Bool) : Derives clauses s.1 (cs.foldl apply s).1 := by
  induction cs generalizing s with
  | nil => exact .refl _ _
  | cons c cs ih =>
    have hc := derives_apply (hcs c List.mem_cons_self) s
    exact hc.trans (ih (fun d hd => hcs d (List.mem_cons_of_mem _ hd)) _)

theorem derives_saturate (clauses : List Clause) (limit : Nat) (atoms : Array Bool) :
    Derives clauses atoms (saturate clauses limit atoms) := by
  induction limit generalizing atoms with
  | zero => exact .refl _ _
  | succ limit ih =>
    have hturn := derives_foldl clauses (fun _ h => h) (atoms, false)
    rw [saturate]
    split
    · next ys h =>
      rw [h] at hturn
      exact hturn.trans (ih ys)
    · next ys h =>
      rw [h] at hturn
      exact hturn

theorem count_apply_lt {atoms : Array Bool} {c : Clause} (hlt : c.head < atoms.size)
    (hf : c.fires atoms) :
    atoms.count true < (atoms.setIfInBounds c.head true).count true := by
  have hhead : atoms[c.head] = false := by
    have h := (fires_iff.1 hf).2
    simpa [ofArray, hlt] using h
  rw [Array.setIfInBounds, dif_pos hlt, Array.count_set, hhead]
  simp

/-- A turn without a change finds the set closed, and a turn with one makes it larger. -/
theorem foldl_apply_changed (cs : List Clause) (atoms : Array Bool) (changed : Bool)
    (hlt : ∀ c ∈ cs, c.head < atoms.size) :
    (cs.foldl apply (atoms, changed) = (atoms, changed) ∧ Closed cs (ofArray atoms)) ∨
      (cs.foldl apply (atoms, changed)).2 = true ∧
        atoms.count true < (cs.foldl apply (atoms, changed)).1.count true := by
  induction cs generalizing atoms changed with
  | nil => exact .inl ⟨rfl, fun _ h => absurd h List.not_mem_nil⟩
  | cons c cs ih =>
    rw [List.foldl_cons, apply_eq]
    split
    · next hf =>
      have hcount := count_apply_lt (hlt c List.mem_cons_self) hf
      have hlt' : ∀ d ∈ cs, d.head < (atoms.setIfInBounds c.head true).size := by
        intro d hd
        rw [Array.size_setIfInBounds]
        exact hlt d (List.mem_cons_of_mem _ hd)
      rcases ih (atoms.setIfInBounds c.head true) true hlt' with ⟨heq, -⟩ | ⟨hch, hgrow⟩
      · rw [heq]
        exact .inr ⟨rfl, hcount⟩
      · exact .inr ⟨hch, hcount.trans hgrow⟩
    · next hf =>
      rcases ih atoms changed (fun d hd => hlt d (List.mem_cons_of_mem _ hd)) with ⟨heq, hcl⟩ | h
      · refine .inl ⟨heq, fun d hd hbody => ?_⟩
        rcases List.mem_cons.1 hd with rfl | hd
        · by_contra hn
          exact hf (fires_iff.2 ⟨hbody, hn⟩)
        · exact hcl d hd hbody
      · exact .inr h

theorem closed_of_full (clauses : List Clause) (atoms : Array Bool)
    (hlt : ∀ c ∈ clauses, c.head < atoms.size) (hfull : atoms.size ≤ atoms.count true) :
    Closed clauses (ofArray atoms) := by
  intro c hc _
  have hlt := hlt c hc
  have hall := Array.count_eq_size.1 (Nat.le_antisymm Array.count_le_size hfull)
  have hget := hall atoms[c.head] (Array.getElem_mem hlt)
  simp [ofArray, hlt, ← hget]

/-- There are enough turns if there are as many as atoms that are still false. -/
theorem closed_saturate {clauses : List Clause} {limit : Nat} {atoms : Array Bool}
    (hlt : ∀ c ∈ clauses, c.head < atoms.size) (hlimit : atoms.size ≤ limit + atoms.count true) :
    Closed clauses (ofArray (saturate clauses limit atoms)) := by
  induction limit generalizing atoms with
  | zero => exact closed_of_full clauses atoms hlt (by omega)
  | succ limit ih =>
    have hsize := (derives_foldl clauses (fun _ h => h) (atoms, false)).size
    rw [saturate]
    rcases foldl_apply_changed clauses atoms false hlt with ⟨heq, hcl⟩ | ⟨hch, hgrow⟩
    · rw [heq]
      exact hcl
    · generalize clauses.foldl apply (atoms, false) = s at *
      obtain ⟨ys, changed⟩ := s
      obtain rfl : changed = true := hch
      have hs : ys.size = atoms.size := hsize
      have hg : atoms.count true < ys.count true := hgrow
      exact ih (by rwa [hs]) (by omega)

variable {size : Nat} {clauses : List Clause}

theorem not_ofArray_replicate (size : Nat) (a : AtomId) :
    ¬ ofArray (Array.replicate size false) a := by
  simp only [ofArray, Array.getD_eq_getD_getElem?, Array.getElem?_replicate]
  split <;> simp

@[simp] theorem size_leastModel : (leastModel size clauses).size = size := by
  rw [leastModel, (derives_saturate clauses size _).size, Array.size_replicate]

theorem closed_leastModel (hlt : ∀ c ∈ clauses, c.head < size) :
    Closed clauses (ofArray (leastModel size clauses)) :=
  closed_saturate (by simpa using hlt) (by simp)

theorem leastModel_le {I : Interpretation} (hI : Closed clauses I) {a : AtomId}
    (ha : ofArray (leastModel size clauses) a) : I a :=
  (derives_saturate clauses size _).least I hI
    (fun b hb => absurd hb (not_ofArray_replicate size b)) a ha

theorem leastModel_supported {a : AtomId} (ha : ofArray (leastModel size clauses) a) :
    ∃ c ∈ clauses, c.head = a ∧ ∀ b ∈ c.body, ofArray (leastModel size clauses) b :=
  ((derives_saturate clauses size _).supported a ha).resolve_left (not_ofArray_replicate size a)

/-- Clauses under which the same sets are closed have the same least model. -/
theorem leastModel_congr {clauses' : List Clause} (hlt : ∀ c ∈ clauses, c.head < size)
    (hlt' : ∀ c ∈ clauses', c.head < size)
    (h : ∀ I, Closed clauses I ↔ Closed clauses' I) :
    leastModel size clauses = leastModel size clauses' := by
  have hsame : ofArray (leastModel size clauses) = ofArray (leastModel size clauses') := by
    funext a
    rw [Bool.eq_iff_iff]
    exact ⟨leastModel_le ((h _).2 (closed_leastModel hlt')),
      leastModel_le ((h _).1 (closed_leastModel hlt))⟩
  refine Array.ext (by simp) fun a ha ha' => ?_
  have hget := congrFun hsame a
  simpa only [ofArray, Array.getD_eq_getD_getElem?, Array.getElem?_eq_getElem ha,
    Array.getElem?_eq_getElem ha', Option.getD_some] using hget

end Clause

end AnswerSetTest
