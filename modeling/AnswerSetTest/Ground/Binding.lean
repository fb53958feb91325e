import AnswerSetTest.Symbol

/-!
# Bindings

A binding gives values to finitely many variables. Its entries are kept in the order of the
variables' names, so that equal bindings have equal entries.
-/

namespace AnswerSetTest

namespace Binding

abbrev Entries := List (String × Symbol)

def Entries.Sorted (es : Entries) : Prop := es.Pairwise fun a b => a.1 < b.1

def Entries.insert (v : String) (s : Symbol) : Entries → Entries
  | [] => [(v, s)]
  | (w, t) :: rest =>
    if v < w then (v, s) :: (w, t) :: rest
    else if v = w then (v, s) :: rest
    else (w, t) :: Entries.insert v s rest

theorem Entries.mem_insert {v : String} {s : Symbol} {e : String × Symbol} {es : Entries}
    (h : e ∈ es.insert v s) : e = (v, s) ∨ e ∈ es := by
  induction es with
  | nil => simpa [insert] using h
  | cons a rest ih =>
    obtain ⟨w, t⟩ := a
    simp only [insert] at h
    split at h
    · simpa using h
    · split at h
      · rcases List.mem_cons.1 h with h | h
        · exact .inl h
        · exact .inr (List.mem_cons_of_mem _ h)
      · rcases List.mem_cons.1 h with h | h
        · exact .inr (h ▸ List.mem_cons_self)
        · exact (ih h).imp_right (List.mem_cons_of_mem _)

theorem Entries.Sorted.insert {v : String} {s : Symbol} {es : Entries} (h : es.Sorted) :
    (es.insert v s).Sorted := by
  induction es with
  | nil => simp [Sorted, Entries.insert]
  | cons a rest ih =>
    obtain ⟨w, t⟩ := a
    have hw : ∀ e ∈ rest, w < e.1 := (List.pairwise_cons.1 h).1
    have hr : rest.Pairwise fun a b => a.1 < b.1 := (List.pairwise_cons.1 h).2
    simp only [Entries.insert]
    split
    · next hv =>
      refine List.pairwise_cons.2 ⟨fun e he => ?_, h⟩
      rcases List.mem_cons.1 he with rfl | he
      · exact hv
      · exact String.lt_trans hv (hw e he)
    · next hv =>
      split
      · next he => exact List.pairwise_cons.2 ⟨he ▸ hw, hr⟩
      · next hn =>
        refine List.pairwise_cons.2 ⟨fun e he => ?_, ih hr⟩
        rcases Entries.mem_insert he with rfl | he
        · exact Decidable.byContradiction fun hc =>
            hn (String.le_antisymm (String.not_lt.1 hc) (String.not_lt.1 hv))
        · exact hw e he

end Binding

structure Binding where
  entries : Binding.Entries
  sorted : entries.Sorted
deriving DecidableEq

namespace Binding

instance : Hashable Binding := ⟨fun b => hash b.entries⟩

def empty : Binding := ⟨[], List.Pairwise.nil⟩

instance : Inhabited Binding := ⟨empty⟩

def get? (b : Binding) (v : String) : Option Symbol :=
  (b.entries.find? fun e => e.1 == v).map Prod.snd

def insert (b : Binding) (v : String) (s : Symbol) : Binding :=
  ⟨b.entries.insert v s, b.sorted.insert⟩

end Binding

end AnswerSetTest
