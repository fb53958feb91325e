import AnswerSetTest.Proofs.Ground.Rounds
import AnswerSetTest.Proofs.Paired

/-!
# Exchange of rules

Rules that make corresponding instances over all atoms can be exchanged: if both instantiations
succeed they end with the same atoms and with corresponding instances. In particular the order of
rules and externals does not matter.
-/

namespace AnswerSetTest

variable {answer : String → List Symbol → Except String Symbol} {rules rules' : List Rule}
  {A : Instance → Instance → Prop} {limit : Nat} {made made' : Set Instance}
  {known known₁ known₂ symbols symbols' : List Symbol}

theorem Learns.eq_of_paired (hhead : ∀ i j, A i j → i.head = j.head)
    (hmade : Paired A (Rule.allMade answer rules known) (Rule.allMade answer rules' known))
    (h : Learns answer rules known known₁) (h' : Learns answer rules' known known₂) :
    known₁ = known₂ := by
  refine eq_of_pairwise (fun _ _ => Symbol.lt_asymm) h.ascending h'.ascending fun s => ?_
  rw [h.mem_iff, h'.mem_iff]
  refine or_congr_right ⟨?_, ?_⟩
  · rintro ⟨i, hi, hs⟩
    obtain ⟨j, hj, hij⟩ := hmade.left i hi
    exact ⟨j, hj, hhead i j hij ▸ hs⟩
  · rintro ⟨j, hj, hs⟩
    obtain ⟨i, hi, hij⟩ := hmade.right j hj
    exact ⟨i, hi, hhead i j hij ▸ hs⟩

/-- If the instances of every round correspond, so do the results. -/
theorem Expands.paired (hhead : ∀ i j, A i j → i.head = j.head)
    (hmade : ∀ known, (∀ r ∈ rules, r.Succeeds answer known) →
      (∀ r ∈ rules', r.Succeeds answer known) →
        Paired A (Rule.allMade answer rules known) (Rule.allMade answer rules' known))
    (h : Expands answer rules limit known symbols made)
    (h' : Expands answer rules' limit known symbols' made') :
    symbols = symbols' ∧ Paired A made made' := by
  induction h generalizing symbols' made' with
  | last hround =>
    cases h' with
    | last hround' => exact ⟨rfl, hmade _ hround.succeeds hround'.succeeds⟩
    | next hround' hne =>
      have hpaired := hmade _ hround.succeeds hround'.succeeds
      obtain rfl := hround.eq_of_paired hhead hpaired hround'.toLearns
      exact absurd rfl hne
  | next hround hne _ ih =>
    cases h' with
    | last hround' =>
      have hpaired := hmade _ hround.succeeds hround'.succeeds
      obtain rfl := hround.eq_of_paired hhead hpaired hround'.toLearns
      exact absurd rfl hne
    | next hround' _ hrest =>
      have hpaired := hmade _ hround.succeeds hround'.succeeds
      obtain rfl := hround.eq_of_paired hhead hpaired hround'.toLearns
      obtain ⟨hsymbols, hlater⟩ := ih hrest
      exact ⟨hsymbols, hpaired.union hlater⟩

theorem Expands.round (h : Expands answer rules limit known symbols made) :
    Round answer rules symbols symbols := by
  induction h with
  | last hround => exact hround
  | next _ _ _ ih => exact ih

theorem Expands.congr (hrules : ∀ r, r ∈ rules ↔ r ∈ rules')
    (h : Expands answer rules limit known symbols made) :
    Expands answer rules' limit known symbols made := by
  have hmade : ∀ known, Rule.allMade answer rules known = Rule.allMade answer rules' known :=
    fun known => Set.ext fun i => exists_congr fun r => and_congr_left fun _ => hrules r
  have hround : ∀ {known known'}, Round answer rules known known' →
      Round answer rules' known known' := fun {known known'} hround =>
    ⟨⟨hround.ascending, fun s => by rw [hround.mem_iff, hmade]⟩,
      fun r hr => hround.succeeds r ((hrules r).2 hr), hround.length_le⟩
  induction h with
  | last h =>
    rw [hmade]
    exact .last (hround h)
  | next h hne _ ih =>
    rw [hmade]
    exact .next (hround h) hne ih

theorem Declares.congr {es es' : List (Term × Span)} (hes : ∀ e, e ∈ es ↔ e ∈ es')
    (h : Declares answer es known) : Declares answer es' known where
  succeeds e he := h.succeeds e ((hes e).2 he)
  ascending := h.ascending
  mem_iff s := by
    rw [h.mem_iff]
    exact exists_congr fun e => and_congr_left fun _ => hes e

namespace Selection

variable {s s' : Selection}

theorem Expands.paired (hhead : ∀ i j, A i j → i.head = j.head)
    (hexternals : s.externals = s'.externals)
    (hmade : ∀ known, (∀ r ∈ s.rules, r.Succeeds answer known) →
      (∀ r ∈ s'.rules, r.Succeeds answer known) →
        Paired A (Rule.allMade answer s.rules known) (Rule.allMade answer s'.rules known))
    (h : s.Expands answer symbols made) (h' : s'.Expands answer symbols' made') :
    symbols = symbols' ∧ Paired A made made' := by
  obtain ⟨known, hdeclares, hexpands⟩ := h
  obtain ⟨known', hdeclares', hexpands'⟩ := h'
  rw [← hexternals] at hdeclares'
  obtain rfl := hdeclares.unique hdeclares'
  exact AnswerSetTest.Expands.paired hhead hmade hexpands hexpands'

theorem Expands.unique (h : s.Expands answer symbols made) (h' : s.Expands answer symbols' made') :
    symbols = symbols' ∧ made = made' := by
  obtain ⟨hsymbols, hmade⟩ := Expands.paired (A := Eq) (fun _ _ h => h ▸ rfl) rfl
    (fun _ _ _ => .refl _) h h'
  exact ⟨hsymbols, hmade.eq⟩

theorem Expands.congr (hrules : ∀ r, r ∈ s.rules ↔ r ∈ s'.rules)
    (hexternals : ∀ e, e ∈ s.externals ↔ e ∈ s'.externals) (h : s.Expands answer symbols made) :
    s'.Expands answer symbols made := by
  obtain ⟨known, hdeclares, hexpands⟩ := h
  exact ⟨known, hdeclares.congr hexternals, hexpands.congr hrules⟩

end Selection

end AnswerSetTest
