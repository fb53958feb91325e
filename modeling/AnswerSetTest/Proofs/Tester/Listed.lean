import AnswerSetTest.Proofs.Symbol.UniqueReading
import AnswerSetTest.Proofs.Tester.Ensured
import AnswerSetTest.Proofs.Tester.History

/-!
# Listed assertions

A passing report has a text for each of its assertions. The assertions are in ascending order
whatever happened before, so none is listed twice. Two of them have the same text only if one of
them has a function name that is no identifier.
-/

namespace AnswerSetTest

open Handler (Event)

namespace Tester

variable {t : Tester}

theorem assertions_ascending_play (h : t.index.assertions.Pairwise (· < ·)) (x : Step) :
    (t.play x).index.assertions.Pairwise (· < ·) := by
  cases x with
  | event e =>
    have u : Updates e t (t.play (.event e)) := updates_handle e t
    exact u.assertions_ascending h
  | model m =>
    have haccept : (t.accept m).index.assertions.Pairwise (· < ·) := pairwise_foldl_insert h
    exact addModel_induction (P := fun u => u.index.assertions.Pairwise (· < ·)) h haccept
      (fun _ => h) fun _ => haccept

theorem assertions_ascending_playAll (h : t.index.assertions.Pairwise (· < ·))
    (steps : List Step) : (t.playAll steps).index.assertions.Pairwise (· < ·) := by
  induction steps generalizing t with
  | nil => exact h
  | cons x steps ih => exact ih (assertions_ascending_play h x)

theorem lists_playAll (unit file : String) (options : TesterOptions) (steps : List Step)
    {r : Report} (h : (playAll (.new unit file options) steps).report = .ok r) :
    r.Lists (playAll (.new unit file options) steps).index.assertions := by
  obtain ⟨-, -, -, rfl⟩ := report_eq_ok_iff.1 h
  exact ⟨assertions_ascending_playAll .nil steps, rfl, rfl⟩

end Tester

theorem Report.Lists.nodup {r : Report} {ss : List Symbol} (h : r.Lists ss)
    (hss : ∀ s ∈ ss, s.Named) : r.assertions.Nodup ∧ r.assertions.length = r.assertionCount := by
  rw [h.assertions, h.assertionCount, List.length_map]
  refine ⟨List.Nodup.map_on ?_ ?_, rfl⟩
  · exact fun s hs t ht => (hss s hs).display_inj (hss t ht)
  · exact Symbol.nodup_of_ascending h.ascending

namespace Tester

/-- Symbols whose function names are identifiers or empty have different texts. So the texts of the
assertions of a passing report are pairwise different and as many as are counted, if all of them
are such symbols. -/
theorem listed_apart :
    (∀ s t : Symbol, s.Named → t.Named → s.display = t.display → s = t) ∧
    ∀ (unit file : String) (options : TesterOptions) (steps : List Step) (r : Report),
      (playAll (.new unit file options) steps).report = .ok r →
      (∀ s ∈ (playAll (.new unit file options) steps).index.assertions, s.Named) →
      r.assertions.Nodup ∧ r.assertions.length = r.assertionCount := by
  refine ⟨fun s t hs ht => hs.display_inj ht, fun unit file options steps r h hnamed => ?_⟩
  exact (lists_playAll unit file options steps h).nodup hnamed

theorem listed_apart_sample :
    let quote : Symbol := .function "assert" [.text "\""]
    let one : Symbol := .function "assert" [.tuple [.text "\""]]
    let count : Symbol := .function "assert" [.function "models" [.number 1]]
    let steps : List Step := [.event (.call "all" [.text "\""]),
      .event (.call "all" [.tuple [.text "\""]]), .event (.call "models" [.number 1]),
      .model ⟨1, [quote, one, count], []⟩]
    let r : Report := ⟨"test", "t.lp",
      ["assert(\"\\\"\")", "assert((\"\\\"\",))", "assert(models(1))"], 3, 1⟩
    (playAll (.new "test" "t.lp" ⟨["none"], 80⟩) steps).report = .ok r ∧
      (∀ s ∈ (playAll (.new "test" "t.lp" ⟨["none"], 80⟩) steps).index.assertions, s.Named) ∧
      r.assertions.Nodup ∧ r.assertions.length = r.assertionCount := by
  intro quote one count steps r
  have hreport : (playAll (.new "test" "t.lp" ⟨["none"], 80⟩) steps).report = .ok r := rfl
  have hassert : Symbol.IsIdentifier "assert" :=
    ⟨'a', ['s', 's', 'e', 'r', 't'], rfl, rfl, List.all_eq_true.1 rfl⟩
  have hmodels : Symbol.IsIdentifier "models" :=
    ⟨'m', ['o', 'd', 'e', 'l', 's'], rfl, rfl, List.all_eq_true.1 rfl⟩
  have hquote : quote.Named := by
    refine .function (.inl hassert) (List.forall_mem_singleton.2 ?_)
    exact .text "\""
  have hone : one.Named := by
    refine .function (.inl hassert) (List.forall_mem_singleton.2 ?_)
    refine .function (.inr rfl) (List.forall_mem_singleton.2 ?_)
    exact .text "\""
  have hcount : count.Named := by
    refine .function (.inl hassert) (List.forall_mem_singleton.2 ?_)
    refine .function (.inl hmodels) (List.forall_mem_singleton.2 ?_)
    exact .number 1
  have hlisted : ∀ s ∈ [quote, one, count], s.Named :=
    List.forall_mem_cons.2 ⟨hquote, List.forall_mem_cons.2 ⟨hone, by simpa using hcount⟩⟩
  exact ⟨hreport, hlisted, listed_apart.2 "test" "t.lp" ⟨["none"], 80⟩ steps r hreport hlisted⟩

end Tester

end AnswerSetTest
