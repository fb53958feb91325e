import AnswerSetTest.Proofs.Syntax.Segments
import AnswerSetTest.Proofs.Syntax.Statements

/-!
# Statement by statement

Tokens are cut after every dot. Reading them gives one outcome for each chunk, and one for what
stands behind the last dot, if anything does: the outcome of reading that segment alone. So there
is a program exactly if each chunk is a statement and nothing is left, and every bad segment gives
one diagnostic, whatever stands around it.
-/

namespace AnswerSetTest

open Token

namespace Sides

variable {w : Sides} {k : Nat}

theorem Tokens.append {body body' ts us : List Token}
    (hbody : List.Forall₂ (SameUpTo Token.kind w.exact) body body') (hdotless : Dotless body)
    (h : w.Tokens k ts us) : w.Tokens (body.length + k) (body ++ ts) (body' ++ us) := by
  induction hbody with
  | nil => simpa using h
  | @cons t u body body' htu _ ih =>
    rw [List.length_cons, Nat.add_right_comm]
    exact .token htu hdotless.of_cons.1 (ih hdotless.of_cons.2)

theorem Tokens.skip_eq {ts us : List Token} (h : w.Tokens k ts us) :
    (Statement.skip ts, Statement.skip us) = w.behind.getD ([], []) := by
  induction h with
  | finish k h => rw [h]; rfl
  | dot k h hdot hbehind =>
    rw [hbehind]
    simp [Statement.skip, hdot, ← h.image]
  | token h hdot hs ih =>
    rw [← ih]
    simp [Statement.skip, hdot, ← h.image]

end Sides

namespace Statement

def unspannedOutcome : Except Diagnostic Statement → Except Diagnostic Statement
  | .ok statement => .ok statement.unspanned
  | .error d => .error d.unspanned

/-- The outcome of reading one statement, and the tokens that are left then. -/
def next (source : Source) (tokens : List Token) : Except Diagnostic Statement × List Token :=
  match (read source).run.run ⟨none, tokens⟩ with
  | (.ok statement, cursor) => (.ok statement, cursor.rest)
  | (.error d, cursor) => (.error d, skip cursor.rest)

def outcome (source : Source) (tokens : List Token) : Except Diagnostic Statement :=
  (next source tokens).1

theorem readUpTo_succ (source : Source) (limit : Nat) {tokens : List Token} (h : tokens ≠ []) :
    readUpTo source (limit + 1) tokens =
      outcome source tokens :: readUpTo source limit (next source tokens).2 := by
  rw [readUpTo, outcome, next]
  · rcases (read source).run.run ⟨none, tokens⟩ with ⟨_ | _, _⟩ <;> rfl
  · exact h

theorem readUpTo_nil (source : Source) (limit : Nat) : readUpTo source limit [] = [] := by
  cases limit <;> rfl

/-- The outcomes are alike, and what is left is what stands behind the dots. Without a dot there
is no statement. -/
theorem next_inStep {w : Sides} {k : Nat} {ts us : List Token} (h : w.Tokens k ts us) :
    SameUpTo unspannedOutcome w.exact (outcome w.left ts) (outcome w.right us) ∧
      ((next w.left ts).2, (next w.right us).2) = w.behind.getD ([], []) ∧
      (w.behind = none → ∃ d, outcome w.left ts = .error d) := by
  have hout := Sides.closes_statement ⟨none, ts⟩ ⟨none, us⟩ ⟨fun _ => rfl, h⟩
  change w.Outcomes _ ((read w.left).run.run ⟨none, ts⟩)
    ((read w.right).run.run ⟨none, us⟩) at hout
  unfold outcome next
  revert hout
  generalize (read w.left).run.run ⟨none, ts⟩ = r, (read w.right).run.run ⟨none, us⟩ = r'
  rintro (@⟨a, b, c, d, hab, hcd⟩ | ⟨hef, hcd⟩)
  · refine ⟨⟨congrArg Except.ok hab.image, fun he => by rw [hab.eq he]⟩, ?_, fun hnone => ?_⟩
    · rw [hcd.rest]
      rfl
    · -- both have passed a dot
      exact absurd (hcd.rest.symm.trans hnone) (by simp)
  · exact ⟨⟨congrArg Except.error hef.image, fun he => by rw [hef.eq he]⟩, hcd.rest.skip_eq,
      fun _ => ⟨_, rfl⟩⟩

/-- Two copies of the same tokens of a source, with what stands behind their dots. -/
def copies (source : Source) (behind : Option (List Token × List Token)) : Sides :=
  ⟨True, source, source, fun _ => rfl, behind⟩

theorem tokens_copies {source : Source} {behind : Option (List Token × List Token)}
    {body ts us : List Token} (hbody : Dotless body) (h : (copies source behind).Tokens 0 ts us) :
    (copies source behind).Tokens body.length (body ++ ts) (body ++ us) :=
  Sides.Tokens.append (List.forall₂_same.2 fun _ _ => ⟨rfl, fun _ => rfl⟩) hbody h

theorem next_chunk (source : Source) {body : List Token} (hbody : Dotless body) {dot : Token}
    (hdot : dot.kind = .dot) (ts : List Token) :
    outcome source (body ++ dot :: ts) = outcome source (body ++ [dot]) ∧
      (next source (body ++ dot :: ts)).2 = ts ∧ (next source (body ++ [dot])).2 = [] := by
  have h : (copies source (some (ts, []))).Tokens body.length (body ++ dot :: ts) (body ++ [dot]) :=
    tokens_copies hbody (.dot 0 ⟨rfl, fun _ => rfl⟩ hdot rfl)
  obtain ⟨hout, hrest, -⟩ := next_inStep h
  exact ⟨hout.eq trivial, congrArg Prod.fst hrest, congrArg Prod.snd hrest⟩

/-- Tokens without a dot are no statement, and none of them is left. -/
theorem next_dotless (source : Source) {ts : List Token} (hts : Dotless ts) :
    (∃ d, outcome source ts = .error d) ∧ (next source ts).2 = [] := by
  have h : (copies source none).Tokens ts.length (ts ++ []) (ts ++ []) :=
    tokens_copies hts (.finish 0 rfl)
  rw [List.append_nil] at h
  obtain ⟨-, hrest, herror⟩ := next_inStep h
  exact ⟨herror rfl, congrArg Prod.fst hrest⟩

theorem readUpTo_eq_map (source : Source) {limit : Nat} {tokens : List Token}
    (h : tokens.length ≤ limit) :
    readUpTo source limit tokens = (segments tokens).map (outcome source) := by
  induction tokens using cut_induction generalizing limit with
  | rest ts hts =>
    by_cases hne : ts = []
    · subst hne
      rw [readUpTo_nil]
      rfl
    · obtain ⟨n, rfl⟩ : ∃ n, limit = n + 1 :=
        Nat.exists_eq_add_one_of_ne_zero fun h0 => hne (List.length_eq_zero_iff.1 (by omega))
      rw [readUpTo_succ source n hne, (next_dotless source hts).2, readUpTo_nil,
        segments_of_dotless hts hne]
      rfl
  | chunk body dot ts hbody hdot ih =>
    rw [List.length_append, List.length_cons] at h
    obtain ⟨n, rfl⟩ : ∃ n, limit = n + 1 := Nat.exists_eq_add_one_of_ne_zero (by omega)
    obtain ⟨hout, hrest, -⟩ := next_chunk source hbody hdot ts
    rw [readUpTo_succ source n (by simp), hrest, ih (by omega), segments_append hbody hdot,
      List.map_cons, hout]

theorem readAll_eq_map (source : Source) (tokens : List Token) :
    readAll source tokens = (segments tokens).map (outcome source) :=
  readUpTo_eq_map source (Nat.le_refl _)

/-- Each segment has one outcome when it is read alone. -/
theorem readAll_of_mem_segments (source : Source) {tokens c : List Token}
    (h : c ∈ segments tokens) : readAll source c = [outcome source c] := by
  rw [readAll_eq_map, segments_of_mem_segments h, List.map_singleton]

theorem forall₂_of_kinds {ts us : List Token} (h : us.map Token.kind = ts.map Token.kind) :
    List.Forall₂ (SameUpTo Token.kind False) ts us := by
  have hkinds : List.Forall₂ Eq (ts.map Token.kind) (us.map Token.kind) := by
    rw [List.forall₂_eq_eq_eq, h]
  rw [List.forall₂_map_left_iff, List.forall₂_map_right_iff] at hkinds
  exact hkinds.imp fun _ _ hkind => ⟨hkind, False.elim⟩

theorem unspanned_readUpTo (source source' : Source) {tokens tokens' : List Token}
    (h : tokens'.map Token.kind = tokens.map Token.kind) (limit : Nat) :
    (readUpTo source' limit tokens').map unspannedOutcome =
      (readUpTo source limit tokens).map unspannedOutcome := by
  let sides (behind : Option (List Token × List Token)) : Sides :=
    ⟨False, source, source', False.elim, behind⟩
  induction tokens using cut_induction generalizing limit tokens' with
  | rest ts hts =>
    by_cases hne : ts = []
    · subst hne
      rw [List.map_eq_nil_iff.1 h, readUpTo_nil, readUpTo_nil]
    have hne' : tokens' ≠ [] := fun hnil => hne (by simpa [hnil] using h.symm)
    cases limit with
    | zero => rfl
    | succ n =>
      have hsides : (sides none).Tokens ts.length (ts ++ []) (tokens' ++ []) :=
        Sides.Tokens.append (forall₂_of_kinds h) hts (.finish 0 rfl)
      rw [List.append_nil, List.append_nil] at hsides
      obtain ⟨hout, hrest, -⟩ := next_inStep hsides
      obtain ⟨hts', hus'⟩ := Prod.mk.inj hrest
      rw [readUpTo_succ source' n hne', readUpTo_succ source n hne, hts', hus', readUpTo_nil,
        readUpTo_nil, List.map_singleton, List.map_singleton, hout.image]
  | chunk body dot ts hbody hdot ih =>
    rw [List.map_append, List.map_cons] at h
    obtain ⟨body', us, rfl, hbody', hus⟩ := List.map_eq_append_iff.1 h
    obtain ⟨dot', ts', rfl, hdot', hts'⟩ := List.map_eq_cons_iff.1 hus
    cases limit with
    | zero => rfl
    | succ n =>
      have hsides : (sides (some (ts, ts'))).Tokens body.length (body ++ dot :: ts)
          (body' ++ dot' :: ts') :=
        Sides.Tokens.append (forall₂_of_kinds hbody') hbody
          (.dot 0 ⟨hdot'.symm, False.elim⟩ hdot rfl)
      obtain ⟨hout, hrest, -⟩ := next_inStep hsides
      obtain ⟨hleft, hright⟩ := Prod.mk.inj hrest
      rw [readUpTo_succ source' n (by simp), readUpTo_succ source n (by simp), hleft, hright,
        List.map_cons, List.map_cons, hout.image, ih hts' n]

end Statement

namespace Program

open Statement

variable (name : String) (outcomes : List (Except Diagnostic Statement))

theorem ofOutcomes_cons_ok (statement : Statement) :
    ofOutcomes name (.ok statement :: outcomes) =
      (ofOutcomes name outcomes).map fun p => ⟨p.sourceName, statement :: p.statements⟩ := by
  simp only [ofOutcomes, List.filterMap_cons]
  split <;> rfl

variable {name outcomes}

theorem ofOutcomes_cons_error_of_ok (d : Diagnostic) {p : Program}
    (h : ofOutcomes name outcomes = .ok p) :
    ofOutcomes name (.error d :: outcomes) = .error [d] := by
  simp only [ofOutcomes, List.filterMap_cons] at h ⊢
  split at h
  · next hnil => rw [hnil]
  · cases h

theorem ofOutcomes_cons_error_of_error (d : Diagnostic) {ds : List Diagnostic}
    (h : ofOutcomes name outcomes = .error ds) :
    ofOutcomes name (.error d :: outcomes) = .error (d :: ds) := by
  simp only [ofOutcomes, List.filterMap_cons] at h ⊢
  split at h
  · cases h
  · rw [Except.error.inj h]

variable (name outcomes)

theorem ofOutcomes_cases :
    (∃ ss, outcomes = ss.map .ok ∧ ofOutcomes name outcomes = .ok ⟨name, ss⟩) ∨
    (∃ ds, ds ≠ [] ∧ outcomes.filter (fun o => !o.isOk) = ds.map .error ∧
      ofOutcomes name outcomes = .error ds) := by
  induction outcomes with
  | nil => exact .inl ⟨[], rfl, rfl⟩
  | cons o outcomes ih =>
    cases o with
    | ok statement =>
      rw [ofOutcomes_cons_ok]
      rcases ih with ⟨ss, rfl, hos⟩ | ⟨ds, hne, hbad, hos⟩
      · exact .inl ⟨statement :: ss, rfl, by rw [hos]; rfl⟩
      · exact .inr ⟨ds, hne, hbad, by rw [hos]; rfl⟩
    | error d =>
      have hcons : (Except.error d :: outcomes).filter (fun o => !o.isOk) =
          .error d :: outcomes.filter fun o => !o.isOk := rfl
      rcases ih with ⟨ss, rfl, hos⟩ | ⟨ds, hne, hbad, hos⟩
      · refine .inr ⟨[d], by simp, ?_, ofOutcomes_cons_error_of_ok d hos⟩
        have hnone : (ss.map Except.ok).filter
            (fun o : Except Diagnostic Statement => !o.isOk) = [] := by
          simp [Except.isOk, Except.toBool]
        rw [hcons, hnone]
        rfl
      · exact .inr ⟨d :: ds, by simp, by rw [hcons, hbad, List.map_cons],
          ofOutcomes_cons_error_of_error d hos⟩

theorem isOk_ofOutcomes_iff : (ofOutcomes name outcomes).isOk ↔ ∀ o ∈ outcomes, o.isOk := by
  rcases ofOutcomes_cases name outcomes with ⟨ss, rfl, hos⟩ | ⟨ds, hne, hbad, hos⟩
  · rw [hos, List.forall_mem_map]
    exact ⟨fun _ _ _ => rfl, fun _ => rfl⟩
  · rw [hos]
    refine ⟨fun h => Bool.noConfusion h, fun h => absurd ?_ hne⟩
    have hnone : outcomes.filter (fun o => !o.isOk) = [] :=
      List.filter_eq_nil_iff.2 fun o ho hnot => by simp [h o ho] at hnot
    exact List.map_eq_nil_iff.1 (hbad.symm.trans hnone)

section Segments

variable (source : Source) {tokens c : List Token}

theorem ofTokens_of_mem_segments (h : c ∈ segments tokens) :
    ofTokens source c = ofOutcomes (source.file.getD "<string>") [outcome source c] := by
  rw [ofTokens, readAll_of_mem_segments source h]

theorem isOk_ofTokens_of_mem_segments (h : c ∈ segments tokens) :
    (ofTokens source c).isOk = (outcome source c).isOk := by
  rw [ofTokens_of_mem_segments source h]
  cases outcome source c <;> rfl

theorem not_isOk_ofTokens_of_dotless (h : Dotless c) (hne : c ≠ []) :
    (ofTokens source c).isOk = false := by
  have hmem : c ∈ segments c := by rw [segments_of_dotless h hne]; exact List.mem_singleton_self c
  obtain ⟨d, hd⟩ := (next_dotless source h).1
  rw [isOk_ofTokens_of_mem_segments source hmem, hd]
  rfl

theorem map_ofTokens_segments {cs : List (List Token)} (h : ∀ c ∈ cs, c ∈ segments tokens) :
    cs.map (ofTokens source) =
      (cs.map (outcome source)).map fun o => ofOutcomes (source.file.getD "<string>") [o] := by
  rw [List.map_map]
  exact List.map_congr_left fun c hc => ofTokens_of_mem_segments source (h c hc)

/-- The bad segments are the chunks that are no program alone, and what stands behind the last
dot. -/
theorem filter_segments (tokens : List Token) :
    (segments tokens).filter (fun c => !(outcome source c).isOk) =
      (chunks tokens).filter (fun c => !(ofTokens source c).isOk) ++
        if unfinished tokens = [] then [] else [unfinished tokens] := by
  have hbad : ∀ c ∈ segments tokens, (!(outcome source c).isOk) = !(ofTokens source c).isOk :=
    fun c hc => by rw [isOk_ofTokens_of_mem_segments source hc]
  rw [List.filter_congr hbad, segments, List.filter_append]
  split
  · rfl
  · next hne =>
    rw [List.filter_singleton,
      not_isOk_ofTokens_of_dotless source (dotless_unfinished tokens) hne]
    rfl

theorem isOk_ofTokens_iff (tokens : List Token) :
    (ofTokens source tokens).isOk ↔
      unfinished tokens = [] ∧ ∀ c ∈ chunks tokens, (ofTokens source c).isOk := by
  have hsegments : (ofTokens source tokens).isOk ↔
      ∀ c ∈ segments tokens, (ofTokens source c).isOk := by
    rw [ofTokens, isOk_ofOutcomes_iff, readAll_eq_map, List.forall_mem_map]
    exact forall₂_congr fun c hc => by rw [isOk_ofTokens_of_mem_segments source hc]
  rw [hsegments, segments, List.forall_mem_append, and_comm]
  refine and_congr_left' ?_
  split
  · next hnil => exact iff_of_true (List.forall_mem_nil _) hnil
  · next hne =>
    rw [List.forall_mem_singleton,
      not_isOk_ofTokens_of_dotless source (dotless_unfinished tokens) hne]
    exact iff_of_false Bool.false_ne_true hne

theorem outcomes_of_eq_ok {p : Program} (h : ofTokens source tokens = .ok p) :
    unfinished tokens = [] ∧ p.sourceName = source.file.getD "<string>" ∧
      (chunks tokens).map (outcome source) = p.statements.map .ok := by
  have hok : (ofTokens source tokens).isOk := by rw [h]; rfl
  have hunfinished : unfinished tokens = [] := ((isOk_ofTokens_iff source tokens).1 hok).1
  have hsegments : segments tokens = chunks tokens := by
    rw [segments, if_pos hunfinished, List.append_nil]
  rcases ofOutcomes_cases (source.file.getD "<string>") (readAll source tokens) with
    ⟨ss, hss, hos⟩ | ⟨ds, -, -, hos⟩
  · obtain rfl := Except.ok.inj (h.symm.trans hos)
    rw [← hsegments, ← readAll_eq_map]
    exact ⟨hunfinished, rfl, hss⟩
  · cases h.symm.trans hos

theorem map_ofTokens_chunks_of_eq_ok {p : Program} (h : ofTokens source tokens = .ok p) :
    (chunks tokens).map (ofTokens source) = p.statements.map fun s => .ok ⟨p.sourceName, [s]⟩ := by
  obtain ⟨-, hname, houtcomes⟩ := outcomes_of_eq_ok source h
  have hsegments : ∀ c ∈ chunks tokens, c ∈ segments tokens := fun c hc =>
    List.mem_append_left _ hc
  rw [map_ofTokens_segments source hsegments, houtcomes, List.map_map, hname]
  rfl

theorem map_ofTokens_bad_of_eq_error {ds : List Diagnostic}
    (h : ofTokens source tokens = .error ds) :
    ((chunks tokens).filter (fun c => !(ofTokens source c).isOk) ++
        if unfinished tokens = [] then [] else [unfinished tokens]).map (ofTokens source) =
      ds.map fun d => .error [d] := by
  rcases ofOutcomes_cases (source.file.getD "<string>") (readAll source tokens) with
    ⟨ss, -, hos⟩ | ⟨ds, -, hbad, hos⟩
  · cases h.symm.trans hos
  · obtain rfl := Except.error.inj (h.symm.trans hos)
    have hsegments : ((segments tokens).filter fun c => !(outcome source c).isOk).map
        (outcome source) = ds.map .error := by
      rw [← hbad, readAll_eq_map, List.filter_map]
      rfl
    rw [← filter_segments, map_ofTokens_segments source fun c hc => List.mem_of_mem_filter hc,
      hsegments, List.map_map]
    rfl

end Segments

/-- Tokens are read statement by statement: cut after every dot, each chunk has the outcome that
it has alone. -/
theorem ofTokens_statementwise (source : Source) (tokens : List Token) :
    (chunks tokens).flatten ++ unfinished tokens = tokens ∧
    (∀ c ∈ chunks tokens, IsChunk c) ∧
    Dotless (unfinished tokens) ∧
    -- the loop ends, whatever the limit
    (∀ limit, tokens.length ≤ limit →
      readUpTo source limit tokens = readAll source tokens) ∧
    (segments tokens).map (readAll source) = (readAll source tokens).map (fun o => [o]) ∧
    ((ofTokens source tokens).isOk ↔
      unfinished tokens = [] ∧ ∀ c ∈ chunks tokens, (ofTokens source c).isOk) ∧
    (∀ p, ofTokens source tokens = .ok p →
      (chunks tokens).map (ofTokens source) =
        p.statements.map fun s => .ok ⟨p.sourceName, [s]⟩) ∧
    (∀ ds, ofTokens source tokens = .error ds →
      ((chunks tokens).filter (fun c => !(ofTokens source c).isOk) ++
          if unfinished tokens = [] then [] else [unfinished tokens]).map (ofTokens source) =
        ds.map fun d => .error [d]) ∧
    -- spans apart, only the kinds of the tokens matter
    (∀ (source' : Source) (tokens' : List Token),
      tokens'.map Token.kind = tokens.map Token.kind →
        (readAll source' tokens').map unspannedOutcome =
          (readAll source tokens).map unspannedOutcome) := by
  refine ⟨flatten_chunks_append tokens, isChunk_of_mem_chunks tokens, dotless_unfinished tokens,
    fun limit h => ?_, ?_, isOk_ofTokens_iff source tokens,
    fun p h => map_ofTokens_chunks_of_eq_ok source h,
    fun ds h => map_ofTokens_bad_of_eq_error source h, fun source' tokens' h => ?_⟩
  · rw [readUpTo_eq_map source h, readAll_eq_map]
  · rw [readAll_eq_map, List.map_map]
    exact List.map_congr_left fun c hc => readAll_of_mem_segments source hc
  · have hlength : tokens'.length = tokens.length := by simpa using congrArg List.length h
    rw [readAll, hlength]
    exact unspanned_readUpTo source source' h _

example : (readAll ⟨[], none⟩ [⟨.identifier "a", 0, 1⟩, ⟨.dot, 1, 2⟩, ⟨.comma, 3, 4⟩, ⟨.dot, 4, 5⟩,
    ⟨.identifier "b", 6, 7⟩, ⟨.dot, 7, 8⟩, ⟨.identifier "c", 9, 10⟩]).map Except.isOk =
      [true, false, true, false] := by
  decide

end Program

end AnswerSetTest
