import AnswerSetTest.Proofs.Syntax.Ranges
import AnswerSetTest.Proofs.Syntax.Spacing
import AnswerSetTest.Proofs.Syntax.Spans

/-!
# Slices of a text

Between two tokens a text can be cut without changing what its pieces are: the pieces behind the
cut do not know what stood before it, and a token ends where the text ends, whatever followed it.
So the text from one token to another has just the tokens in between, and the text of a statement
is a program of that statement.
-/

namespace AnswerSetTest

namespace Piece

variable {cs : List Char} {offset : Nat} {ps qs : List (Nat × Piece)}

def text (ps : List (Nat × Piece)) : List Char := ps.flatMap fun p => p.2.taken

theorem text_append (ps qs : List (Nat × Piece)) : text (ps ++ qs) = text ps ++ text qs :=
  List.flatMap_append

theorem text_cons (p : Nat × Piece) (ps : List (Nat × Piece)) :
    text (p :: ps) = p.2.taken ++ text ps :=
  List.flatMap_cons

theorem text_singleton (p : Nat × Piece) : text [p] = p.2.taken :=
  List.flatMap_singleton ..

theorem exists_behind (h : all cs.length offset cs = ps ++ qs) :
    ∃ post, cs = text ps ++ post ∧ all post.length (offset + byteSize (text ps)) post = qs := by
  induction cs using text_induction generalizing offset ps with
  | nil =>
    obtain ⟨rfl, rfl⟩ := List.append_eq_nil_iff.1 h.symm
    exact ⟨[], rfl, rfl⟩
  | cut c body rest outcome hread _ ih =>
    cases ps with
    | nil => exact ⟨_, rfl, h⟩
    | cons p ps =>
      rw [all_cut hread, List.cons_append, List.cons.injEq] at h
      obtain ⟨rfl, hrest⟩ := h
      obtain ⟨post, hpost, hall⟩ := ih hrest
      refine ⟨post, ?_, ?_⟩
      · rw [text_cons, List.append_assoc, ← hpost, List.cons_append]
      · rw [text_cons, byteSize_append, ← Nat.add_assoc]
        exact hall

theorem offset_eq {q : Nat × Piece} (h : all cs.length offset cs = ps ++ q :: qs) :
    q.1 = offset + byteSize (text ps) := by
  obtain ⟨post, -, hall⟩ := exists_behind h
  cases post with
  | nil => cases hall
  | cons c post =>
    rw [List.length_cons, all, List.cons.injEq] at hall
    rw [← hall.1]

/-- A text that ends with a token has the same pieces up to there, whatever stood behind it. -/
theorem outcomes_text {q : Nat × Piece} {kind : Token.Kind} (hq : q.2.outcome = .token kind)
    (hok : ∀ p ∈ ps, ∀ problem, p.2.outcome ≠ .fault problem)
    (h : all cs.length offset cs = ps ++ q :: qs) :
    outcomes (text (ps ++ [q])) = (ps ++ [q]).map fun p => p.2.outcome := by
  induction cs using text_induction generalizing offset ps with
  | nil => exact absurd h.symm (by simp [all])
  | cut c body rest outcome hread hcut ih =>
    rw [all_cut hread] at h
    cases ps with
    | nil =>
      rw [List.nil_append, List.cons.injEq] at h
      obtain ⟨rfl, -⟩ := h
      -- no text behind a token goes on with it
      simp only at hq
      subst hq
      cases hcut with
      | token hend =>
        have houtcomes := outcomes_cut (hend [] (.inr fun d hd => by cases hd))
        rw [List.append_nil] at houtcomes
        rw [List.nil_append, text_singleton, houtcomes]
        rfl
    | cons p ps =>
      rw [List.cons_append, List.cons.injEq] at h
      obtain ⟨rfl, hrest⟩ := h
      rw [List.forall_mem_cons] at hok
      have hpieces := ih hok.2 hrest
      have hne : text (ps ++ [q]) ≠ [] := by
        intro hnil
        rw [hnil] at hpieces
        simp [outcomes, all] at hpieces
      -- what stood behind the first piece still begins alike
      have hhead : (text (ps ++ [q])).head? = rest.head? := by
        rw [List.append_cons] at hrest
        obtain ⟨post, hpost, -⟩ := exists_behind hrest
        rw [hpost, List.head?_append_of_ne_nil _ hne]
      have hread' := hcut.read_append hok.1 (fun _ => hhead) (.inl hhead)
      rw [List.cons_append, text_cons, List.cons_append, outcomes_cut hread', hpieces]
      rfl

end Piece

namespace Token

open Octets Piece

variable {source : Source} {first last : Token} {before chunk behind : List Token}

theorem map_kind_tokens (ps : List (Nat × Piece)) :
    (ps.filterMap tokenAt).map Token.kind =
      (ps.map fun p => p.2.outcome).filterMap kind? := by
  rw [List.map_filterMap, List.filterMap_map]
  congr 1
  funext p
  cases h : p.2.outcome <;> simp [h, kind?, tokenAt]

/-- Tokens in a row are those of pieces in a row, the first and the last of which are the first
and the last of the tokens. -/
theorem exists_pieces (all : List (Nat × Piece))
    (h : all.filterMap tokenAt = before ++ (chunk ++ behind))
    (hfirst : chunk.head? = some first) (hlast : chunk.getLast? = some last) :
    ∃ ps p inner q rest, all = ps ++ p :: rest ∧ tokenAt p = some first ∧
      ∃ qs, p :: rest = inner ++ q :: qs ∧ tokenAt q = some last ∧
        (inner ++ [q]).filterMap tokenAt = chunk := by
  obtain ⟨ps₁, rest₁, rfl, -, hrest₁⟩ := List.filterMap_eq_append_iff.1 h
  obtain ⟨chunk', rfl⟩ := List.head?_eq_some_iff.1 hfirst
  rw [List.cons_append] at hrest₁
  obtain ⟨ps₂, p, rest, rfl, -, hp, hrest⟩ := List.filterMap_eq_cons_iff.1 hrest₁
  obtain ⟨body, hbody⟩ := List.getLast?_eq_some_iff.1 hlast
  have hrun : (p :: rest).filterMap tokenAt = body ++ last :: behind := by
    rw [List.filterMap_cons_some hp, hrest, ← List.cons_append, hbody, List.append_assoc,
      List.singleton_append]
  obtain ⟨inner₁, rest₃, hinner, hbody', hrest₃⟩ := List.filterMap_eq_append_iff.1 hrun
  obtain ⟨inner₂, q, qs, rfl, hblank, hq, -⟩ := List.filterMap_eq_cons_iff.1 hrest₃
  refine ⟨ps₁ ++ ps₂, p, inner₁ ++ inner₂, q, rest, ?_, hp, qs, ?_, hq, ?_⟩
  · rw [List.append_assoc]
  · rw [hinner, List.append_assoc]
  · rw [List.filterMap_append, List.filterMap_append, hbody',
      List.filterMap_eq_nil_iff.2 hblank, List.append_nil, List.filterMap_cons_some hq, hbody]
    rfl

theorem exists_slice (h : scan source = .ok (before ++ (chunk ++ behind)))
    (hfirst : chunk.head? = some first) (hlast : chunk.getLast? = some last) :
    ∃ pre slice post, source.chars = pre ++ (slice ++ post) ∧ byteSize pre = first.start ∧
      byteSize pre + byteSize slice = last.stop ∧
      ∀ file, ∃ ts, scan ⟨slice, file⟩ = .ok ts ∧ ts.map Token.kind = chunk.map Token.kind := by
  obtain ⟨hok, htokens⟩ := scan_eq_ok_iff.1 h
  obtain ⟨ps, p, inner, q, rest, hpieces, hp, qs, hrun, hq, hchunk⟩ :=
    exists_pieces (pieces source) htokens.symm hfirst hlast
  obtain ⟨-, hstart, -⟩ := tokenAt_eq_some_iff.1 hp
  obtain ⟨hkind, -, hstop⟩ := tokenAt_eq_some_iff.1 hq
  obtain ⟨tail, hsource, htail⟩ := exists_behind hpieces
  rw [hrun] at htail
  have hqstart := offset_eq htail
  have hok' : ∀ r ∈ inner ++ [q], ∀ problem, r.2.outcome ≠ .fault problem := by
    intro r hr
    have hmem : r ∈ pieces source := by
      rw [hpieces, hrun, List.append_cons inner]
      exact List.mem_append_right _ (List.mem_append_left _ hr)
    exact hok _ (List.mem_map_of_mem (f := fun p : Nat × Piece => p.2.outcome) hmem)
  have houtcomes := outcomes_text hkind (fun r hr => hok' r (List.mem_append_left _ hr)) htail
  rw [List.append_cons] at htail
  obtain ⟨post, hslice, -⟩ := exists_behind htail
  refine ⟨text ps, text (inner ++ [q]), post, ?_, ?_, ?_, fun file => ?_⟩
  · rw [hsource, hslice]
  · rw [hstart, offset_eq hpieces, Nat.zero_add]
  · rw [hstop, hqstart, text_append, text_singleton, byteSize_append, Nat.zero_add, Nat.add_assoc]
  · refine ⟨tokens ⟨text (inner ++ [q]), file⟩, scan_eq_ok_iff.2 ⟨?_, rfl⟩, ?_⟩
    · rw [houtcomes, List.forall_mem_map]
      exact hok'
    · rw [kinds_tokens, houtcomes, ← map_kind_tokens, hchunk]

theorem start_lt_stop {t : Token} (h : t ∈ tokens source) : t.start < t.stop := by
  obtain ⟨p, hp, -, hstart, hstop⟩ := mem_tokens_iff.1 h
  obtain ⟨-, -, -, hne, -⟩ := Piece.exists_of_mem_all hp
  have hpos := byteSize_pos hne
  omega

theorem start_first_lt_stop_last (h : chunk <:+: tokens source) (hfirst : chunk.head? = some first)
    (hlast : chunk.getLast? = some last) : first.start < last.stop := by
  have hordered := (pairwise_tokens source).sublist h.sublist
  have hmem := List.mem_of_getLast? hlast
  obtain ⟨rest, rfl⟩ := List.head?_eq_some_iff.1 hfirst
  have hrange : ∀ t ∈ first :: rest, t.start < t.stop := fun t ht => start_lt_stop (h.subset ht)
  have hstart := hrange first List.mem_cons_self
  rcases List.mem_cons.1 hmem with rfl | hrest
  · exact hstart
  · have hapart := (List.pairwise_cons.1 hordered).1 last hrest
    have hstop := hrange last hmem
    omega

theorem exists_of_mem_chunks {tokens : List Token} (h : chunk ∈ chunks tokens) :
    ∃ before behind, tokens = before ++ (chunk ++ behind) := by
  obtain ⟨ls, rs, hchunks⟩ := List.append_of_mem h
  refine ⟨ls.flatten, rs.flatten ++ unfinished tokens, ?_⟩
  conv_lhs => rw [← flatten_chunks_append tokens, hchunks]
  rw [List.flatten_append, List.flatten_cons, List.append_assoc, List.append_assoc]

end Token

namespace Program

open Token Statement

variable {source : Source} {tokens chunk : List Token} {statement : Statement} {p : Program}

/-- A statement that a chunk is read as has the span from its first to its last token. -/
theorem exists_ends (hscan : scan source = .ok tokens) (hchunk : chunk ∈ chunks tokens)
    (h : outcome source chunk = .ok statement) :
    ∃ first last, chunk.head? = some first ∧ chunk.getLast? = some last ∧
      first.start < last.stop ∧ statement.span = Span.locate source first.start last.stop := by
  obtain ⟨-, rfl⟩ := scan_eq_ok_iff.1 hscan
  obtain ⟨before, behind, htokens⟩ := exists_of_mem_chunks hchunk
  have hinfix : chunk <:+: Token.tokens source :=
    ⟨before, behind, by rw [htokens, List.append_assoc]⟩
  obtain ⟨body, dot, hbody, hdotless, hdot⟩ := isChunk_of_mem_chunks _ chunk hchunk
  have hrest : (next source chunk).2 = [] := by
    rw [hbody]
    exact (next_chunk source hdotless hdot []).2.2
  have hlast : chunk.getLast? = some dot := by rw [hbody, List.getLast?_concat]
  obtain ⟨first, rest, rfl⟩ := List.exists_cons_of_ne_nil (l := chunk) (by simp [hbody])
  have hlt := start_first_lt_stop_last hinfix rfl hlast
  exact ⟨first, dot, rfl, hlast, hlt, span_of_outcome h hrest hlast hlt.le⟩

theorem exists_chunk (h : ofTokens source tokens = .ok p) (hs : statement ∈ p.statements) :
    ∃ chunk ∈ chunks tokens, outcome source chunk = .ok statement := by
  rw [statements_eq h, List.mem_filterMap] at hs
  obtain ⟨chunk, hchunk, hout⟩ := hs
  exact ⟨chunk, hchunk, toOption_outcome_eq_some_iff.1 hout⟩

theorem pairwise_spans (hscan : scan source = .ok tokens) (h : ofTokens source tokens = .ok p) :
    p.statements.Pairwise fun s t => s.span.stop ≤ t.span.start := by
  have htokens := (scan_eq_ok_iff.1 hscan).2
  have hordered := pairwise_tokens source
  rw [← htokens, ← flatten_chunks_append tokens, (outcomes_of_eq_ok source h).1, List.append_nil,
    List.pairwise_flatten] at hordered
  rw [statements_eq h, List.pairwise_filterMap]
  apply hordered.2.imp_of_mem
  intro c d hc hd hcd s hs t ht
  obtain ⟨_, last, -, hlast, -, hspan⟩ := exists_ends hscan hc (toOption_outcome_eq_some_iff.1 hs)
  obtain ⟨first, _, hfirst, -, -, hspan'⟩ :=
    exists_ends hscan hd (toOption_outcome_eq_some_iff.1 ht)
  rw [hspan, hspan']
  exact hcd last (List.mem_of_getLast? hlast) first (List.mem_of_head? hfirst)

theorem ofTokens_of_kinds (hchunk : chunk ∈ chunks tokens)
    (h : outcome source chunk = .ok statement) (source' : Source) {ts : List Token}
    (hkinds : ts.map Token.kind = chunk.map Token.kind) :
    ∃ statement', ofTokens source' ts = .ok ⟨source'.file.getD "<string>", [statement']⟩ ∧
      statement'.unspanned = statement.unspanned := by
  have hlength : ts.length = chunk.length := by simpa using congrArg List.length hkinds
  have hchunkAlone := readAll_of_mem_segments source (List.mem_append_left _ hchunk)
  have hread : (readAll source' ts).map unspannedOutcome = [.ok statement.unspanned] := by
    rw [readAll, hlength, unspanned_readUpTo source source' hkinds, ← readAll, hchunkAlone, h]
    rfl
  obtain ⟨result, hresult, hsame⟩ := List.map_eq_singleton_iff.1 hread
  cases result with
  | error d => cases hsame
  | ok statement' =>
    refine ⟨statement', ?_, Except.ok.inj hsame⟩
    rw [ofTokens, hresult]
    rfl

section Text

variable {text : String} {file : Option String}

theorem valid_span (hscan : scan ⟨text.toList, file⟩ = .ok tokens)
    (h : ofTokens ⟨text.toList, file⟩ tokens = .ok p) (hs : statement ∈ p.statements) :
    statement.span.start < statement.span.stop ∧ statement.span.stop ≤ text.utf8ByteSize ∧
      (⟨statement.span.start⟩ : String.Pos.Raw).IsValid text ∧
      (⟨statement.span.stop⟩ : String.Pos.Raw).IsValid text ∧
      statement.span =
        Span.locate ⟨text.toList, file⟩ statement.span.start statement.span.stop := by
  obtain ⟨chunk, hchunk, hout⟩ := exists_chunk h hs
  obtain ⟨first, last, hfirst, hlast, hlt, hspan⟩ := exists_ends hscan hchunk hout
  obtain ⟨before, behind, hrun⟩ := exists_of_mem_chunks hchunk
  have hmem : ∀ t ∈ chunk, t ∈ Token.tokens ⟨text.toList, file⟩ := by
    intro t ht
    rw [← (scan_eq_ok_iff.1 hscan).2, hrun]
    exact List.mem_append_right _ (List.mem_append_left _ ht)
  obtain ⟨-, -, hstart, -⟩ := range_of_mem_tokens (hmem first (List.mem_of_head? hfirst))
  obtain ⟨-, hle, -, hstop⟩ := range_of_mem_tokens (hmem last (List.mem_of_getLast? hlast))
  rw [hspan]
  exact ⟨hlt, hle, hstart, hstop, rfl⟩

theorem parse_eq_ok_iff : parse text file = .ok p ↔
    ∃ tokens, scan ⟨text.toList, file⟩ = .ok tokens ∧
      ofTokens ⟨text.toList, file⟩ tokens = .ok p := by
  cases h : scan ⟨text.toList, file⟩ with
  | ok tokens =>
    simp only [parse, h, Except.ok.injEq, exists_eq_left']
    exact Iff.rfl
  | error ds =>
    simp only [parse, h, reduceCtorEq, false_and, exists_false, iff_false]
    intro hparse
    cases hparse

/-- The text in the span of a statement is a program of this statement. -/
theorem exists_parse_slice (hscan : scan ⟨text.toList, file⟩ = .ok tokens)
    (h : ofTokens ⟨text.toList, file⟩ tokens = .ok p) (hs : statement ∈ p.statements) :
    ∃ pre slice post : String, text = pre ++ slice ++ post ∧
      pre.utf8ByteSize = statement.span.start ∧
      (pre ++ slice).utf8ByteSize = statement.span.stop ∧
      ∀ file', ∃ s', parse slice file' = .ok ⟨file'.getD "<string>", [s']⟩ ∧
        s'.unspanned = statement.unspanned := by
  obtain ⟨chunk, hchunk, hout⟩ := exists_chunk h hs
  obtain ⟨first, last, hfirst, hlast, -, hspan⟩ := exists_ends hscan hchunk hout
  obtain ⟨before, behind, hrun⟩ := exists_of_mem_chunks hchunk
  rw [hrun] at hscan
  obtain ⟨pre, slice, post, htext, hstart, hstop, hslice⟩ := exists_slice hscan hfirst hlast
  refine ⟨String.ofList pre, String.ofList slice, String.ofList post, ?_, ?_, ?_, ?_⟩
  · rw [← String.ofList_append, ← String.ofList_append, List.append_assoc, ← htext,
      String.ofList_toList]
  · rw [utf8ByteSize_ofList, hstart, hspan]
    rfl
  · rw [← String.ofList_append, utf8ByteSize_ofList, byteSize_append, hstop, hspan]
    rfl
  · intro file'
    obtain ⟨ts, hts, hkinds⟩ := hslice file'
    obtain ⟨s', hs', hsame⟩ := ofTokens_of_kinds hchunk hout ⟨slice, file'⟩ hkinds
    refine ⟨s', parse_eq_ok_iff.2 ⟨ts, ?_, ?_⟩, hsame⟩
    · rw [String.toList_ofList, hts]
    · rw [String.toList_ofList, hs']

/-- The spans of the statements of a text cut it: they are not empty and lie in the text, between
characters, one behind the other, and the text of each is a program of just that statement, up to
spans. -/
theorem parse_spans (h : parse text file = .ok p) :
    (∀ s ∈ p.statements, s.span.start < s.span.stop ∧ s.span.stop ≤ text.utf8ByteSize ∧
      (⟨s.span.start⟩ : String.Pos.Raw).IsValid text ∧
      (⟨s.span.stop⟩ : String.Pos.Raw).IsValid text ∧
      s.span = Span.locate ⟨text.toList, file⟩ s.span.start s.span.stop) ∧
    p.statements.Pairwise (fun s t => s.span.stop ≤ t.span.start) ∧
    ∀ s ∈ p.statements, ∃ pre slice post : String, text = pre ++ slice ++ post ∧
      pre.utf8ByteSize = s.span.start ∧ (pre ++ slice).utf8ByteSize = s.span.stop ∧
      ∀ file', ∃ s', parse slice file' = .ok ⟨file'.getD "<string>", [s']⟩ ∧
        s'.unspanned = s.unspanned := by
  obtain ⟨tokens, hscan, htokens⟩ := parse_eq_ok_iff.1 h
  constructor
  · intro s hs
    exact valid_span hscan htokens hs
  · constructor
    · exact pairwise_spans hscan htokens
    · intro s hs
      exact exists_parse_slice hscan htokens hs

end Text

theorem parse_spans_comment :
    parse "p(\"é\"). % q.\n#show p/1." none = .ok ⟨"<string>",
      [.rule ⟨.atom (.function "p" [.text "é"]), [], ⟨0, 8, 1, 1, none⟩⟩,
        .showing (some ⟨"p", 1⟩) ⟨14, 24, 2, 1, none⟩]⟩ ∧
    ∃ pre slice post, "p(\"é\"). % q.\n#show p/1." = pre ++ slice ++ post ∧
      pre.utf8ByteSize = 14 ∧ (pre ++ slice).utf8ByteSize = 24 ∧
      ∃ s, parse slice none = .ok ⟨"<string>", [s]⟩ ∧
        s.unspanned = .showing (some ⟨"p", 1⟩) default := by
  have hparse : parse "p(\"é\"). % q.\n#show p/1." none = .ok ⟨"<string>",
      [.rule ⟨.atom (.function "p" [.text "é"]), [], ⟨0, 8, 1, 1, none⟩⟩,
        .showing (some ⟨"p", 1⟩) ⟨14, 24, 2, 1, none⟩]⟩ := rfl
  obtain ⟨-, -, hslice⟩ := parse_spans hparse
  obtain ⟨pre, slice, post, htext, hstart, hstop, hread⟩ :=
    hslice _ (List.mem_cons_of_mem _ List.mem_cons_self)
  exact ⟨hparse, pre, slice, post, htext, hstart, hstop, hread none⟩

end Program

end AnswerSetTest
