import AnswerSetTest.Syntax.Token

/-!
# Segments of tokens

Tokens are cut after every dot into chunks, each of which ends with its only dot, and what stands
behind the last dot.
-/

namespace AnswerSetTest

namespace Token

/-- Cuts tokens after every dot into chunks and what stands behind the last dot. -/
def cut : List Token → List (List Token) × List Token
  | [] => ([], [])
  | t :: ts =>
    if t.kind = .dot then ([t] :: (cut ts).1, (cut ts).2)
    else match cut ts with
      | ([], rest) => ([], t :: rest)
      | (c :: chunks, rest) => ((t :: c) :: chunks, rest)

def chunks (tokens : List Token) : List (List Token) := (cut tokens).1

/-- The tokens behind the last dot. -/
def unfinished (tokens : List Token) : List Token := (cut tokens).2

def Dotless (tokens : List Token) : Prop := ∀ t ∈ tokens, t.kind ≠ .dot

/-- Tokens of which the last and no other is a dot. -/
def IsChunk (tokens : List Token) : Prop :=
  ∃ body dot, tokens = body ++ [dot] ∧ Dotless body ∧ dot.kind = .dot

theorem Dotless.of_cons {t : Token} {ts : List Token} (h : Dotless (t :: ts)) :
    t.kind ≠ .dot ∧ Dotless ts :=
  List.forall_mem_cons.1 h

theorem cut_of_dotless {ts : List Token} (h : Dotless ts) : cut ts = ([], ts) := by
  induction ts with
  | nil => rfl
  | cons t ts ih => rw [cut, if_neg h.of_cons.1, ih h.of_cons.2]

theorem cut_append {body : List Token} (hbody : Dotless body) {dot : Token}
    (hdot : dot.kind = .dot) (ts : List Token) :
    cut (body ++ dot :: ts) = ((body ++ [dot]) :: chunks ts, unfinished ts) := by
  induction body with
  | nil => rw [List.nil_append, cut, if_pos hdot]; rfl
  | cons t body ih => rw [List.cons_append, cut, if_neg hbody.of_cons.1, ih hbody.of_cons.2]; rfl

theorem cut_induction {P : List Token → Prop} (rest : ∀ ts, Dotless ts → P ts)
    (chunk : ∀ body dot ts, Dotless body → dot.kind = .dot → P ts → P (body ++ dot :: ts))
    (tokens : List Token) : P tokens := by
  -- the tokens before the next dot are collected in `body`
  suffices h : ∀ body, Dotless body → P (body ++ tokens) from h [] (by simp [Dotless])
  induction tokens with
  | nil => simpa using rest
  | cons t ts ih =>
    intro body hbody
    by_cases hdot : t.kind = .dot
    · exact chunk body t ts hbody hdot (ih [] (by simp [Dotless]))
    · rw [List.append_cons]
      refine ih (body ++ [t]) fun u hu => ?_
      rcases List.mem_append.1 hu with hu | hu
      · exact hbody u hu
      · exact List.mem_singleton.1 hu ▸ hdot

theorem flatten_chunks_append (tokens : List Token) :
    (chunks tokens).flatten ++ unfinished tokens = tokens := by
  induction tokens using cut_induction with
  | rest ts h => simp only [chunks, unfinished, cut_of_dotless h, List.flatten_nil, List.nil_append]
  | chunk body dot ts hbody hdot ih =>
    rw [chunks, unfinished, cut_append hbody hdot, List.flatten_cons, List.append_assoc, ih,
      List.append_assoc, List.singleton_append]

theorem isChunk_of_mem_chunks (tokens : List Token) : ∀ c ∈ chunks tokens, IsChunk c := by
  induction tokens using cut_induction with
  | rest ts h => simp only [chunks, cut_of_dotless h, List.not_mem_nil, false_implies, implies_true]
  | chunk body dot ts hbody hdot ih =>
    rw [chunks, cut_append hbody hdot]
    exact List.forall_mem_cons.2 ⟨⟨body, dot, rfl, hbody, hdot⟩, ih⟩

/-- The chunks, and what stands behind the last dot, if anything does. -/
def segments (tokens : List Token) : List (List Token) :=
  chunks tokens ++ if unfinished tokens = [] then [] else [unfinished tokens]

theorem segments_of_dotless {ts : List Token} (h : Dotless ts) (hne : ts ≠ []) :
    segments ts = [ts] := by
  rw [segments, chunks, unfinished, cut_of_dotless h, if_neg hne, List.nil_append]

theorem segments_append {body : List Token} (hbody : Dotless body) {dot : Token}
    (hdot : dot.kind = .dot) (ts : List Token) :
    segments (body ++ dot :: ts) = (body ++ [dot]) :: segments ts := by
  rw [segments, chunks, unfinished, cut_append hbody hdot, List.cons_append, segments]

theorem dotless_unfinished (tokens : List Token) : Dotless (unfinished tokens) := by
  induction tokens using cut_induction with
  | rest ts h => rwa [unfinished, cut_of_dotless h]
  | chunk body dot ts hbody hdot ih => rwa [unfinished, cut_append hbody hdot]

theorem segments_of_mem_segments {tokens c : List Token} (h : c ∈ segments tokens) :
    segments c = [c] := by
  rcases List.mem_append.1 h with h | h
  · obtain ⟨body, dot, rfl, hbody, hdot⟩ := isChunk_of_mem_chunks tokens c h
    rw [segments_append hbody hdot]
    rfl
  · split at h
    · exact absurd h List.not_mem_nil
    · next hne =>
      obtain rfl := List.mem_singleton.1 h
      exact segments_of_dotless (dotless_unfinished tokens) hne

end Token

end AnswerSetTest
