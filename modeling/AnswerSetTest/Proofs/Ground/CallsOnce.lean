import AnswerSetTest.Proofs.Ground.Transcript

/-!
# Calls are not repeated

Every round searches for all matches of all rules again. The matches that have been seen are left
out, and the answers to the calls of comparisons and count bounds are kept, so a transcript shows
each instance evaluated once and each such call made once.
-/

namespace AnswerSetTest

/-- Whenever `x` succeeds, the states before and after it are related. -/
def Leads {ε σ α : Type} (R : σ → σ → Prop) (x : ExceptT ε (StateM σ) α) : Prop :=
  ∀ s a t, x s = (.ok a, t) → R s t

theorem Leads.congruent {σ τ : Type} {R : τ → τ → Prop} (hrefl : ∀ s, R s s)
    (htrans : ∀ s t u, R s t → R t u → R s u) :
    Congruent fun {ε α} (_ : ExceptT ε (StateM σ) α) (y : ExceptT ε (StateM τ) α) => Leads R y where
  of_pure a s b t hrun := by
    cases hrun
    exact hrefl s
  of_throw e s b t hrun := by cases hrun
  bind {_ _ _ _ y f g} hy hg s b u hrun := by
    obtain ⟨a, t, ha, hb⟩ := Returns.bind_eq_ok hrun
    exact htrans s t u (hy s a t ha) (hg a t b u hb)
  adapt {_ _ _ _ _ _} hy s a t hrun := hy s a t (Returns.adapt_eq_ok hrun)

section Notes

/-- A search for matches has found a match of a rule. -/
def Found (notes : List Note) (y : Nat × Match) : Prop :=
  ∃ xs, Note.found y.1 xs ∈ notes ∧ y.2 ∈ xs

variable {notes ns : List Note} {k : Nat} {x : Match} {xs : List Match} {y : Nat × Match}

theorem found_append : Found (notes ++ ns) y ↔ Found notes y ∨ Found ns y := by
  constructor
  · rintro ⟨xs, hxs, hx⟩
    exact (List.mem_append.1 hxs).imp (fun h => ⟨xs, h, hx⟩) fun h => ⟨xs, h, hx⟩
  · rintro (⟨xs, hxs, hx⟩ | ⟨xs, hxs, hx⟩)
    · exact ⟨xs, List.mem_append_left ns hxs, hx⟩
    · exact ⟨xs, List.mem_append_right notes hxs, hx⟩

theorem found_singleton : Found [.found k xs] y ↔ y ∈ xs.map fun x => (k, x) := by
  obtain ⟨j, z⟩ := y
  constructor
  · rintro ⟨zs, hzs, hz⟩
    cases List.mem_singleton.1 hzs
    exact List.mem_map_of_mem hz
  · intro h
    obtain ⟨z, hz, heq⟩ := List.mem_map.1 h
    cases heq
    exact ⟨xs, List.mem_singleton.2 rfl, hz⟩

theorem found_append_of_calls (h : ∀ n ∈ ns, ∃ place, n.IsAt place) :
    Found (notes ++ ns) y ↔ Found notes y := by
  rw [found_append, or_iff_left]
  rintro ⟨xs, hxs, -⟩
  exact (h _ hxs).elim fun _ hplace => hplace

end Notes

namespace Grounding

variable {σ : Type} {handler : Handler σ}

section Calls

variable {α ε : Type} {S S' : Note → Prop}

def Adds (S : Note → Prop) (x : ExceptT ε (StateM (Scratch (σ × List Note))) α) : Prop :=
  Leads (fun s t => ∃ ns, t.world.2 = s.world.2 ++ ns ∧ ∀ n ∈ ns, S n) x

theorem Adds.congruent {τ : Type} (S : Note → Prop) :
    Congruent fun {ε α} (_ : ExceptT ε (StateM τ) α)
      (y : ExceptT ε (StateM (Scratch (σ × List Note))) α) => Adds S y := by
  apply Leads.congruent
  · exact fun s => ⟨[], (List.append_nil _).symm, by simp⟩
  · rintro s t u ⟨ns, hns, hall⟩ ⟨ms, hms, hall'⟩
    refine ⟨ns ++ ms, by rw [hms, hns, List.append_assoc], fun n hn => ?_⟩
    exact (List.mem_append.1 hn).elim (hall n) (hall' n)

theorem Adds.mono {x : ExceptT ε (StateM (Scratch (σ × List Note))) α} (h : Adds S x)
    (hS : ∀ n, S n → S' n) : Adds S' x := by
  intro s a t hrun
  obtain ⟨ns, hns, hall⟩ := h s a t hrun
  exact ⟨ns, hns, fun n hn => hS n (hall n hn)⟩

theorem adds_answer (place : Place) (name : String) (args : List Symbol) :
    Adds (Note.IsAt place) (answer (handler.noting place) name args) := by
  intro s a t hrun
  refine ⟨[.call place name args], ?_, fun n hn => by rw [List.mem_singleton.1 hn]; rfl⟩
  have hnotes : (((handler.noting place).call name args).run s.world).2.2 =
      s.world.2 ++ [.call place name args] := rfl
  cases hcall : ((handler.noting place).call name args).run s.world with
  | mk r w =>
    rw [hcall] at hnotes
    cases r with
    | ok value =>
      rw [answer_of_ok hcall] at hrun
      cases hrun
      exact hnotes
    | error message =>
      rw [answer_of_error hcall] at hrun
      cases hrun

theorem adds_answerOnce (place : Place) (k : Nat) (name : String) (args : List Symbol) :
    Adds (Note.IsAt place) (answerOnce (handler.noting place) k name args) := by
  intro s a t hrun
  cases hs : s.answers[(⟨k, name, args⟩ : CallKey)]? with
  | some value =>
    rw [answerOnce_of_some hs] at hrun
    cases hrun
    exact ⟨[], (List.append_nil _).symm, by simp⟩
  | none =>
    rw [answerOnce_of_none hs] at hrun
    obtain ⟨value, u, hcall, hrest⟩ := Returns.bind_eq_ok hrun
    cases hrest
    exact adds_answer place name args s a u hcall

theorem adds_findMatches (k : Nat) (known : List Symbol) (r : Rule) :
    Adds (Note.IsAt (.shared k))
      (r.findMatches (answerOnce (handler.noting (.shared k)) k) known) :=
  @Congruent.findMatches (Scratch (σ × List Note)) (Scratch (σ × List Note)) _
    (answerOnce (handler.noting (.shared k)) k) (answerOnce (handler.noting (.shared k)) k)
    (Adds.congruent _) (adds_answerOnce (.shared k) k) known r

theorem adds_ofMatch (k : Nat) (r : Rule) (x : Match) :
    Adds (fun n => n.IsAt (.own k x) ∨ n.IsAt (.shared k))
      (Instance.ofMatch (answer (handler.noting (.own k x)))
        (answerOnce (handler.noting (.shared k)) k) r x) :=
  @Congruent.ofMatch (Scratch (σ × List Note)) (Scratch (σ × List Note)) _
    (answer (handler.noting (.own k x))) (answerOnce (handler.noting (.shared k)) k)
    (answer (handler.noting (.own k x))) (answerOnce (handler.noting (.shared k)) k)
    (Adds.congruent _)
    (fun name args => (adds_answer (.own k x) name args).mono fun _ h => .inl h)
    (fun name args => (adds_answerOnce (.shared k) k name args).mono fun _ h => .inr h) r x

theorem adds_externals (before : List Symbol) (es : List (Term × Span)) :
    Adds (Note.IsAt .external) (externals (handler.noting .external) before es) :=
  @Congruent.externals (σ × List Note) (σ × List Note) (handler.noting .external)
    (handler.noting .external) _ (Adds.congruent _) (adds_answer .external) before es

end Calls

section Instances

/-- A match has an instance whose evaluation made `during`, and no call of it was made before or
after that. -/
def EvaluatedOnce (handler : Handler σ) (rules : List Rule) (notes : List Note)
    (y : Nat × Match) : Prop :=
  ∃ r before during after w answers i u, rules[y.1]? = some r ∧
    notes = before ++ during ++ after ∧
    Instance.ofMatch (answer (handler.noting (.own y.1 y.2)))
      (answerOnce (handler.noting (.shared y.1)) y.1) r y.2 ⟨(w, before), answers⟩ = (.ok i, u) ∧
    u.world.2 = before ++ during ∧
    ∀ n ∈ before ++ after, ¬ n.IsAt (.own y.1 y.2)

/-- What the notes say of the matches that have been seen, and of those that have been found and are
still to be gone through. -/
structure Noted (handler : Handler σ) (rules : List Rule) (seen : Std.HashSet (Nat × Match))
    (pending : List (Nat × Match)) (notes : List Note) : Prop where
  evaluated : ∀ y ∈ seen, EvaluatedOnce handler rules notes y
  seen_of_call : ∀ y, ∀ n ∈ notes, n.IsAt (.own y.1 y.2) → y ∈ seen
  found_iff : ∀ y, Found notes y ↔ y ∈ seen ∨ y ∈ pending

variable {rules : List Rule} {known : List Symbol} {p p' : Progress} {notes ns : List Note}
  {seen : Std.HashSet (Nat × Match)} {y : Nat × Match} {pending pending' : List (Nat × Match)}
  {k : Nat} {r : Rule} {x : Match} {s t : Scratch (σ × List Note)}

theorem EvaluatedOnce.append (h : EvaluatedOnce handler rules notes y)
    (hns : ∀ n ∈ ns, ¬ n.IsAt (.own y.1 y.2)) : EvaluatedOnce handler rules (notes ++ ns) y := by
  obtain ⟨r, before, during, after, w, answers, i, u, hr, rfl, hrun, hu, hother⟩ := h
  refine ⟨r, before, during, after ++ ns, w, answers, i, u, hr, List.append_assoc .., hrun, hu, ?_⟩
  intro n hn
  rw [← List.append_assoc] at hn
  exact (List.mem_append.1 hn).elim (hother n) (hns n)

theorem Noted.append (h : Noted handler rules seen pending notes)
    (hown : ∀ n ∈ ns, ∀ j z, ¬ n.IsAt (.own j z))
    (hfound : ∀ y, Found ns y ∨ y ∈ seen ∨ y ∈ pending ↔ y ∈ seen ∨ y ∈ pending') :
    Noted handler rules seen pending' (notes ++ ns) where
  evaluated y hy := (h.evaluated y hy).append fun n hn => hown n hn y.1 y.2
  seen_of_call y n hn hcall := by
    rcases List.mem_append.1 hn with hn | hn
    · exact h.seen_of_call y n hn hcall
    · exact absurd hcall (hown n hn y.1 y.2)
  found_iff y := by rw [found_append, h.found_iff, ← hfound, or_comm]

theorem Noted.append_calls (h : Noted handler rules seen pending notes) {place : Place}
    (hns : ∀ n ∈ ns, n.IsAt place) (hplace : ∀ j z, place ≠ .own j z) :
    Noted handler rules seen pending (notes ++ ns) := by
  have hnone : ∀ y, ¬ Found ns y := fun y ⟨xs, hxs, _⟩ => hns _ hxs
  refine h.append (fun n hn j z hcall => ?_) fun y => by simp [hnone]
  cases n with
  | call place' name args =>
    have hplace' : place' = place := hns _ hn
    exact hplace j z (hplace'.symm.trans hcall)
  | found j xs => exact hcall

theorem Noted.push (h : Noted handler rules seen ((k, x) :: pending) s.world.2)
    (hr : rules[k]? = some r) (hnew : (k, x) ∉ seen) {i : Instance}
    (hrun : Instance.ofMatch (answer (handler.noting (.own k x)))
      (answerOnce (handler.noting (.shared k)) k) r x s = (.ok i, t)) :
    Noted handler rules (seen.insert (k, x)) pending t.world.2 := by
  obtain ⟨ns, hnotes, hns⟩ := adds_ofMatch k r x s i t hrun
  have hown : ∀ n ∈ ns, ∀ y : Nat × Match, n.IsAt (.own y.1 y.2) → y = (k, x) := by
    rintro (⟨place, name, args⟩ | ⟨j, xs⟩) hn ⟨j', z⟩ hcall
    · rcases hns _ hn with hplace | hplace
      · cases hplace.symm.trans hcall
        rfl
      · cases hplace.symm.trans hcall
    · exact hcall.elim
  have hcalls : ∀ n ∈ ns, ∃ place, n.IsAt place := fun n hn =>
    (hns n hn).elim (fun hplace => ⟨_, hplace⟩) fun hplace => ⟨_, hplace⟩
  rw [hnotes]
  constructor
  · intro y hy
    by_cases heq : y = (k, x)
    · obtain rfl := heq
      refine ⟨r, s.world.2, ns, [], s.world.1, s.answers, i, t, hr, (List.append_nil _).symm, hrun,
        hnotes, fun n hn hcall => ?_⟩
      rw [List.append_nil] at hn
      exact hnew (h.seen_of_call _ n hn hcall)
    · have hy' : y ∈ seen := by
        rcases Std.HashSet.mem_insert.1 hy with hkx | hy'
        · exact absurd (eq_of_beq hkx).symm heq
        · exact hy'
      exact (h.evaluated y hy').append fun n hn hcall => heq (hown n hn y hcall)
  · intro y n hn hcall
    rw [Std.HashSet.mem_insert]
    rcases List.mem_append.1 hn with hn | hn
    · exact .inr (h.seen_of_call y n hn hcall)
    · exact .inl (beq_iff_eq.2 (hown n hn y hcall).symm)
  · intro y
    rw [found_append_of_calls hcalls, h.found_iff, Std.HashSet.mem_insert, List.mem_cons,
      beq_iff_eq]
    constructor
    · rintro (hy | rfl | hy)
      · exact .inl (.inr hy)
      · exact .inl (.inl rfl)
      · exact .inr hy
    · rintro ((rfl | hy) | hy)
      · exact .inr (.inl rfl)
      · exact .inl hy
      · exact .inr (.inr hy)

theorem Noted.skip (h : Noted handler rules seen ((k, x) :: pending) notes) (hx : (k, x) ∈ seen) :
    Noted handler rules seen pending notes where
  evaluated := h.evaluated
  seen_of_call := h.seen_of_call
  found_iff y := by
    rw [h.found_iff, List.mem_cons]
    constructor
    · rintro (hy | rfl | hy)
      · exact .inl hy
      · exact .inl hx
      · exact .inr hy
    · exact fun hy => hy.imp_right .inr

theorem noted_transcribeMatches (hr : rules[k]? = some r) {xs : List Match}
    (h : Noted handler rules p.seen (xs.map fun x => (k, x)) s.world.2)
    (hrun : transcribeMatches handler r k p xs s = (.ok p', t)) :
    Noted handler rules p'.seen [] t.world.2 := by
  induction xs generalizing p s with
  | nil =>
    cases hrun
    exact h
  | cons x xs ih =>
    rw [transcribeMatches] at hrun
    split at hrun
    · next hcontains => exact ih (h.skip hcontains) hrun
    · next hcontains =>
      obtain ⟨i, u, hi, hrest⟩ := Returns.bind_eq_ok hrun
      exact ih (h.push hr hcontains (locate_eq_ok hi)) hrest

theorem noted_transcribeRule {rule : Rule × Nat} (hr : rules[rule.2]? = some rule.1)
    (h : Noted handler rules p.seen [] s.world.2)
    (hrun : transcribeRule handler known p rule s = (.ok p', t)) :
    Noted handler rules p'.seen [] t.world.2 := by
  rw [transcribeRule] at hrun
  obtain ⟨found, u, hfind, hrun⟩ := Returns.bind_eq_ok hrun
  obtain ⟨⟨⟩, v, hnote, hrun⟩ := Returns.bind_eq_ok hrun
  cases hnote
  obtain ⟨ns, hnotes, hns⟩ := adds_findMatches rule.2 known rule.1 s found u (locate_eq_ok hfind)
  have hfound := h.append_calls hns (by simp)
  rw [← hnotes] at hfound
  have hown : ∀ n ∈ [Note.found rule.2 found], ∀ j z, ¬ n.IsAt (.own j z) := by
    intro n hn j z hcall
    cases List.mem_singleton.1 hn
    exact hcall
  refine noted_transcribeMatches hr (hfound.append hown fun y => ?_) hrun
  rw [found_singleton]
  simp [or_comm]

theorem noted_foldlM {qs : List (Rule × Nat)} (hqs : ∀ q ∈ qs, rules[q.2]? = some q.1)
    (h : Noted handler rules p.seen [] s.world.2)
    (hrun : qs.foldlM (transcribeRule handler known) p s = (.ok p', t)) :
    Noted handler rules p'.seen [] t.world.2 := by
  induction qs generalizing p s with
  | nil =>
    cases hrun
    exact h
  | cons q qs ih =>
    obtain ⟨hq, hqs⟩ := List.forall_mem_cons.1 hqs
    rw [List.foldlM_cons] at hrun
    obtain ⟨p₁, u, hfirst, hrest⟩ := Returns.bind_eq_ok hrun
    exact ih hqs (noted_transcribeRule hq h hfirst) hrest

theorem noted_transcribeUpTo {limit : Nat} {result : List Symbol × Array Instance}
    (h : Noted handler rules p.seen [] s.world.2)
    (hrun : transcribeUpTo handler rules known p limit s = (.ok result, t)) :
    ∃ seen, Noted handler rules seen [] t.world.2 := by
  induction limit generalizing known p s with
  | zero => cases hrun
  | succ limit ih =>
    rw [transcribeUpTo] at hrun
    obtain ⟨p₁, u, hround, hrest⟩ := Returns.bind_eq_ok hrun
    have hnoted := noted_foldlM (p := { p with derived := [] })
      (fun q hq => List.mem_zipIdx_iff_getElem?.1 hq) h hround
    dsimp only at hrest
    split at hrest
    · cases hrest
    · split at hrest
      · cases hrest
        exact ⟨_, hnoted⟩
      · exact ih hnoted hrest

theorem noted_transcribe {selection : Selection} {w : σ} {result : List Symbol × Array Instance}
    (hrun : transcribe handler selection ⟨(w, []), ∅⟩ = (.ok result, t)) :
    ∃ seen, Noted handler selection.rules seen [] t.world.2 := by
  obtain ⟨known, u, hexternals, hrest⟩ := Returns.bind_eq_ok hrun
  obtain ⟨ns, hnotes, hns⟩ := adds_externals [] selection.externals _ known u hexternals
  have hempty : Noted handler selection.rules (∅ : Std.HashSet (Nat × Match)) [] [] := by
    constructor <;> simp [Found]
  have hnoted := hempty.append_calls hns (by simp)
  rw [← show u.world.2 = [] ++ ns from hnotes] at hnoted
  exact noted_transcribeUpTo hnoted hrest

end Instances

section Shared

/-- The calls noted for comparisons and count bounds are distinct, and their answers are kept. -/
def SharedOnce (s : Scratch (σ × List Note)) : Prop :=
  (s.world.2.filterMap Note.shared?).Nodup ∧
    ∀ key ∈ s.world.2.filterMap Note.shared?, key ∈ s.answers

variable {s t : Scratch (σ × List Note)}

theorem SharedOnce.of_eq (h : SharedOnce s)
    (hnotes : t.world.2.filterMap Note.shared? = s.world.2.filterMap Note.shared?)
    (hanswers : t.answers = s.answers) : SharedOnce t := by
  rwa [SharedOnce, hnotes, hanswers]

theorem SharedOnce.insert (h : SharedOnce s) {key : CallKey} (hkey : key ∉ s.answers)
    {value : Symbol} (hnotes : t.world.2.filterMap Note.shared? =
      s.world.2.filterMap Note.shared? ++ [key])
    (hanswers : t.answers = s.answers.insert key value) : SharedOnce t := by
  obtain ⟨hnodup, hkept⟩ := h
  rw [SharedOnce, hnotes, hanswers]
  constructor
  · refine hnodup.append (List.nodup_singleton key) ?_
    rw [List.disjoint_singleton]
    exact fun hmem => hkey (hkept key hmem)
  · intro key' hmem
    rw [Std.HashMap.mem_insert]
    rcases List.mem_append.1 hmem with hmem | hmem
    · exact .inr (hkept key' hmem)
    · exact .inl (beq_iff_eq.2 (List.mem_singleton.1 hmem).symm)

/-- Calls elsewhere, and what searches find, do not count. -/
theorem sharedOnce_answer {place : Place} (hplace : ∀ name args,
    Note.shared? (.call place name args) = none) (name : String) (args : List Symbol) :
    Leads (fun s t => SharedOnce s → SharedOnce t)
      (answer (handler.noting place) name args) := by
  intro s a t hrun h
  obtain ⟨ns, hnotes, hns⟩ := adds_answer place name args s a t hrun
  have hanswers := answers_answer (h := handler.noting place) name args s
  rw [hrun] at hanswers
  have hnone : ns.filterMap Note.shared? = [] := by
    rw [List.filterMap_eq_nil_iff]
    rintro (⟨place', name', args'⟩ | _) hn
    · exact (hns _ hn : place' = place) ▸ hplace name' args'
    · rfl
  refine h.of_eq ?_ hanswers
  rw [hnotes, List.filterMap_append, hnone, List.append_nil]

theorem sharedOnce_answerOnce (k : Nat) (name : String) (args : List Symbol) :
    Leads (fun s t => SharedOnce s → SharedOnce t)
      (answerOnce (handler.noting (.shared k)) k name args) := by
  intro s a t hrun h
  obtain ⟨value, -, hkept⟩ | ⟨hs, ⟨message, w, -, hfail⟩ | ⟨value, w, hcall, hok⟩⟩ :=
    answerOnce_cases (h := handler.noting (.shared k)) k name args s
  · cases hkept.symm.trans hrun
    exact h
  · cases hfail.symm.trans hrun
  · cases hok.symm.trans hrun
    have hnotes : w.2 = s.world.2 ++ [.call (.shared k) name args] := by
      rw [← show (((handler.noting (.shared k)).call name args).run s.world).2 = w from
        congrArg Prod.snd hcall]
      rfl
    refine h.insert (by simp [Std.HashMap.mem_iff_isSome_getElem?, hs]) (t := ⟨w, _⟩) ?_ rfl
    change w.2.filterMap Note.shared? = _
    rw [hnotes, List.filterMap_append]
    rfl

theorem sharedOnce_transcribe (selection : Selection) :
    Leads (fun s t => SharedOnce s → SharedOnce t) (transcribe handler selection) := by
  have hcongruent : Congruent fun {ε α} (_ : ExceptT ε (StateM (Scratch σ)) α)
      (y : ExceptT ε (StateM (Scratch (σ × List Note))) α) =>
      Leads (fun s t => SharedOnce s → SharedOnce t) y :=
    Leads.congruent (fun _ h => h) fun _ _ _ h h' hs => h' (h hs)
  have hnote : ∀ rule xs, Leads (fun s t => SharedOnce s → SharedOnce t)
      (note (.found rule xs) : Grounding (σ × List Note) Unit) := by
    intro rule xs s a t hrun h
    cases hrun
    refine h.of_eq ?_ rfl
    change (s.world.2 ++ [Note.found rule xs]).filterMap Note.shared? = _
    rw [List.filterMap_append]
    exact List.append_nil _
  exact @Congruent.transcribe σ σ handler handler _ hcongruent
    (sharedOnce_answer fun _ _ => rfl) (fun _ _ => sharedOnce_answer fun _ _ => rfl)
    sharedOnce_answerOnce hnote selection

end Shared

/-- A transcript of a grounding that succeeds shows that no call is made in vain. The calls in the
head and the negative literals of a rule are those of one evaluation for each match that is found,
however often it is found. The calls in the comparisons and count bounds of a rule are distinct. -/
theorem ofSelection_calls_once {handler : Handler σ} {selection : Selection} {w : σ}
    {result : List Symbol × Array Instance} {t : Scratch σ}
    (h : ofSelection handler selection ⟨w, ∅⟩ = (.ok result, t)) :
    ∃ notes, transcribe handler selection ⟨(w, []), ∅⟩ =
        (.ok result, ⟨(t.world, notes), t.answers⟩) ∧
      ofSelection handler.recorded selection ⟨(w, []), ∅⟩ =
        (.ok result, ⟨(t.world, notes.filterMap Note.event?), t.answers⟩) ∧
      (∀ y, Found notes y → EvaluatedOnce handler selection.rules notes y) ∧
      (∀ y, ∀ n ∈ notes, n.IsAt (.own y.1 y.2) → Found notes y) ∧
      (notes.filterMap Note.shared?).Nodup := by
  obtain ⟨notes, htranscribe, hrecorded⟩ := transcribe_of_run h
  obtain ⟨seen, hnoted⟩ := noted_transcribe htranscribe
  have hempty : SharedOnce (⟨(w, []), ∅⟩ : Scratch (σ × List Note)) := by simp [SharedOnce]
  have hshared := sharedOnce_transcribe selection _ _ _ htranscribe hempty
  refine ⟨notes, htranscribe, hrecorded, fun y hy => ?_, fun y n hn hcall => ?_, hshared.1⟩
  · exact hnoted.evaluated y (((hnoted.found_iff y).1 hy).resolve_right List.not_mem_nil)
  · exact (hnoted.found_iff y).2 (.inl (hnoted.seen_of_call y n hn hcall))

/-!
The fact `a(@count)`, with a handler that answers every call with the number of calls before it.
-/

namespace Sample

def counting : Handler Nat where
  call _ _ := fun n => (.ok (.number (.ofNat n)), n + 1)
  rule _ _ _ := pure ()
  output _ _ := pure ()

def countFact : Rule := ⟨.atom (.function "a" [.call "count" []]), [], default⟩

def countAtom : Symbol := .function "a" [.number 0]

theorem ofSelection_countFact : ofSelection counting ⟨[countFact], [], none⟩ ⟨0, ∅⟩ =
    (.ok ([countAtom], #[⟨.normal, [countAtom], [], [], []⟩]), ⟨1, ∅⟩) :=
  ofSelection_single (x := ⟨.empty, []⟩) rfl rfl rfl rfl

end Sample

/-- Both rounds find the match of the fact, and its call is made in the first. -/
theorem ofSelection_calls_once_sample :
    let selection : Selection := ⟨[Sample.countFact], [], none⟩
    ofSelection Sample.counting selection ⟨0, ∅⟩ = (.ok ([Sample.countAtom],
      #[⟨.normal, [Sample.countAtom], [], [], []⟩]), ⟨1, ∅⟩) ∧
      ∃ notes, ofSelection Sample.counting.recorded selection ⟨(0, []), ∅⟩ =
          (.ok ([Sample.countAtom], #[⟨.normal, [Sample.countAtom], [], [], []⟩]),
            ⟨(1, notes.filterMap Note.event?), ∅⟩) ∧
        (∀ y, Found notes y → EvaluatedOnce Sample.counting selection.rules notes y) ∧
        (notes.filterMap Note.shared?).Nodup := by
  obtain ⟨notes, -, hrecorded, hfound, -, hshared⟩ :=
    ofSelection_calls_once Sample.ofSelection_countFact
  exact ⟨Sample.ofSelection_countFact, notes, hrecorded, hfound, hshared⟩

end Grounding

end AnswerSetTest
