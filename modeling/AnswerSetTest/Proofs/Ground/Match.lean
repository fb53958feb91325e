import AnswerSetTest.Proofs.Ground.Matching
import AnswerSetTest.Proofs.Ground.Settling

/-!
# Matches

If each of its intervals can be read when it is reached, the matches of a rule are the least
bindings under which its positive literals stand for known atoms and its comparisons hold.
Otherwise there are none. Each step of the search keeps this for the literals and comparisons it
has dealt with.
-/

namespace AnswerSetTest

open Term (Evaluation under?)

namespace Constraint

structure Plain (c : Constraint) : Prop where
  left : c.left.Plain
  right : c.right.Plain

/-- A comparison holds if it does for some value of each side. -/
def Holds (c : Constraint) (b : Binding) : Prop :=
  ∃ ls rs, under? b c.left = some ls ∧ under? b c.right = some rs ∧
    ∃ l ∈ ls, ∃ r ∈ rs, c.op.Compares l r

theorem holdsBy_plain {c : Constraint} {b : Binding} : c.HoldsBy .plain b ↔ c.Holds b := Iff.rfl

theorem Plain.given {σ : Type} {answer : String → List Symbol → Evaluation σ Symbol}
    {c : Constraint} (hc : c.Plain) : c.Given .plain answer :=
  ⟨fun _ => Term.returns_eval hc.left, fun _ => Term.returns_eval hc.right⟩

end Constraint

/-- A named variable of terms or of comparisons. -/
def Occurs (ts : List Term) (cs : List Constraint) (v : String) : Prop :=
  (∃ t ∈ ts, v ∈ t.vars) ∨ ∃ c ∈ cs, c.Mentions v

/-- A variable of terms, or one whose value equations give. -/
def Determined (cs : List Constraint) (ts : List Term) : String → Prop :=
  Constraint.Determines cs fun v => ∃ t ∈ ts, v ∈ t.vars

/-- The terms stand for known atoms, and the comparisons hold. -/
structure Solves (V : Valuation) (known : List Symbol) (ts : List Term) (cs : List Constraint)
    (b : Binding) (ps : List Symbol) : Prop where
  stands : List.Forall₂ (Term.StandsFor b) ts ps
  known : ∀ s ∈ ps, s ∈ known
  holds : ∀ c ∈ cs, c.HoldsBy V b

/-- Literals without calls stand for known atoms, and comparisons hold unless they are undefined. -/
structure Attempts (V : Valuation) (known : List Symbol) (ts : List Term) (cs : List Constraint)
    (b : Binding) : Prop where
  named : b.get? "_" = none
  stands : ∀ t ∈ ts, t.hasCall = false → ∃ s ∈ known, t.StandsFor b s
  holds : ∀ c ∈ cs, c.HoldsBy V b ∨ c.Undefined V b

/-- The matches are solutions, and below every solution there is one of them. To find them, each
literal and comparison has been looked at, so that nothing else but the solutions may seem one. -/
structure Finds (V : Valuation) (known : List Symbol) (ts : List Term) (cs : List Constraint)
    (found : List Match) : Prop where
  solves : ∀ x ∈ found, Solves V known ts cs x.binding x.positives
  isSome_iff : ∀ x ∈ found, ∀ v, (x.binding.get? v).isSome ↔ Occurs ts cs v
  complete : ∀ b ps, b.get? "_" = none → Solves V known ts cs b ps →
    ∃ x ∈ found, x.binding ≤ b ∧ x.positives = ps
  solved : ∀ b, Attempts V known ts cs b → ∃ ps, Solves V known ts cs b ps

structure Matches.Covers (V : Valuation) (known : List Symbol) (ts : List Term)
    (cs : List Constraint) (ms : Matches) : Prop extends Finds V known ts cs ms.found where
  mem_bound : ∀ v, v ∈ ms.bound ↔ Occurs ts cs v
  determined : ∀ v ∈ ms.bound, Determined cs ts v

namespace Rule

/-- Each literal can be read when the terms `ts` and the literals before it have been matched. -/
def ReadableFrom (cs : List Constraint) (ts : List Term) : List Term → Prop
  | [] => True
  | u :: us => u.Readable (Determined cs ts) ∧ ReadableFrom cs (ts ++ [u]) us

/-- When an interval of a positive literal is reached, each variable that bounds it occurs in a
literal before or in an argument further left, or equations give its value. -/
def Readable (r : Rule) : Prop := ReadableFrom r.constraints [] r.positives

theorem readableFrom_of_pattern {us : List Term} (h : ∀ t ∈ us, t.Pattern) (cs : List Constraint)
    (ts : List Term) : ReadableFrom cs ts us := by
  induction us generalizing ts with
  | nil => trivial
  | cons u us ih =>
    obtain ⟨hu, hus⟩ := List.forall_mem_cons.1 h
    exact ⟨hu.readable _, ih hus _⟩

end Rule

variable {V : Valuation} {known : List Symbol} {ts us : List Term} {cs ds : List Constraint}
  {b b' : Binding} {ps : List Symbol} {v : String} {t : Term} {ms ms' : Matches}

theorem occurs_append : Occurs ts (ds ++ cs) v ↔ Occurs ts cs v ∨ ∃ c ∈ ds, c.Mentions v := by
  simp only [Occurs, List.mem_append]
  grind

theorem occurs_concat : Occurs (ts ++ [t]) cs v ↔ v ∈ t.vars ∨ Occurs ts cs v := by
  simp only [Occurs, List.mem_append, List.mem_singleton]
  grind

theorem Determined.mono (h : Determined ds ts v) (hds : ∀ c ∈ ds, c ∈ cs) (hts : ∀ t ∈ ts, t ∈ us) :
    Determined cs us v := by
  refine Constraint.Determines.bind h hds fun w hw => .known ?_
  obtain ⟨t, ht, hw⟩ := hw
  exact ⟨t, hts t ht, hw⟩

theorem Solves.mono (h : b ≤ b') (hb : Solves V known ts cs b ps) : Solves V known ts cs b' ps where
  stands := hb.stands.imp fun _ _ hm => hm.mono h
  known := hb.known
  holds c hc := (hb.holds c hc).mono h

theorem Solves.take (h : Solves V known (ts ++ us) cs b ps) :
    Solves V known ts cs b (ps.take ts.length) where
  stands := by
    have htake := List.forall₂_take ts.length h.stands
    rwa [List.take_left] at htake
  known s hs := h.known s (List.mem_of_mem_take hs)
  holds := h.holds

theorem Solves.congr (hcs : ∀ c, c ∈ ds ↔ c ∈ cs) (h : Solves V known ts cs b ps) :
    Solves V known ts ds b ps :=
  ⟨h.stands, h.known, fun c hc => h.holds c ((hcs c).1 hc)⟩

theorem Attempts.mono (h : Attempts V known us cs b) (hts : ∀ t ∈ ts, t ∈ us)
    (hcs : ∀ c ∈ ds, c ∈ cs) : Attempts V known ts ds b :=
  ⟨h.named, fun t ht => h.stands t (hts t ht), fun c hc => h.holds c (hcs c hc)⟩

theorem Finds.congr {found : List Match} (h : Finds V known ts cs found)
    (hcs : ∀ c, c ∈ ds ↔ c ∈ cs) : Finds V known ts ds found where
  solves x hx := (h.solves x hx).congr hcs
  isSome_iff x hx v := by
    rw [h.isSome_iff x hx v, Occurs, Occurs]
    simp only [hcs]
  complete b ps hb hs := h.complete b ps hb (hs.congr fun c => (hcs c).symm)
  solved b hb := by
    obtain ⟨ps, hps⟩ := h.solved b (hb.mono (fun _ ht => ht) fun c => (hcs c).2)
    exact ⟨ps, hps.congr hcs⟩

namespace Matches.Covers

theorem binds (h : Covers V known ts cs ms) : ms.Binds :=
  fun x hx v => (h.isSome_iff x hx v).trans (h.mem_bound v).symm

theorem initial : Covers V known [] [] ⟨[], [⟨.empty, []⟩]⟩ where
  solves x hx := by
    obtain rfl := List.mem_singleton.1 hx
    exact ⟨.nil, by simp, by simp⟩
  isSome_iff x hx v := by
    obtain rfl := List.mem_singleton.1 hx
    simp [Occurs]
  complete b ps _ hs := ⟨_, List.mem_singleton_self _, b.empty_le,
    (List.forall₂_nil_left_iff.1 hs.stands).symm⟩
  solved b _ := ⟨[], .nil, by simp, by simp⟩
  mem_bound v := by simp [Occurs]
  determined v hv := by simp at hv

theorem settle (h : Covers V known ts cs ms) (hs : ms.Settles V Binding.Named ds ms') :
    Covers V known ts (ds ++ cs) ms' := by
  have hbound : ∀ v, v ∈ ms'.bound ↔ Occurs ts (ds ++ cs) v := fun v => by
    rw [occurs_append, hs.mem_bound, h.mem_bound]
  refine { solves := fun y hy => ?_, isSome_iff := fun y hy v => ?_,
           complete := fun b ps hb hsol => ?_, solved := fun b hb => ?_, mem_bound := hbound,
           determined := fun v hv => ?_ }
  · obtain ⟨x, hx, hle, hps, hds⟩ := hs.solves y hy
    have hsol := (h.solves x hx).mono hle
    rw [hps]
    exact ⟨hsol.stands, hsol.known, List.forall_mem_append.2 ⟨hds, hsol.holds⟩⟩
  · rw [hs.binds y hy, hbound]
  · obtain ⟨hds, hcs⟩ := List.forall_mem_append.1 hsol.holds
    obtain ⟨x, hx, hle, rfl⟩ := h.complete b ps hb ⟨hsol.stands, hsol.known, hcs⟩
    exact hs.complete x hx b hle hb hds
  · obtain ⟨ps, hps⟩ := h.solved b (hb.mono (fun _ ht => ht) fun _ => List.mem_append_right ds)
    obtain ⟨x, hx, hle, -⟩ := h.complete b ps hb.named hps
    have hds := hs.defined x hx b hle hb.named fun c hc => hb.holds c (List.mem_append_left _ hc)
    exact ⟨ps, hps.stands, hps.known, List.forall_mem_append.2 ⟨hds, hps.holds⟩⟩
  · refine Constraint.Determines.bind (hs.determined v hv)
      (fun _ hc => List.mem_append_left _ hc) fun w hw => ?_
    exact (h.determined w hw).mono (fun _ hc => List.mem_append_right _ hc) fun _ ht => ht

theorem mem_extend {x y : Match} : y ∈ x.extend known t ↔
    ∃ s ∈ known, ∃ b, t.matchSymbol x.binding s = some b ∧ y = ⟨b, x.positives ++ [s]⟩ := by
  simp only [Match.extend, List.mem_filterMap, Option.map_eq_some_iff]
  grind

theorem extend (h : Covers V known ts cs ms) (ht : t.PoolFree) (hcall : t.hasCall = false)
    (hread : t.Readable (· ∈ ms.bound)) : Covers V known (ts ++ [t]) cs
      ⟨t.vars ++ ms.bound, ms.found.flatMap (Match.extend known t)⟩ := by
  refine { solves := fun y hy => ?_, isSome_iff := fun y hy v => ?_,
           complete := fun b ps hb hs => ?_, solved := fun b hb => ?_,
           mem_bound := fun v => ?_, determined := fun v hv => ?_ }
  · obtain ⟨x, hx, hy⟩ := List.mem_flatMap.1 hy
    obtain ⟨s, hs, b, hb, rfl⟩ := mem_extend.1 hy
    have hext := Term.matchSymbol_sound ht hb
    have hsol := (h.solves x hx).mono hext.le
    refine ⟨List.rel_append hsol.stands (.cons hext.stands .nil), ?_, hsol.holds⟩
    exact List.forall_mem_append.2 ⟨hsol.known, by simpa using hs⟩
  · obtain ⟨x, hx, hy⟩ := List.mem_flatMap.1 hy
    obtain ⟨s, hs, b, hb, rfl⟩ := mem_extend.1 hy
    rw [(Term.matchSymbol_sound ht hb).isSome_iff, h.isSome_iff x hx, occurs_concat, or_comm]
  · obtain ⟨x, hx, hle, hps⟩ := h.complete b _ hb hs.take
    have hdrop := List.forall₂_drop ts.length hs.stands
    rw [List.drop_left] at hdrop
    obtain ⟨s, ss, hm, hss, hlast⟩ := List.forall₂_cons_left_iff.1 hdrop
    rw [List.forall₂_nil_left_iff.1 hss] at hlast
    have hmem : s ∈ ps := List.mem_of_mem_drop (hlast ▸ List.mem_singleton_self s)
    obtain ⟨b', hb', hle'⟩ :=
      Term.matchSymbol_complete ht (fun v hv => (h.binds x hx v).2 hv) hread hle hm
    refine ⟨⟨b', x.positives ++ [s]⟩, List.mem_flatMap.2 ⟨x, hx, ?_⟩, hle', ?_⟩
    · exact mem_extend.2 ⟨s, hs.known s hmem, b', hb', rfl⟩
    · rw [hps, ← hlast]
      exact List.take_append_drop _ _
  · obtain ⟨ps, hps⟩ := h.solved b (hb.mono (fun _ => List.mem_append_left _) fun _ hc => hc)
    obtain ⟨s, hs, hstands⟩ := hb.stands t (by simp) hcall
    refine ⟨ps ++ [s], List.rel_append hps.stands (.cons hstands .nil), ?_, hps.holds⟩
    exact List.forall_mem_append.2 ⟨hps.known, by simpa using hs⟩
  · rw [List.mem_append, h.mem_bound, occurs_concat]
  · rcases List.mem_append.1 hv with hv | hv
    · exact .known ⟨t, by simp, hv⟩
    · exact (h.determined v hv).mono (fun _ hc => hc) fun u hu => by simp [hu]

theorem extend_eq_nil (h : Covers V known ts cs ms) (ht : t.PoolFree)
    (hread : ¬ t.Readable (· ∈ ms.bound)) :
    ms.found.flatMap (Match.extend known t) = [] := by
  refine List.eq_nil_iff_forall_not_mem.2 fun y hy => hread ?_
  obtain ⟨x, hx, hy⟩ := List.mem_flatMap.1 hy
  obtain ⟨s, -, b, hb, -⟩ := mem_extend.1 hy
  exact Term.readable_of_matchSymbol ht (fun v hv => (h.binds x hx v).1 hv) hb

theorem determined_iff (h : Covers V known ts ds ms) {all : List Constraint}
    (hwait : ∀ c ∈ cs, c.readiness ms.bound = .wait) (hall : (ds ++ cs).Perm all) (v : String) :
    Determined all ts v ↔ v ∈ ms.bound := by
  constructor
  · exact Constraint.Determines.mem_bound hall (fun w hw => (h.mem_bound w).2 (.inl hw))
      (fun c hc w hw => (h.mem_bound w).2 (.inr ⟨c, hc, hw⟩)) hwait
  · exact fun hv => (h.determined v hv).mono
      (fun c hc => hall.mem_iff.1 (List.mem_append_left _ hc)) fun _ ht => ht

end Matches.Covers

namespace Rule

section Search

variable {σ : Type} {answer : String → List Symbol → Evaluation σ Symbol} {all : List Constraint}

/-- The matches of readable literals are the least solutions, and there are none otherwise. -/
theorem returns_matchesFrom (h : ms.Covers V known ts ds)
    (hwait : ∀ c ∈ cs, c.readiness ms.bound = .wait) (hall : (ds ++ cs).Perm all)
    (hgiven : ∀ c ∈ all, c.Given V answer) (hus : ∀ t ∈ us, t.PoolFree) :
    Returns (matchesFrom answer known ms cs us) fun found =>
      (ReadableFrom all ts us → Finds V known (ts ++ us) all found) ∧
      (¬ ReadableFrom all ts us → found = []) := by
  induction us generalizing ts ds cs ms with
  | nil =>
    cases cs with
    | nil =>
      rw [matchesFrom]
      refine .of_pure ⟨fun _ => ?_, fun hread => absurd trivial hread⟩
      rw [List.append_nil] at hall ⊢
      exact h.congr fun c => hall.symm.mem_iff
    | cons c cs =>
      rw [matchesFrom]
      exact .of_throw
  | cons t us ih =>
    obtain ⟨ht, hus⟩ := List.forall_mem_cons.1 hus
    have hbound : Determined all ts = (· ∈ ms.bound) :=
      funext fun v => propext (h.determined_iff hwait hall v)
    have happend : ts ++ t :: us = ts ++ [t] ++ us := by simp
    rw [matchesFrom, happend, ReadableFrom, hbound]
    split
    · exact .of_throw
    · next hcall =>
      by_cases hread : t.Readable (· ∈ ms.bound)
      · have hextend := h.extend ht (Bool.eq_false_iff.2 hcall) hread
        simp only [hread, true_and]
        split
        · next hnone =>
          -- a solution of the whole body would be one of the literals up to this one
          rw [hnone] at hextend
          have hds : ∀ c ∈ ds, c ∈ all := fun c hc =>
            hall.mem_iff.1 (List.mem_append_left _ hc)
          refine .of_pure ⟨fun _ => ⟨by simp, by simp, fun b ps hb hs => ?_, fun b hb => ?_⟩,
            fun _ => rfl⟩
          · have hprefix : Solves V known (ts ++ [t]) ds b (ps.take (ts ++ [t]).length) :=
              ⟨hs.take.stands, hs.take.known, fun c hc => hs.holds c (hds c hc)⟩
            obtain ⟨x, hx, -⟩ := hextend.complete b _ hb hprefix
            cases hx
          · have hprefix := hb.mono (fun u => List.mem_append_left us) hds
            obtain ⟨ps, hps⟩ := hextend.solved b hprefix
            obtain ⟨x, hx, -⟩ := hextend.complete b ps hb.named hps
            cases hx
        · have hgivens : ∀ c ∈ cs, c.Given V answer :=
            fun c hc => hgiven c (hall.mem_iff.1 (List.mem_append_right _ hc))
          have hlocal : ∀ c ∈ cs, c.Local V Binding.Named := fun c _ => c.local_named V
          refine (Constraint.returns_settle hextend.binds hgivens hlocal).bind fun r hr => ?_
          obtain ⟨⟨ds', hsettles, hperm⟩, hwait'⟩ := hr
          refine ih (hextend.settle hsettles) hwait' ?_ hus
          refine List.Perm.trans ?_ hall
          rw [List.append_assoc]
          exact (List.perm_append_comm_assoc _ _ _).trans (hperm.append_left ds)
      · rw [h.extend_eq_nil ht hread]
        exact .of_pure ⟨fun hall => absurd hall.1 hread, fun _ => rfl⟩

theorem returns_findMatches {r : Rule} (hps : ∀ t ∈ r.positives, t.PoolFree)
    (hcs : ∀ c ∈ r.constraints, c.Given V answer) :
    Returns (r.findMatches answer known) fun found =>
      (r.Readable → Finds V known r.positives r.constraints found) ∧
      (¬ r.Readable → found = []) := by
  have hinitial : Matches.Covers V known [] [] ⟨[], [⟨.empty, []⟩]⟩ := .initial
  rw [findMatches]
  have hlocal : ∀ c ∈ r.constraints, c.Local V Binding.Named := fun c _ => c.local_named V
  refine (Constraint.returns_settle hinitial.binds hcs hlocal).bind fun s hs => ?_
  obtain ⟨⟨ds, hsettles, hperm⟩, hwait⟩ := hs
  have hcovers := hinitial.settle hsettles
  rw [List.append_nil] at hcovers
  exact returns_matchesFrom hcovers hwait hperm hcs hps

theorem returns_findMatches_plain {r : Rule} (hps : ∀ t ∈ r.positives, t.Pattern)
    (hcs : ∀ c ∈ r.constraints, c.Plain) :
    Returns (r.findMatches answer known) (Finds .plain known r.positives r.constraints) :=
  (returns_findMatches (fun t ht => (hps t ht).poolFree) fun c hc => (hcs c hc).given).mono
    fun _ hfound => hfound.1 (readableFrom_of_pattern hps _ _)

end Search

end Rule

end AnswerSetTest
