import AnswerSetTest.Ground.Selection
import AnswerSetTest.Proofs.Ground.Ascending
import AnswerSetTest.Proofs.Ground.Instance
import AnswerSetTest.Proofs.Ground.Substitution

/-!
# Selections

Terms without pools are their own only alternative, so rules and externals without pools are
selected as they stand.
-/

namespace AnswerSetTest

theorem product_map_singleton {α : Type} (xs : List α) : product (xs.map fun x => [x]) = [xs] := by
  induction xs with
  | nil => rfl
  | cons x xs ih => simp [product, ih]

namespace Term

theorem unpoolAll_of_forall {ts : List Term} (h : ∀ t ∈ ts, t.unpool = [t]) :
    unpoolAll ts = ts.map fun t => [t] := by
  induction ts with
  | nil => rw [unpoolAll, List.map_nil]
  | cons t ts ih =>
    obtain ⟨ht, hts⟩ := List.forall_mem_cons.1 h
    rw [unpoolAll, ht, ih hts, List.map_cons]

theorem unpool_plain {t : Term} (h : t.Plain) : t.unpool = [t] := by
  induction h with
  | number n => rw [unpool]
  | text s => rw [unpool]
  | «variable» v => rw [unpool]
  | function name _ ih =>
    rw [unpool, unpoolAll_of_forall ih, product_map_singleton, List.map_singleton]
  | interval _ _ ihl ihh => simp [unpool, ihl, ihh]

theorem flatMap_unpool {ts : List Term} (h : ∀ t ∈ ts, t.Plain) : ts.flatMap unpool = ts := by
  induction ts with
  | nil => rfl
  | cons t ts ih =>
    obtain ⟨ht, hts⟩ := List.forall_mem_cons.1 h
    rw [List.flatMap_cons, unpool_plain ht, ih hts, List.singleton_append]

end Term

theorem Head.unpool_plain {h : Head} (hplain : ∀ t, h.HasTerm t → t.Plain) : h.unpool = [h] := by
  cases h with
  | atom t =>
    have ht : t.unpool = [t] := Term.unpool_plain (hplain t (.atom t))
    rw [unpool, ht, List.map_singleton]
  | disjunction ts =>
    have hts : ts.flatMap Term.unpool = ts :=
      Term.flatMap_unpool fun t ht => hplain t (.disjunction ht)
    rw [unpool, hts]
  | choice ts =>
    have hts : ts.flatMap Term.unpool = ts := Term.flatMap_unpool fun t ht => hplain t (.choice ht)
    rw [unpool, hts]
  | falsity => rfl

theorem Literal.unpool_plain {l : Literal} (hplain : l.Plain) : l.unpool = [l] := by
  cases l with
  | atom negated t =>
    have ht : t.Plain := by
      cases negated with
      | false => exact Term.Pattern.plain hplain
      | true => exact hplain
    rw [unpool, Term.unpool_plain ht, List.map_singleton]
  | comparison left op right =>
    simp [unpool, Term.unpool_plain hplain.1, Term.unpool_plain hplain.2]
  | count elements op bound =>
    have helements : elements.flatMap Term.unpool = elements :=
      Term.flatMap_unpool fun t ht => (hplain.1 t ht).plain
    simp [unpool, helements, Term.unpool_plain hplain.2]

namespace Rule

variable {r : Rule}

theorem unpool_plain (hr : r.Plain) : r.unpool = [r] := by
  have hbody : r.body.map Literal.unpool = r.body.map fun l => [l] :=
    List.map_congr_left fun l hl => Literal.unpool_plain (hr.body l hl)
  simp [unpool, Head.unpool_plain hr.head, hbody, product_map_singleton]

end Rule

namespace Selection

theorem foldl_add_rules {rules : List Rule} (h : ∀ r ∈ rules, r.Plain) (s : Selection) :
    (rules.map .rule).foldl (add []) s = { s with rules := s.rules ++ rules } := by
  induction rules generalizing s with
  | nil => simp
  | cons r rules ih =>
    obtain ⟨hr, hrules⟩ := List.forall_mem_cons.1 h
    rw [List.map_cons, List.foldl_cons, add, Rule.substitute_of_fixes Substitution.fixes_nil,
      Rule.unpool_plain hr, ih hrules]
    simp

theorem foldl_add_externals {externals : List (Term × Span)} (h : ∀ e ∈ externals, e.1.Plain)
    (s : Selection) :
    (externals.map fun e => Statement.external e.1 e.2).foldl (add []) s =
      { s with externals := s.externals ++ externals } := by
  induction externals generalizing s with
  | nil => simp
  | cons e externals ih =>
    obtain ⟨he, hexternals⟩ := List.forall_mem_cons.1 h
    rw [List.map_cons, List.foldl_cons, add, Term.substituteAtom_of_fixes Substitution.fixes_nil,
      Term.unpool_plain he, ih hexternals]
    simp

end Selection

namespace Program

theorem withUnits_eq_map (current : String) {ss : List Statement} (h : ∀ d, .unit d ∉ ss) :
    withUnits current ss = ss.map fun s => (current, s) := by
  induction ss with
  | nil => rfl
  | cons s ss ih =>
    have hss : ∀ d, .unit d ∉ ss := fun d hd => h d (List.mem_cons_of_mem s hd)
    cases s with
    | unit d => exact absurd List.mem_cons_self (h d)
    | rule | external | showing | defined => rw [withUnits, ih hss, List.map_cons]; exact nofun

/-- Rules and externals without pools are selected from the root unit as they stand. -/
theorem select_plain (name : String) {rules : List Rule} {externals : List (Term × Span)}
    (hrules : ∀ r ∈ rules, r.Plain) (hexternals : ∀ e ∈ externals, e.1.Plain) :
    select ⟨name, rules.map .rule ++ externals.map fun e => .external e.1 e.2⟩
      [⟨rootUnit, []⟩] = .ok ⟨rules, externals, none⟩ := by
  let ss : List Statement := rules.map .rule ++ externals.map fun e => .external e.1 e.2
  have hparts : firstOccurrences [(⟨rootUnit, []⟩ : Part)] = [⟨rootUnit, []⟩] := by
    simp [firstOccurrences, firstOccurrencesFrom]
  have hunits : ∀ d, .unit d ∉ ss := by simp [ss]
  have hstatements : statementsOf ⟨name, ss⟩ rootUnit = ss := by
    rw [statementsOf, statementsByUnit, withUnits_eq_map rootUnit hunits]
    simp [List.filter_map, Function.comp_def]
  have hfold : ss.foldl (Selection.add []) .empty = ⟨rules, externals, none⟩ := by
    rw [List.foldl_append, Selection.foldl_add_rules hrules,
      Selection.foldl_add_externals hexternals]
    rfl
  have hpart : selectPart ⟨name, ss⟩ .empty ⟨rootUnit, []⟩ = .ok ⟨rules, externals, none⟩ := by
    rw [selectPart, parametersOf, if_pos rfl]
    dsimp only
    rw [hstatements, if_neg (by simp)]
    exact congrArg Except.ok hfold
  rw [select, hparts, List.foldlM_cons, hpart]
  rfl

end Program

end AnswerSetTest
