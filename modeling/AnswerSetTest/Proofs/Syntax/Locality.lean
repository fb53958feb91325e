import AnswerSetTest.Proofs.Syntax.Display

/-!
# Readings of longer texts

A term is read alike when more tokens follow it, unless these go on with it: an opening parenthesis
behind a name, or the dots of an interval. Within a reading this matters at the last token only,
for a reading that stops before the end has seen the token at which it stops.
-/

namespace AnswerSetTest

open Sides (bind_apply bind_eq_of_ok take?_of_eq take?_of_ne separatedUpTo_eq)

namespace Reading

variable {α β : Type} {x y : Reading α} {f g : α → Reading β} {s : Source} {c d : Cursor}

theorem bind_eq_ok {b : β} (h : (x >>= f) s c = (.ok b, d)) :
    ∃ a e, x s c = (.ok a, e) ∧ f a s e = (.ok b, d) := by
  rw [bind_apply] at h
  split at h
  · next a e hx => exact ⟨a, e, hx, h⟩
  · cases h

/-- A reading that gives no result at the end of the tokens. -/
def Needs (x : Reading α) : Prop := ∀ s last a d, x s ⟨last, []⟩ ≠ (.ok a, d)

theorem Needs.bind (h : Needs x) (f : α → Reading β) : Needs (x >>= f) := by
  intro s last b d hrun
  obtain ⟨a, e, hx, -⟩ := bind_eq_ok hrun
  exact h s last a e hx

theorem needs_unexpected (what : String) : Needs (unexpected what : Reading α) :=
  fun _ _ _ _ hrun => by cases hrun

theorem needs_expect (kind : Token.Kind) (what : String) : Needs (expect kind what) :=
  fun _ _ _ _ hrun => by cases hrun

theorem needs_separated {sep : Reading Bool} (h : Needs x) : Needs (separated sep x) := by
  intro s last as d hrun
  have hzero : (x >>= fun a => pure [a] : Reading (List α)) s ⟨last, []⟩ = (.ok as, d) := hrun
  exact h.bind _ s last as d hzero

/-- Nothing of these kinds stands first. -/
def Clear (kinds : List Token.Kind) (tail : List Token) : Prop := ∀ t ∈ tail.head?, t.kind ∉ kinds

/-- If `x` gives a result from the tokens `ts`, so does `y` with more tokens behind them, and both
leave the same of `ts`. If `x` has read all of `ts`, what follows must not go on with one of
`kinds`. -/
def Extends (ts : List Token) (kinds : List Token.Kind) (x y : Reading α) : Prop :=
  ∀ s last a d, x s ⟨last, ts⟩ = (.ok a, d) → d.rest <:+ ts ∧
    ∀ s' last' tail, (d.rest = [] → Clear kinds tail) →
      ∃ last'', y s' ⟨last', ts ++ tail⟩ = (.ok a, ⟨last'', d.rest ++ tail⟩)

variable {ts : List Token} {kinds kinds' : List Token.Kind}

namespace Extends

theorem of_pure (a : α) : Extends ts kinds (pure a) (pure a) := by
  intro s last b d hrun
  cases hrun
  exact ⟨List.suffix_rfl, fun _ last' _ _ => ⟨last', rfl⟩⟩

theorem of_needs (h : Needs x) : Extends [] kinds x y :=
  fun s last a d hrun => absurd hrun (h s last a d)

theorem of_unexpected (what : String) : Extends ts kinds (unexpected what : Reading α) y := by
  intro s last a d hrun
  cases ts <;> cases hrun

theorem mono (h : Extends ts kinds x y) (hsub : kinds ⊆ kinds') : Extends ts kinds' x y := by
  intro s last a d hrun
  obtain ⟨hsuffix, hy⟩ := h s last a d hrun
  refine ⟨hsuffix, fun s' last' tail htail => hy s' last' tail fun hd t ht hk => ?_⟩
  exact htail hd t ht (hsub hk)

theorem bind (hx : Extends ts kinds x y) (hf : ∀ a us, us <:+ ts → Extends us kinds (f a) (g a)) :
    Extends ts kinds (x >>= f) (y >>= g) := by
  intro s last b d hrun
  obtain ⟨a, e, ha, hb⟩ := bind_eq_ok hrun
  obtain ⟨hsuffix, hy⟩ := hx s last a e ha
  obtain ⟨hsuffix', hg⟩ := hf a e.rest hsuffix s e.last b d hb
  refine ⟨hsuffix'.trans hsuffix, fun s' last' tail htail => ?_⟩
  have he : e.rest = [] → Clear kinds tail := fun he =>
    htail (List.suffix_nil.1 (he ▸ hsuffix'))
  obtain ⟨last₁, hy'⟩ := hy s' last' tail he
  rw [bind_eq_of_ok hy']
  exact hg s' last₁ tail htail

/-- If there has to be a token behind `x`, then what follows all tokens does not matter to `x`. -/
theorem bind_of_needs (hx : Extends ts kinds' x y) (hneeds : ∀ a, Needs (f a))
    (hf : ∀ a us, us <:+ ts → Extends us kinds (f a) (g a)) :
    Extends ts kinds (x >>= f) (y >>= g) := by
  intro s last b d hrun
  obtain ⟨a, e, ha, hb⟩ := bind_eq_ok hrun
  obtain ⟨hsuffix, hy⟩ := hx s last a e ha
  obtain ⟨hsuffix', hg⟩ := hf a e.rest hsuffix s e.last b d hb
  refine ⟨hsuffix'.trans hsuffix, fun s' last' tail htail => ?_⟩
  have he : e.rest ≠ [] := by
    intro he
    obtain ⟨last₁, rest⟩ := e
    subst he
    exact hneeds a s last₁ b d hb
  obtain ⟨last₁, hy'⟩ := hy s' last' tail fun hnil => absurd hnil he
  rw [bind_eq_of_ok hy']
  exact hg s' last₁ tail htail

theorem next {f g : Option Token.Kind → Reading α} (hneeds : Needs (f none))
    (h : ∀ t us, ts = t :: us → Extends ts kinds (f (some t.kind)) (g (some t.kind))) :
    Extends ts kinds (next? >>= f) (next? >>= g) := by
  cases ts with
  | nil => exact of_needs fun s last a d hrun => hneeds s last a d hrun
  | cons t us => exact fun s last a d hrun => h t us rfl s last a d hrun

theorem advance {t : Token} {us : List Token} {f g : Unit → Reading α}
    (h : Extends us kinds (f ()) (g ())) :
    Extends (t :: us) kinds (advance >>= f) (advance >>= g) := by
  intro s last a d hrun
  obtain ⟨hsuffix, hy⟩ := h s (some t) a d hrun
  exact ⟨hsuffix.trans (List.suffix_cons t us), fun s' _ tail htail => hy s' (some t) tail htail⟩

/-- A test of the next token. At the end of the tokens it fails, so that the next one behind must
not be of that kind, if the reading can end there. -/
theorem take? {kind : Token.Kind} {f g : Bool → Reading α} (hkind : kind ∈ kinds ∨ Needs (f false))
    (htrue : ∀ t us, ts = t :: us → Extends us kinds (f true) (g true))
    (hfalse : Extends ts kinds (f false) (g false)) :
    Extends ts kinds (Reading.take? kind >>= f) (Reading.take? kind >>= g) := by
  intro s last a d hrun
  cases ts with
  | nil =>
    have hrun' : f false s ⟨last, []⟩ = (.ok a, d) := hrun
    obtain ⟨hsuffix, hy⟩ := hfalse s last a d hrun'
    refine ⟨hsuffix, fun s' last' tail htail => ?_⟩
    rcases hkind with hkind | hneeds
    · obtain ⟨last'', hy'⟩ := hy s' last' tail htail
      refine ⟨last'', ?_⟩
      cases tail with
      | nil => exact hy'
      | cons t tail =>
        have ht : t.kind ≠ kind := fun ht =>
          htail (List.suffix_nil.1 hsuffix) t rfl (ht ▸ hkind)
        rw [List.nil_append, bind_eq_of_ok (take?_of_ne s' last' tail ht)]
        exact hy'
    · exact absurd hrun' (hneeds s last a d)
  | cons t us =>
    by_cases ht : t.kind = kind
    · rw [bind_eq_of_ok (take?_of_eq s last us ht)] at hrun
      obtain ⟨hsuffix, hy⟩ := htrue t us rfl s (some t) a d hrun
      refine ⟨hsuffix.trans (List.suffix_cons t us), fun s' last' tail htail => ?_⟩
      rw [List.cons_append, bind_eq_of_ok (take?_of_eq s' last' _ ht)]
      exact hy s' (some t) tail htail
    · rw [bind_eq_of_ok (take?_of_ne s last us ht)] at hrun
      obtain ⟨hsuffix, hy⟩ := hfalse s last a d hrun
      refine ⟨hsuffix, fun s' last' tail htail => ?_⟩
      rw [List.cons_append, bind_eq_of_ok (take?_of_ne s' last' _ ht)]
      exact hy s' last' tail htail

theorem expect (kind : Token.Kind) (what : String) :
    Extends ts kinds (Reading.expect kind what) (Reading.expect kind what) :=
  take? (.inr (needs_unexpected what)) (fun _ _ _ => of_pure ()) (of_unexpected what)

variable {kind : Token.Kind}

theorem separatedUpTo (hkind : kind ∈ kinds) (hneeds : Needs x)
    (h : ∀ us, us <:+ ts → Extends us kinds x y) {n n' : Nat} (hn : ts.length ≤ n) (hn' : n ≤ n') :
    Extends ts kinds (separatedUpTo (Reading.take? kind) x n)
      (separatedUpTo (Reading.take? kind) y n') := by
  induction n generalizing ts n' with
  | zero =>
    obtain rfl := List.eq_nil_of_length_eq_zero (Nat.le_zero.1 hn)
    rw [separatedUpTo_eq]
    exact of_needs (hneeds.bind _)
  | succ n ih =>
    obtain ⟨m, rfl⟩ := Nat.exists_eq_add_one_of_ne_zero (Nat.ne_zero_of_lt hn')
    rw [separatedUpTo_eq, separatedUpTo_eq]
    refine (h ts List.suffix_rfl).bind fun a us hus => ?_
    refine take? (.inl hkind) (fun t vs hvs => ?_) (of_pure [a])
    subst hvs
    have hlength : vs.length ≤ n := by
      have hle := hus.length_le
      rw [List.length_cons] at hle
      omega
    refine (ih (fun ws hws => h ws ?_) hlength (by omega)).bind fun as _ _ => of_pure (a :: as)
    exact hws.trans ((List.suffix_cons t vs).trans hus)

/-- The limit on the number of items is larger with more tokens behind. -/
theorem separated (hkind : kind ∈ kinds) (hneeds : Needs x)
    (h : ∀ us, us <:+ ts → Extends us kinds x y) :
    Extends ts kinds (separated (Reading.take? kind) x) (separated (Reading.take? kind) y) := by
  intro s last as d hrun
  have hall : ∀ n', ts.length ≤ n' →
      Extends ts kinds (Reading.separatedUpTo (Reading.take? kind) x ts.length)
        (Reading.separatedUpTo (Reading.take? kind) y n') :=
    fun n' hn' => separatedUpTo hkind hneeds h (Nat.le_refl _) hn'
  refine ⟨(hall _ (Nat.le_refl _) s last as d hrun).1, fun s' last' tail htail => ?_⟩
  have hlength : ts.length ≤ (ts ++ tail).length := by
    rw [List.length_append]
    omega
  exact (hall _ hlength s last as d hrun).2 s' last' tail htail

end Extends

end Reading

namespace Term

open Reading

variable {term term' : Reading Term} {ts : List Token} {kinds : List Token.Kind}

/-- What goes on with a term: arguments behind a name, or another bound of an interval. -/
def onward : List Token.Kind := [.leftParen, .dots]

def onwardAll : List Token.Kind := .comma :: .semicolon :: onward

theorem needs_readPrimary (term : Reading Term) : Needs (readPrimary term) :=
  fun _ _ _ _ hrun => by cases hrun

theorem needs_readWithin (depth : Nat) : Needs (readWithin depth) := by
  cases depth with
  | zero => exact needs_unexpected _
  | succ depth => exact (needs_readPrimary _).bind _

theorem needs_readArguments (h : Needs term) : Needs (readArguments term) := by
  have hlist : Needs (separated (take? .comma) term) := needs_separated h
  exact fun s last a d hrun => hlist s last a d hrun

theorem extends_readArguments (hneeds : Needs term)
    (h : ∀ us, us <:+ ts → Extends us onwardAll term term') :
    Extends ts onwardAll (readArguments term) (readArguments term') := by
  have hlist : Extends ts onwardAll (separated (take? .comma) term)
      (separated (take? .comma) term') := .separated List.mem_cons_self hneeds h
  refine .next (needs_separated hneeds) fun t us _ => ?_
  split
  · exact .of_pure []
  · exact .of_pure []
  · exact hlist

theorem extends_readAlternatives (hneeds : Needs term)
    (h : ∀ us, us <:+ ts → Extends us onwardAll term term') :
    Extends ts onwardAll (readAlternatives term) (readAlternatives term') :=
  .separated (by simp [onwardAll]) (needs_readArguments hneeds) fun us hus =>
    extends_readArguments hneeds fun vs hvs => h vs (hvs.trans hus)

theorem extends_closed {α : Type} {args args' : Reading α} {f : α → Term}
    (h : Extends ts onwardAll args args') :
    Extends ts onward (do let a ← args; expect .rightParen "')'"; return f a)
      (do let a ← args'; expect .rightParen "')'"; return f a) := by
  refine h.bind_of_needs (fun a => (needs_expect _ _).bind _) fun a us _ => ?_
  exact (Extends.expect _ _).bind fun _ _ _ => .of_pure (f a)

theorem extends_readPrimary (hneeds : Needs term)
    (h : ∀ us, us <:+ ts → Extends us onward term term') :
    Extends ts onward (readPrimary term) (readPrimary term') := by
  have hall : ∀ us, us <:+ ts → Extends us onwardAll term term' := fun us hus =>
    (h us hus).mono (by simp [onwardAll])
  refine .next (needs_unexpected _) fun t us hts => ?_
  subst hts
  have hus : ∀ vs, vs <:+ us → Extends vs onwardAll term term' := fun vs hvs =>
    hall vs (hvs.trans (List.suffix_cons t us))
  have halternatives : ∀ vs, vs <:+ us →
      Extends vs onwardAll (readAlternatives term) (readAlternatives term') := fun vs hvs =>
    extends_readAlternatives hneeds fun ws hws => hus ws (hws.trans hvs)
  have hparen : .leftParen ∈ onward := List.mem_cons_self
  cases t.kind with
  | number n => exact .advance (.of_pure _)
  | text s => exact .advance (.of_pure _)
  | «variable» v => exact .advance (.of_pure _)
  | identifier name =>
    refine .advance (.take? (.inl hparen) (fun u vs hvs => ?_) (.of_pure _))
    exact extends_closed (halternatives vs (hvs ▸ List.suffix_cons u vs))
  | call name =>
    refine .advance (.take? (.inl hparen) (fun u vs hvs => ?_) (.of_pure _))
    refine .take? (.inr ((needs_separated hneeds).bind _)) (fun _ _ _ => .of_pure _) ?_
    refine extends_closed (.separated List.mem_cons_self hneeds fun ws hws => hus ws ?_)
    exact hws.trans (hvs ▸ List.suffix_cons u vs)
  | leftParen =>
    refine .advance ((halternatives us List.suffix_rfl).bind_of_needs
      (fun a => (needs_expect _ _).bind _) fun a vs _ => ?_)
    refine (Extends.expect _ _).bind fun _ _ _ => ?_
    split <;> exact .of_pure _
  | _ => exact .of_unexpected _

/-- A term is read alike with more tokens behind it, and so is one with more terms around it. -/
theorem extends_readWithin {depth depth' : Nat} (h : depth ≤ depth') :
    Extends ts onward (readWithin depth) (readWithin depth') := by
  induction depth generalizing depth' ts with
  | zero => exact .of_unexpected _
  | succ depth ih =>
    obtain ⟨n, rfl⟩ := Nat.exists_eq_add_one_of_ne_zero (Nat.ne_zero_of_lt h)
    have hprimary : ∀ us, Extends us onward (readPrimary (readWithin depth))
        (readPrimary (readWithin n)) := fun us =>
      extends_readPrimary (needs_readWithin depth) fun vs _ => ih (Nat.le_of_succ_le_succ h)
    refine (hprimary ts).bind fun low us _ => ?_
    refine .take? (.inl (by simp [onward])) (fun u vs _ => ?_) (.of_pure low)
    exact (hprimary vs).bind fun high _ _ => .of_pure _

def ReadsAs (ts : List Token) (t : Term) : Prop :=
  ∃ s last last', Term.read s ⟨last, ts⟩ = (.ok t, ⟨last', []⟩)

/-- The tokens of a term are read wherever they stand, before any tokens that do not go on with
it. -/
theorem ReadsAs.readWithin {t : Term} (h : ReadsAs ts t) {depth : Nat} (hdepth : ts.length < depth)
    (s : Source) (last : Option Token) {tail : List Token} (htail : Clear onward tail) :
    ∃ last', Term.readWithin depth s ⟨last, ts ++ tail⟩ = (.ok t, ⟨last', tail⟩) := by
  obtain ⟨s₀, last₀, last₁, hrun⟩ := h
  rw [read_apply] at hrun
  exact (extends_readWithin hdepth s₀ last₀ t _ hrun).2 s last tail fun _ => htail

end Term

end AnswerSetTest
