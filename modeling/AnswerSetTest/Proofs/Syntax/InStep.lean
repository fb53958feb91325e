import Mathlib.Data.List.Forall2
import AnswerSetTest.Syntax.Parser

/-!
# Readings in step

Two readings keep in step if, from cursors that stand before tokens of the same kinds as far as the
next dot, both stop with diagnostics for the same problem or both give like results, and neither
cursor has passed the dot. What stands behind the dot and the limits of repetitions may differ.
If the sources and the tokens before the dot are the same, then so are diagnostics and results;
if not, spans may differ.
-/

namespace AnswerSetTest

/-- Equal as far as `f` tells, and equal if `exact` holds. -/
structure SameUpTo {α β : Type} (f : α → β) (exact : Prop) (a b : α) : Prop where
  image : f a = f b
  eq : exact → a = b

def Diagnostic.unspanned (d : Diagnostic) : Diagnostic := { d with span := none }

/-- Two sources and what stands behind the dots of two statements, if there are any. -/
structure Sides where
  exact : Prop
  left : Source
  right : Source
  source_eq : exact → left = right
  behind : Option (List Token × List Token)

namespace Sides

/-- Tokens of the same kinds, at most `k` of them before a dot or the end. -/
inductive Tokens (w : Sides) : Nat → List Token → List Token → Prop
  | finish (k : Nat) (h : w.behind = none) : Tokens w k [] []
  | dot {t u : Token} {ts us : List Token} (k : Nat) (h : SameUpTo Token.kind w.exact t u)
    (hdot : t.kind = .dot) (hbehind : w.behind = some (ts, us)) : Tokens w k (t :: ts) (u :: us)
  | token {t u : Token} {ts us : List Token} {k : Nat} (h : SameUpTo Token.kind w.exact t u)
    (hdot : t.kind ≠ .dot) (hs : Tokens w k ts us) : Tokens w (k + 1) (t :: ts) (u :: us)

structure Before (w : Sides) (k : Nat) (c d : Cursor) : Prop where
  last : w.exact → c.last = d.last
  rest : w.Tokens k c.rest d.rest

/-- Cursors before the dots that see a token of a kind, or the end. -/
def Sees (w : Sides) (k : Nat) (kind : Option Token.Kind) (c d : Cursor) : Prop :=
  w.Before k c d ∧ c.rest.head?.map Token.kind = kind

structure Behind (w : Sides) (c d : Cursor) : Prop where
  last : w.exact → c.last = d.last
  rest : w.behind = some (c.rest, d.rest)

variable {α β : Type}

/-- Both readings stopped before the dots, or both gave results. -/
inductive Outcomes (w : Sides) (Q : α → α → Cursor → Cursor → Prop) :
    Except Diagnostic α × Cursor → Except Diagnostic α × Cursor → Prop
  | ok {a b : α} {c d : Cursor} (h : Q a b c d) : Outcomes w Q (.ok a, c) (.ok b, d)
  | error {e f : Diagnostic} {c d : Cursor} {k : Nat}
    (h : SameUpTo Diagnostic.unspanned w.exact e f) (hcd : w.Before k c d) :
    Outcomes w Q (.error e, c) (.error f, d)

/-- From cursors in `P`, both readings stop, or both give results in `Q`. -/
def Relates (w : Sides) (P : Cursor → Cursor → Prop) (x y : Reading α)
    (Q : α → α → Cursor → Cursor → Prop) : Prop :=
  ∀ c d, P c d → w.Outcomes Q (x w.left c) (y w.right d)

/-- Both readings stop, or both give results in `R` and have not passed the dots. -/
def InStep (w : Sides) (k : Nat) (x y : Reading α) (R : α → α → Prop) : Prop :=
  w.Relates (w.Before k) x y fun a b c d => R a b ∧ w.Before k c d

variable {w : Sides} {k : Nat}

namespace Tokens

variable {t u : Token} {ts us : List Token}

theorem mono {j : Nat} (h : w.Tokens j ts us) (hj : j ≤ k) : w.Tokens k ts us := by
  induction h generalizing k with
  | finish j h => exact .finish k h
  | dot j h hdot hbehind => exact .dot k h hdot hbehind
  | token h hdot hs ih =>
    obtain ⟨i, rfl⟩ := Nat.exists_eq_succ_of_ne_zero (Nat.ne_zero_of_lt hj)
    exact .token h hdot (ih (Nat.le_of_succ_le_succ hj))

theorem exists_count (h : w.Tokens k ts us) :
    ∃ j ≤ k, j ≤ ts.length ∧ j ≤ us.length ∧ w.Tokens j ts us := by
  induction h with
  | finish k h => exact ⟨0, Nat.zero_le k, Nat.zero_le _, Nat.zero_le _, .finish 0 h⟩
  | dot k h hdot hbehind =>
    exact ⟨0, Nat.zero_le k, Nat.zero_le _, Nat.zero_le _, .dot 0 h hdot hbehind⟩
  | token h hdot hs ih =>
    obtain ⟨j, hk, hts, hus, hj⟩ := ih
    exact ⟨j + 1, Nat.succ_le_succ hk, Nat.succ_le_succ hts, Nat.succ_le_succ hus,
      .token h hdot hj⟩

theorem head_eq (h : w.Tokens k ts us) : ts.head?.map Token.kind = us.head?.map Token.kind := by
  cases h with
  | finish => rfl
  | dot _ h => exact congrArg some h.image
  | token h => exact congrArg some h.image

end Tokens

theorem Before.mono {c d : Cursor} {j : Nat} (h : w.Before j c d) (hj : j ≤ k) : w.Before k c d :=
  ⟨h.last, h.rest.mono hj⟩

section Rules

variable {P : Cursor → Cursor → Prop} {Q : α → α → Cursor → Cursor → Prop}
  {R : α → α → Prop} {x y : Reading α}

theorem Outcomes.mono {Q' : α → α → Cursor → Cursor → Prop}
    {r r' : Except Diagnostic α × Cursor} (h : w.Outcomes Q r r')
    (hQ : ∀ a b c d, Q a b c d → Q' a b c d) : w.Outcomes Q' r r' := by
  cases h with
  | ok h => exact .ok (hQ _ _ _ _ h)
  | error h hcd => exact .error h hcd

theorem Relates.mono {P' : Cursor → Cursor → Prop} {Q' : α → α → Cursor → Cursor → Prop}
    (h : w.Relates P x y Q) (hP : ∀ c d, P' c d → P c d)
    (hQ : ∀ a b c d, Q a b c d → Q' a b c d) : w.Relates P' x y Q' :=
  fun c d hcd => (h c d (hP c d hcd)).mono hQ

theorem InStep.mono {j : Nat} (h : w.InStep j x y R) (hj : j ≤ k) :
    w.Relates (w.Before j) x y fun a b c d => R a b ∧ w.Before k c d :=
  Relates.mono h (fun _ _ => id) fun _ _ _ _ hout => ⟨hout.1, hout.2.mono hj⟩

theorem InStep.imp {R' : α → α → Prop} (h : w.InStep k x y R) (hR : ∀ a b, R a b → R' a b) :
    w.InStep k x y R' :=
  Relates.mono h (fun _ _ => id) fun a b _ _ hout => ⟨hR a b hout.1, hout.2⟩

theorem relates_pure {a b : α} (h : ∀ c d, P c d → Q a b c d) :
    w.Relates P (pure a) (pure b) Q := fun c d hcd => .ok (h c d hcd)

theorem inStep_pure {a b : α} (h : R a b) : w.InStep k (pure a) (pure b) R :=
  relates_pure fun _ _ hcd => ⟨h, hcd⟩

theorem relates_throw {e f : Diagnostic} (h : SameUpTo Diagnostic.unspanned w.exact e f) :
    w.Relates (w.Before k) (throw e) (throw f) Q := fun _ _ hcd => .error h hcd

theorem bind_apply (x : Reading α) (f : α → Reading β) (s : Source) (c : Cursor) :
    (x >>= f) s c = match x s c with
      | (.ok a, d) => f a s d
      | (.error e, d) => (.error e, d) := by
  change ExceptT.bindCont (fun a => f a s) (x s c).1 (x s c).2 = _
  rcases x s c with ⟨_ | _, d⟩ <;> rfl

theorem bind_eq_of_ok {x : Reading α} {f : α → Reading β} {s : Source} {c d : Cursor} {a : α}
    (h : x s c = (.ok a, d)) : (x >>= f) s c = f a s d := by
  rw [bind_apply, h]

theorem Relates.bind {S : β → β → Cursor → Cursor → Prop} {f g : α → Reading β}
    (hx : w.Relates P x y Q) (hf : ∀ a b, w.Relates (Q a b) (f a) (g b) S) :
    w.Relates P (x >>= f) (y >>= g) S := by
  intro c d hcd
  rw [bind_apply, bind_apply]
  have hout := hx c d hcd
  revert hout
  generalize x w.left c = r, y w.right d = r'
  rintro (hout | ⟨hout, hcd⟩)
  · exact hf _ _ _ _ hout
  · exact .error hout hcd

theorem InStep.bind {S : β → β → Cursor → Cursor → Prop} {f g : α → Reading β}
    (hx : w.InStep k x y R) (hf : ∀ a b, R a b → w.Relates (w.Before k) (f a) (g b) S) :
    w.Relates (w.Before k) (x >>= f) (y >>= g) S :=
  Relates.bind hx fun a b c d hcd => hf a b hcd.1 c d hcd.2

theorem InStep.bind_eq {S : β → β → Cursor → Cursor → Prop} {f g : α → Reading β}
    (hx : w.InStep k x y Eq) (hf : ∀ a, w.Relates (w.Before k) (f a) (g a) S) :
    w.Relates (w.Before k) (x >>= f) (y >>= g) S :=
  hx.bind fun a _ hab => hab ▸ hf a

end Rules

section Primitives

open Reading

variable {Q : α → α → Cursor → Cursor → Prop} {R : α → α → Prop}

theorem relates_next {f g : Option Token.Kind → Reading α}
    (h : ∀ kind, w.Relates (w.Sees k kind) (f kind) (g kind) Q) :
    w.Relates (w.Before k) (next? >>= f) (next? >>= g) Q := by
  intro c d hcd
  have hnext : ∀ (s : Source) (c : Cursor),
      next? s c = (.ok (c.rest.head?.map Token.kind), c) := fun _ _ => rfl
  rw [bind_apply, bind_apply, hnext, hnext, ← hcd.rest.head_eq]
  exact h _ c d ⟨hcd, rfl⟩

/-- What relates before the dots relates whatever the next token is. -/
theorem Relates.sees {x y : Reading α} {kind : Option Token.Kind}
    (h : w.Relates (w.Before k) x y Q) : w.Relates (w.Sees k kind) x y Q :=
  fun c d hcd => h c d hcd.1

theorem relates_advance {kind : Token.Kind} (hkind : kind ≠ .dot) {f g : Unit → Reading α}
    (h : ∀ j < k, w.Relates (w.Before j) (f ()) (g ()) Q) :
    w.Relates (w.Sees k (some kind)) (advance >>= f) (advance >>= g) Q := by
  rintro ⟨last, rest⟩ ⟨last', rest'⟩ ⟨hcd, hsees⟩
  obtain ⟨-, hrest⟩ := hcd
  have hadvance : ∀ (s : Source) (last : Option Token) (t : Token) (ts : List Token),
      advance s ⟨last, t :: ts⟩ = (.ok (), ⟨some t, ts⟩) := fun _ _ _ _ => rfl
  cases hrest with
  | finish => cases hsees
  | dot _ _ hdot => exact absurd ((Option.some.inj hsees).symm.trans hdot) hkind
  | @token t u ts us j ht hdot hs =>
    rw [bind_apply, bind_apply, hadvance, hadvance]
    exact h j (Nat.lt_succ_self j) _ _ ⟨fun he => congrArg some (ht.eq he), hs⟩

theorem inStep_advance {kind : Token.Kind} (hkind : kind ≠ .dot) {f g : Unit → Reading α}
    (h : ∀ j < k, w.InStep j (f ()) (g ()) R) :
    w.Relates (w.Sees k (some kind)) (advance >>= f) (advance >>= g)
      fun a b c d => R a b ∧ w.Before k c d :=
  relates_advance hkind fun j hj => (h j hj).mono (Nat.le_of_lt hj)

/-- A test that moves past the next token if its kind is one of `kinds`, and no dot is. -/
structure Separates (sep : Reading Bool) (kinds : List Token.Kind) : Prop where
  dot : .dot ∉ kinds
  finish : ∀ s last, sep s ⟨last, []⟩ = (.ok false, ⟨last, []⟩)
  taken : ∀ s last t ts, t.kind ∈ kinds → sep s ⟨last, t :: ts⟩ = (.ok true, ⟨some t, ts⟩)
  left : ∀ s last t ts, t.kind ∉ kinds → sep s ⟨last, t :: ts⟩ = (.ok false, ⟨last, t :: ts⟩)

theorem take?_of_eq {kind : Token.Kind} (s : Source) (last : Option Token) {t : Token}
    (ts : List Token) (h : t.kind = kind) :
    take? kind s ⟨last, t :: ts⟩ = (.ok true, ⟨some t, ts⟩) := by
  change (if some t.kind = some kind then (advance >>= fun _ => pure true : Reading Bool)
    else pure false) s ⟨last, t :: ts⟩ = _
  rw [if_pos (congrArg some h)]
  rfl

theorem take?_of_ne {kind : Token.Kind} (s : Source) (last : Option Token) {t : Token}
    (ts : List Token) (h : t.kind ≠ kind) :
    take? kind s ⟨last, t :: ts⟩ = (.ok false, ⟨last, t :: ts⟩) := by
  change (if some t.kind = some kind then (advance >>= fun _ => pure true : Reading Bool)
    else pure false) s ⟨last, t :: ts⟩ = _
  rw [if_neg fun hsome => h (Option.some.inj hsome)]
  rfl

theorem separates_take? {kind : Token.Kind} (h : kind ≠ .dot) :
    Separates (take? kind) [kind] where
  dot hmem := h (List.mem_singleton.1 hmem).symm
  finish _ _ := rfl
  taken s last _ ts ht := take?_of_eq s last ts (List.mem_singleton.1 ht)
  left s last _ ts ht := take?_of_ne s last ts fun heq => ht (List.mem_singleton.2 heq)

theorem Separates.or {kind kind' : Token.Kind} (h : kind ≠ .dot) (h' : kind' ≠ .dot) :
    Separates (do if ← take? kind then return true else take? kind') [kind, kind'] where
  dot := by simp [h.symm, h'.symm]
  finish _ _ := rfl
  taken s last t ts ht := by
    rw [bind_apply]
    by_cases hkind : t.kind = kind
    · rw [take?_of_eq s last ts hkind]
      rfl
    · rw [take?_of_ne s last ts hkind]
      have hkind' : t.kind = kind' := by simpa [hkind] using ht
      exact take?_of_eq s last ts hkind'
  left s last t ts ht := by
    rw [List.mem_cons, List.mem_singleton, not_or] at ht
    rw [bind_apply, take?_of_ne s last ts ht.1]
    exact take?_of_ne s last ts ht.2

variable {sep : Reading Bool} {kinds : List Token.Kind}

/-- A test is passed on both sides or changes nothing on either. -/
theorem Separates.cases (hsep : Separates sep kinds) {c d : Cursor} (h : w.Before k c d) :
    (∃ j < k, ∃ c' d', w.Before j c' d' ∧ sep w.left c = (.ok true, c') ∧
      sep w.right d = (.ok true, d')) ∨
    (sep w.left c = (.ok false, c) ∧ sep w.right d = (.ok false, d)) := by
  obtain ⟨last, rest⟩ := c
  obtain ⟨last', rest'⟩ := d
  obtain ⟨hlast, hrest⟩ := h
  cases hrest with
  | finish => exact .inr ⟨hsep.finish _ last, hsep.finish _ last'⟩
  | @dot t u ts us _ ht hdot =>
    have hmem : t.kind ∉ kinds := hdot ▸ hsep.dot
    exact .inr ⟨hsep.left _ last t ts hmem, hsep.left _ last' u us (ht.image ▸ hmem)⟩
  | @token t u ts us j ht hdot hs =>
    by_cases hmem : t.kind ∈ kinds
    · exact .inl ⟨j, Nat.lt_succ_self j, _, _, ⟨fun he => congrArg some (ht.eq he), hs⟩,
        hsep.taken _ last t ts hmem, hsep.taken _ last' u us (ht.image ▸ hmem)⟩
    · exact .inr ⟨hsep.left _ last t ts hmem, hsep.left _ last' u us (ht.image ▸ hmem)⟩

theorem Separates.relates (hsep : Separates sep kinds) {f g : Bool → Reading α}
    (htrue : ∀ j < k, w.Relates (w.Before j) (f true) (g true) Q)
    (hfalse : w.Relates (w.Before k) (f false) (g false) Q) :
    w.Relates (w.Before k) (sep >>= f) (sep >>= g) Q := by
  intro c d hcd
  rw [bind_apply, bind_apply]
  rcases hsep.cases hcd with ⟨j, hj, c', d', hcd', hl, hr⟩ | ⟨hl, hr⟩
  · rw [hl, hr]
    exact htrue j hj c' d' hcd'
  · rw [hl, hr]
    exact hfalse c d hcd

theorem Separates.inStep (hsep : Separates sep kinds) {f g : Bool → Reading α}
    (htrue : ∀ j < k, w.InStep j (f true) (g true) R) (hfalse : w.InStep k (f false) (g false) R) :
    w.InStep k (sep >>= f) (sep >>= g) R :=
  hsep.relates (fun j hj => (htrue j hj).mono (Nat.le_of_lt hj)) hfalse

theorem inStep_take? {kind : Token.Kind} (hkind : kind ≠ .dot) :
    w.InStep k (take? kind) (take? kind) Eq := by
  intro c d hcd
  rcases (separates_take? hkind).cases hcd with ⟨j, hj, c', d', hcd', hl, hr⟩ | ⟨hl, hr⟩
  · rw [hl, hr]
    exact .ok ⟨rfl, hcd'.mono (Nat.le_of_lt hj)⟩
  · rw [hl, hr]
    exact .ok ⟨rfl, hcd⟩

theorem inStep_position : w.InStep k position position fun a b => w.exact → a = b := by
  rintro ⟨last, rest⟩ ⟨last', rest'⟩ ⟨hlast, hrest⟩
  have hcd : w.Before k ⟨last, rest⟩ ⟨last', rest'⟩ := ⟨hlast, hrest⟩
  cases hrest with
  | finish => exact .ok ⟨fun he => by rw [w.source_eq he], hcd⟩
  | dot _ ht => exact .ok ⟨fun he => by rw [ht.eq he], hcd⟩
  | token ht => exact .ok ⟨fun he => by rw [ht.eq he], hcd⟩

theorem relates_spanFrom {P : Cursor → Cursor → Prop} {a b : Nat}
    (hlast : ∀ c d, P c d → w.exact → c.last = d.last) (hab : w.exact → a = b) :
    w.Relates P (spanFrom a) (spanFrom b) fun l m c d => (w.exact → l = m) ∧ P c d := by
  intro c d hcd
  have hspan : ∀ (s : Source) (c : Cursor) (start : Nat), spanFrom start s c =
      (.ok (Span.locate s start (max start (c.last.elim start Token.stop))), c) := by
    rintro s ⟨_ | _, _⟩ start <;> rfl
  rw [hspan, hspan]
  exact .ok ⟨fun he => by rw [w.source_eq he, hlast c d hcd he, hab he], hcd⟩

theorem inStep_spanFrom {a b : Nat} (hab : w.exact → a = b) :
    w.InStep k (spanFrom a) (spanFrom b) fun l m => w.exact → l = m :=
  relates_spanFrom (fun _ _ h => h.last) hab

theorem relates_unexpected (what : String) :
    w.Relates (w.Before k) (unexpected what : Reading α) (unexpected what) Q := by
  rintro ⟨last, rest⟩ ⟨last', rest'⟩ ⟨hlast, hrest⟩
  have hcd : w.Before k ⟨last, rest⟩ ⟨last', rest'⟩ := ⟨hlast, hrest⟩
  cases hrest with
  | finish => exact .error ⟨rfl, fun he => by rw [w.source_eq he]⟩ hcd
  | @dot t u ts us _ ht hdot =>
    refine .error ⟨?_, fun he => by rw [w.source_eq he, ht.eq he]⟩ hcd
    simp only [Diagnostic.unspanned, ht.image]
  | @token t u ts us j ht hdot =>
    refine .error ⟨?_, fun he => by rw [w.source_eq he, ht.eq he]⟩ hcd
    simp only [Diagnostic.unspanned, ht.image]

theorem inStep_expect {kind : Token.Kind} (hkind : kind ≠ .dot) (what : String) :
    w.InStep k (expect kind what) (expect kind what) fun _ _ => True :=
  (separates_take? hkind).inStep (fun _ _ => inStep_pure trivial) (relates_unexpected what)

theorem relates_take?_dot {f g : Bool → Reading α}
    (htrue : w.Relates w.Behind (f true) (g true) Q)
    (hfalse : w.Relates (w.Before k) (f false) (g false) Q) :
    w.Relates (w.Before k) (take? .dot >>= f) (take? .dot >>= g) Q := by
  rintro ⟨last, rest⟩ ⟨last', rest'⟩ ⟨hlast, hrest⟩
  rw [bind_apply, bind_apply]
  cases hrest with
  | finish _ h => exact hfalse _ _ ⟨hlast, .finish k h⟩
  | @dot t u ts us _ ht hdot hbehind =>
    rw [take?_of_eq _ _ _ hdot, take?_of_eq _ _ _ (ht.image.symm.trans hdot)]
    exact htrue _ _ ⟨fun he => congrArg some (ht.eq he), hbehind⟩
  | @token t u ts us j ht hdot hs =>
    rw [take?_of_ne _ _ _ hdot, take?_of_ne _ _ _ (ht.image ▸ hdot)]
    exact hfalse _ _ ⟨hlast, .token ht hdot hs⟩

theorem relates_expect_dot (what : String) :
    w.Relates (w.Before k) (expect .dot what) (expect .dot what) fun _ _ => w.Behind :=
  relates_take?_dot (relates_pure fun _ _ h => h) (relates_unexpected what)

theorem inStep_identifier (what : String) :
    w.InStep k (identifier what) (identifier what) Eq := by
  refine relates_next fun kind => ?_
  split
  · exact inStep_advance (by simp) fun _ _ => inStep_pure rfl
  · exact (relates_unexpected what).sees

theorem inStep_comparison? : w.InStep k comparison? comparison? Eq := by
  refine relates_next fun kind => ?_
  split
  · exact inStep_advance (by simp) fun _ _ => inStep_pure rfl
  · exact (inStep_pure rfl).sees

def separatedRest (sep : Reading Bool) (item : Reading α) (a : α) : Nat → Reading (List α)
  | 0 => return [a]
  | limit + 1 => do
    if ← sep then
      return a :: (← separatedUpTo sep item limit)
    else
      return [a]

theorem separatedUpTo_eq (sep : Reading Bool) (item : Reading α) (limit : Nat) :
    separatedUpTo sep item limit = item >>= fun a => separatedRest sep item a limit := by
  cases limit <;> rfl

theorem separatedRest_of_false {item : Reading α} (a : α) (limit : Nat) {s : Source} {c : Cursor}
    (h : sep s c = (.ok false, c)) : separatedRest sep item a limit s c = (.ok [a], c) := by
  cases limit with
  | zero => rfl
  | succ limit =>
    rw [separatedRest, bind_apply, h]
    rfl

theorem separatedRest_of_true {item : Reading α} (a : α) (limit : Nat) {s : Source} {c d : Cursor}
    (h : sep s c = (.ok true, d)) : separatedRest sep item a (limit + 1) s c =
      (separatedUpTo sep item limit >>= fun as => pure (a :: as)) s d := by
  rw [separatedRest, bind_eq_of_ok h]
  rfl

/-- The limits do not matter if they are not less than the number of tokens before the dot. -/
theorem inStep_separatedUpTo (hsep : Separates sep kinds) {item item' : Reading α} {n n' : Nat}
    (hn : k ≤ n) (hn' : k ≤ n') (hitem : ∀ j ≤ k, w.InStep j item item' R) :
    w.InStep k (separatedUpTo sep item n) (separatedUpTo sep item' n') (List.Forall₂ R) := by
  induction n generalizing k n' with
  | zero =>
    obtain rfl := Nat.le_zero.1 hn
    rw [separatedUpTo_eq, separatedUpTo_eq]
    refine (hitem 0 (Nat.le_refl 0)).bind fun a b hab c d hcd => ?_
    rcases hsep.cases hcd with ⟨j, hj, -⟩ | ⟨hl, hr⟩
    · exact absurd hj (Nat.not_lt_zero j)
    · rw [separatedRest_of_false a _ hl, separatedRest_of_false b _ hr]
      exact .ok ⟨.cons hab .nil, hcd⟩
  | succ n ih =>
    rw [separatedUpTo_eq, separatedUpTo_eq]
    refine (hitem k (Nat.le_refl k)).bind fun a b hab c d hcd => ?_
    rcases hsep.cases hcd with ⟨j, hj, c', d', hcd', hl, hr⟩ | ⟨hl, hr⟩
    · cases n' with
      | zero => omega
      | succ m =>
        rw [separatedRest_of_true a n hl, separatedRest_of_true b m hr]
        have hrest : w.InStep j (separatedUpTo sep item n) (separatedUpTo sep item' m)
            (List.Forall₂ R) := ih (by omega) (by omega) fun i hi => hitem i (by omega)
        refine hrest.bind (fun as bs has => ?_) c' d' hcd'
        exact InStep.mono (inStep_pure (.cons hab has)) (by omega)
    · rw [separatedRest_of_false a _ hl, separatedRest_of_false b _ hr]
      exact .ok ⟨.cons hab .nil, hcd⟩

/-- Repetitions that are limited by the number of tokens to be read. -/
theorem relates_length {f g : Nat → Reading α}
    (h : ∀ j ≤ k, ∀ n n', j ≤ n → j ≤ n' → w.Relates (w.Before j) (f n) (g n') Q) :
    w.Relates (w.Before k) (get >>= fun c => f c.rest.length) (get >>= fun c => g c.rest.length)
      Q := by
  rintro c d ⟨hlast, hrest⟩
  obtain ⟨j, hj, hts, hus, hrest⟩ := hrest.exists_count
  exact h j hj _ _ hts hus c d ⟨hlast, hrest⟩

theorem inStep_separated (hsep : Separates sep kinds) {item item' : Reading α}
    (hitem : ∀ j ≤ k, w.InStep j item item' R) :
    w.InStep k (separated sep item) (separated sep item') (List.Forall₂ R) :=
  relates_length fun j hj _ _ hn hn' =>
    InStep.mono (inStep_separatedUpTo hsep hn hn' fun i hi => hitem i (by omega)) hj

end Primitives

end Sides

end AnswerSetTest
