import Mathlib.Data.List.Infix
import Mathlib.Data.List.Lex
import Mathlib.Data.String.Basic
import AnswerSetTest.SourcePath

/-!
# Normal paths

The order of paths is the order of the lists of their steps. A path in normal form is determined by
its steps, so that two of them that are equal in the order are equal. Entering a directory keeps the
normal form.
-/

namespace AnswerSetTest.SourcePath

variable {p q name directory : String} {cs ds : List Char} {s : List Char}

theorem segments_ne_nil (cs : List Char) : segments cs ≠ [] := by
  cases cs with
  | nil => simp [segments]
  | cons c cs =>
    rw [segments]
    split
    · simp
    · split
      · simp
      · simp

theorem exists_segments_eq (cs : List Char) : ∃ s ss, segments cs = s :: ss :=
  List.exists_cons_of_ne_nil (segments_ne_nil cs)

@[simp] theorem segments_slash (cs : List Char) : segments ('/' :: cs) = [] :: segments cs :=
  if_pos rfl

theorem segments_cons {c : Char} {ss : List (List Char)} (hc : c ≠ '/')
    (h : segments cs = s :: ss) : segments (c :: cs) = (c :: s) :: ss := by
  rw [segments, if_neg hc, h]

theorem segments_of_notMem (h : '/' ∉ cs) : segments cs = [cs] := by
  induction cs with
  | nil => rfl
  | cons c cs ih =>
    rw [List.mem_cons, not_or] at h
    exact segments_cons (Ne.symm h.1) (ih h.2)

theorem segments_append_slash (cs ds : List Char) :
    segments (cs ++ '/' :: ds) = segments cs ++ segments ds := by
  induction cs with
  | nil => exact segments_slash ds
  | cons c cs ih =>
    by_cases hc : c = '/'
    · rw [hc, List.cons_append, segments_slash, segments_slash, ih, List.cons_append]
    · obtain ⟨s, ss, hs⟩ := exists_segments_eq cs
      rw [hs, List.cons_append] at ih
      rw [List.cons_append, segments_cons hc ih, segments_cons hc hs, List.cons_append]

theorem ofSegments_cons_cons (s t : List Char) (ss : List (List Char)) :
    ofSegments (s :: t :: ss) = s ++ '/' :: ofSegments (t :: ss) := by
  simp [ofSegments, List.intercalate]

theorem ofSegments_cons (c : Char) (s : List Char) (ss : List (List Char)) :
    ofSegments ((c :: s) :: ss) = c :: ofSegments (s :: ss) := by
  cases ss with
  | nil => simp [ofSegments, List.intercalate]
  | cons t ss => rw [ofSegments_cons_cons, ofSegments_cons_cons, List.cons_append]

theorem ofSegments_segments (cs : List Char) : ofSegments (segments cs) = cs := by
  induction cs with
  | nil => rfl
  | cons c cs ih =>
    obtain ⟨s, ss, hs⟩ := exists_segments_eq cs
    rw [hs] at ih
    by_cases hc : c = '/'
    · rw [hc, segments_slash, hs, ofSegments_cons_cons, ih, List.nil_append]
    · rw [segments_cons hc hs, ofSegments_cons, ih]

theorem segments_ofSegments {ss : List (List Char)} (hne : ss ≠ []) (h : ∀ s ∈ ss, '/' ∉ s) :
    segments (ofSegments ss) = ss := by
  induction ss with
  | nil => exact absurd rfl hne
  | cons s ss ih =>
    rw [List.forall_mem_cons] at h
    cases ss with
    | nil =>
      have hs : ofSegments [s] = s := by simp [ofSegments, List.intercalate]
      rw [hs, segments_of_notMem h.1]
    | cons t ss =>
      rw [ofSegments_cons_cons, segments_append_slash, segments_of_notMem h.1,
        ih (List.cons_ne_nil _ _) h.2, List.singleton_append]

theorem nil_mem_tail_segments (h : cs.getLast? = some '/') : [] ∈ (segments cs).tail := by
  obtain ⟨ds, rfl⟩ := List.getLast?_eq_some_iff.1 h
  obtain ⟨s, ss, hs⟩ := exists_segments_eq ds
  rw [segments_append_slash, hs, segments]
  simp

def Step.text : Step → List Char
  | .root => []
  | .current => ['.']
  | .parent => ['.', '.']
  | .name cs => cs

theorem Step.ofSegment?_eq_some (hne : s ≠ []) (hdot : s ≠ ['.']) :
    ∃ step, Step.ofSegment? s = some step ∧ step.text = s := by
  unfold Step.ofSegment?
  rw [if_neg (by simp [hne, hdot])]
  split
  · next hparent => exact ⟨.parent, rfl, hparent.symm⟩
  · exact ⟨.name s, rfl, rfl⟩

theorem map_text_filterMap {ss : List (List Char)} (h : ∀ s ∈ ss, s ≠ [] ∧ s ≠ ['.']) :
    (ss.filterMap Step.ofSegment?).map Step.text = ss := by
  induction ss with
  | nil => rfl
  | cons s ss ih =>
    rw [List.forall_mem_cons] at h
    obtain ⟨step, hstep, htext⟩ := Step.ofSegment?_eq_some h.1.1 h.1.2
    rw [List.filterMap_cons_some hstep, List.map_cons, htext, ih h.2]

theorem Step.key_injective : Function.Injective Step.key := by
  have hchar : Function.Injective (List.map Char.toNat) :=
    List.map_injective_iff.2 fun c d h => Char.toNat_inj.1 h
  intro x y h
  cases x with
  | name cs =>
    cases y with
    | name ds => rw [hchar (List.cons.inj h).2]
    | _ => simp [Step.key] at h
  | _ => cases y <;> first | rfl | simp [Step.key] at h

theorem key_inj : key p = key q ↔ steps p = steps q :=
  Step.key_injective.list_map.eq_iff

theorem isBefore_iff : isBefore p q = true ↔ key p < key q := by
  unfold isBefore
  rw [List.lex_eq_true_iff_lex]
  simp only [List.lex_eq_true_iff_lt]
  rfl

theorem steps_of_slash (h : p.toList = '/' :: cs) :
    steps p = .root :: (segments cs).filterMap Step.ofSegment? := by
  simp only [steps, h, segments_slash]
  rfl

theorem steps_of_dot {ss : List (List Char)} (h : p.toList = '.' :: cs)
    (hs : segments ('.' :: cs) = ['.'] :: ss) :
    steps p = .current :: ss.filterMap Step.ofSegment? := by
  simp only [steps, h, hs]
  rfl

theorem steps_of_segment {c : Char} {ss : List (List Char)} (h : p.toList = c :: cs) (hc : c ≠ '/')
    (hs : segments (c :: cs) = s :: ss) (hdot : s ≠ ['.']) :
    steps p = (s :: ss).filterMap Step.ofSegment? := by
  simp only [steps, h, hs]
  split
  · next heq => exact absurd (List.cons.inj heq).1 hc
  · next heq _ => exact absurd (List.cons.inj heq).1 hdot
  · exact List.nil_append _

/-- A path in normal form has no segment behind the first that is empty or a dot. -/
structure IsNormal (path : String) : Prop where
  ne_empty : path ≠ ""
  segments : path = "/" ∨ ∀ s ∈ (segments path.toList).tail, s ≠ [] ∧ s ≠ ['.']

/-- A name that a directory can list. -/
structure IsName (name : String) : Prop where
  ne_empty : name.toList ≠ []
  ne_dot : name.toList ≠ ['.']
  noSlash : '/' ∉ name.toList

theorem isNormal_iff : IsNormal p ↔
    p ≠ "" ∧ (p = "/" ∨ ∀ s ∈ (segments p.toList).tail, s ≠ [] ∧ s ≠ ['.']) :=
  ⟨fun h => ⟨h.ne_empty, h.segments⟩, fun h => ⟨h.1, h.2⟩⟩

theorem isName_iff : IsName name ↔
    name.toList ≠ [] ∧ name.toList ≠ ['.'] ∧ '/' ∉ name.toList :=
  ⟨fun h => ⟨h.ne_empty, h.ne_dot, h.noSlash⟩, fun h => ⟨h.1, h.2.1, h.2.2⟩⟩

instance : DecidablePred IsNormal := fun _ => decidable_of_iff _ isNormal_iff.symm

instance : DecidablePred IsName := fun _ => decidable_of_iff _ isName_iff.symm

namespace IsNormal

theorem map_text_steps (h : IsNormal p) (hroot : p ≠ "/") :
    (steps p).map Step.text = SourcePath.segments p.toList := by
  have htail := h.segments.resolve_left hroot
  cases hp : p.toList with
  | nil => exact absurd (String.toList_eq_nil_iff.1 hp) h.ne_empty
  | cons c cs =>
    obtain ⟨s, ss, hs⟩ := exists_segments_eq cs
    rw [hp] at htail
    by_cases hc : c = '/'
    · subst hc
      rw [segments_slash, List.tail_cons] at htail
      rw [steps_of_slash hp, List.map_cons, map_text_filterMap htail, segments_slash]
      rfl
    · have hcons := segments_cons hc hs
      rw [hcons] at htail ⊢
      have hrest := map_text_filterMap htail
      by_cases hdot : c :: s = ['.']
      · obtain ⟨rfl, rfl⟩ := List.cons.inj hdot
        rw [steps_of_dot hp hcons, List.map_cons]
        exact congrArg _ hrest
      · obtain ⟨step, hstep, htext⟩ := Step.ofSegment?_eq_some (List.cons_ne_nil c s) hdot
        rw [steps_of_segment hp hc hcons hdot, List.filterMap_cons_some hstep, List.map_cons, htext]
        exact congrArg _ hrest

theorem segments_ne_of_ne_empty (h : p ≠ "") : SourcePath.segments p.toList ≠ [[]] := by
  intro hs
  apply h
  rw [← String.toList_eq_nil_iff, ← ofSegments_segments p.toList, hs]
  rfl

/-- A path in normal form is determined by its steps. -/
theorem eq_of_key_eq (hp : IsNormal p) (hq : IsNormal q) (h : key p = key q) : p = q := by
  rw [key_inj] at h
  have hslash : steps "/" = [.root] := by decide
  by_cases hrootp : p = "/"
  · by_cases hrootq : q = "/"
    · rw [hrootp, hrootq]
    · have htext := hq.map_text_steps hrootq
      rw [← h, hrootp, hslash] at htext
      exact absurd htext.symm (segments_ne_of_ne_empty hq.ne_empty)
  · have htext := hp.map_text_steps hrootp
    by_cases hrootq : q = "/"
    · rw [h, hrootq, hslash] at htext
      exact absurd htext.symm (segments_ne_of_ne_empty hp.ne_empty)
    · rw [h, hq.map_text_steps hrootq] at htext
      rw [← String.toList_inj, ← ofSegments_segments p.toList, ← htext, ofSegments_segments]

end IsNormal

theorem endsWith_slash : p.endsWith "/" = true ↔ p.toList.getLast? = some '/' := by
  rw [← String.endsWith_toSlice, String.Slice.endsWith_string_iff, String.copy_toSlice]
  exact List.singleton_suffix_iff_getLast?_eq_some

theorem join_of_open (h : directory = "" ∨ directory.toList.getLast? = some '/') (name : String) :
    join directory name = directory ++ name := by
  have hcond : (directory.isEmpty || directory.endsWith "/") = true := by
    rwa [Bool.or_eq_true, String.isEmpty_iff, endsWith_slash]
  exact if_pos hcond

theorem join_of_closed (hne : directory ≠ "") (h : directory.toList.getLast? ≠ some '/')
    (name : String) : join directory name = directory ++ "/" ++ name := by
  have hcond : ¬ (directory.isEmpty || directory.endsWith "/") = true := by
    rw [Bool.or_eq_true, String.isEmpty_iff, endsWith_slash]
    exact not_or_intro hne h
  exact if_neg hcond

theorem IsNormal.join (hd : IsNormal directory)
    (hp : ∀ s ∈ SourcePath.segments p.toList, s ≠ [] ∧ s ≠ ['.']) :
    IsNormal (SourcePath.join directory p) := by
  by_cases hroot : directory = "/"
  · subst hroot
    have htext : ("/" ++ p).toList = '/' :: p.toList := String.toList_append
    rw [join_of_open (.inr rfl)]
    refine ⟨fun h => ?_, .inr ?_⟩
    · rw [← String.toList_eq_nil_iff, htext] at h
      cases h
    · rwa [htext, segments_slash, List.tail_cons]
  · have htail := hd.segments.resolve_left hroot
    have hlast : directory.toList.getLast? ≠ some '/' := fun h =>
      (htail [] (nil_mem_tail_segments h)).1 rfl
    have htext : (directory ++ "/" ++ p).toList = directory.toList ++ '/' :: p.toList := by
      rw [String.toList_append, String.toList_append, List.append_assoc]
      rfl
    rw [join_of_closed hd.ne_empty hlast]
    refine ⟨fun h => ?_, .inr ?_⟩
    · rw [← String.toList_eq_nil_iff, htext] at h
      simp at h
    · rw [htext, segments_append_slash, List.tail_append_of_ne_nil (segments_ne_nil _)]
      exact List.forall_mem_append.2 ⟨htail, hp⟩

theorem IsName.segments_intercalate {names : List String} (hne : names ≠ [])
    (h : ∀ name ∈ names, IsName name) :
    segments ("/".intercalate names).toList = names.map String.toList := by
  rw [String.toList_intercalate]
  apply segments_ofSegments
  · simpa using hne
  · intro s hs
    obtain ⟨name, hname, rfl⟩ := List.mem_map.1 hs
    exact (h name hname).noSlash

theorem join_intercalate {names : List String} (h : ∀ name ∈ names, IsName name) (name : String) :
    join ("/".intercalate names) name = "/".intercalate (names ++ [name]) := by
  by_cases hne : names = []
  · subst hne
    rw [String.intercalate_nil, List.nil_append, String.intercalate_singleton,
      join_of_open (.inl rfl), String.empty_append]
  · have hnil : [] ∉ segments ("/".intercalate names).toList := by
      rw [IsName.segments_intercalate hne h, List.mem_map]
      rintro ⟨n, hn, hn'⟩
      exact (h n hn).ne_empty hn'
    have hempty : "/".intercalate names ≠ "" := fun hempty => by
      rw [hempty] at hnil
      exact hnil List.mem_cons_self
    have hlast : ("/".intercalate names).toList.getLast? ≠ some '/' := fun hlast =>
      hnil (List.mem_of_mem_tail (nil_mem_tail_segments hlast))
    rw [join_of_closed hempty hlast, String.intercalate_append_of_ne_nil hne (List.cons_ne_nil _ _),
      String.intercalate_singleton]

theorem IsNormal.join_intercalate {names : List String} (hd : IsNormal directory) (hne : names ≠ [])
    (h : ∀ name ∈ names, IsName name) :
    IsNormal (SourcePath.join directory ("/".intercalate names)) := by
  apply hd.join
  intro s hs
  rw [IsName.segments_intercalate hne h, List.mem_map] at hs
  obtain ⟨name, hname, rfl⟩ := hs
  exact ⟨(h name hname).ne_empty, (h name hname).ne_dot⟩

end AnswerSetTest.SourcePath
