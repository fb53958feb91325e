import AnswerSetTest.FileTree
import AnswerSetTest.Proofs.SourcePath

/-!
# Files below a directory

The walk through a directory finds a file wherever names lead to one from directory to directory,
unless a directory on the way is named `.git`. Which files there are does not depend on the order in
which directories list their entries.
-/

namespace AnswerSetTest.FileTree

open SourcePath

variable {entries entries' inner : List (String × FileTree)} {tree tree' : FileTree}
  {name path : String} {before names : List String} {content content' : ByteArray}

/-- The names lead from directory to directory and to a file with the content. -/
inductive Below : List (String × FileTree) → List String → ByteArray → Prop
  | file {entries : List (String × FileTree)} {name : String} {content : ByteArray}
      (entry : (name, .file content) ∈ entries) : Below entries [name] content
  | directory {entries inner : List (String × FileTree)} {name : String} {names : List String}
      {content : ByteArray} (entry : (name, .directory inner) ∈ entries)
      (rest : Below inner names content) : Below entries (name :: names) content

/-- Directories list proper names, each once. -/
inductive WellNamed : FileTree → Prop
  | file (content : ByteArray) : WellNamed (.file content)
  | directory {entries : List (String × FileTree)} (names : ∀ e ∈ entries, IsName e.1)
      (nodup : (entries.map Prod.fst).Nodup) (inner : ∀ e ∈ entries, WellNamed e.2) :
      WellNamed (.directory entries)

/-- The same tree whose directories may list their entries in another order. -/
inductive Rearranged : FileTree → FileTree → Prop
  | file (content : ByteArray) : Rearranged (.file content) (.file content)
  | directory {entries entries' : List (String × FileTree)}
      (names : (entries.map Prod.fst).Perm (entries'.map Prod.fst))
      (inner : ∀ e ∈ entries, ∀ e' ∈ entries', e.1 = e'.1 → Rearranged e.2 e'.2) :
      Rearranged (.directory entries) (.directory entries')

theorem exists_fst_eq {e : String × FileTree} (he : e ∈ entries)
    (h : (entries.map Prod.fst).Perm (entries'.map Prod.fst)) : ∃ e' ∈ entries', e'.1 = e.1 :=
  List.mem_map.1 (h.mem_iff.1 (List.mem_map_of_mem he))

theorem lookup_eq_some_iff (h : (entries.map Prod.fst).Nodup) :
    entries.lookup name = some tree ↔ (name, tree) ∈ entries := by
  induction entries with
  | nil => simp
  | cons e entries ih =>
    obtain ⟨n, t⟩ := e
    rw [List.map_cons, List.nodup_cons] at h
    rw [List.lookup_cons, List.mem_cons, Prod.mk.injEq]
    by_cases hname : name = n
    · subst hname
      have hnot : (name, tree) ∉ entries := fun hmem =>
        h.1 (List.mem_map.2 ⟨(name, tree), hmem, rfl⟩)
      rw [beq_self_eq_true]
      simp [hnot, eq_comm]
    · rw [beq_false_of_ne hname, ih h.2]
      simp [hname]

namespace Below

theorem ne_nil (h : Below entries names content) : names ≠ [] := by
  cases h with
  | file entry => exact List.cons_ne_nil _ _
  | directory entry rest => exact List.cons_ne_nil _ _

theorem of_subset (h : Below entries names content) (hsub : entries ⊆ entries') :
    Below entries' names content := by
  cases h with
  | file entry => exact .file (hsub entry)
  | directory entry rest => exact .directory (hsub entry) rest

theorem not_nil : ¬ Below [] names content := by
  intro h
  cases h with
  | file entry => cases entry
  | directory entry rest => cases entry

theorem cons_iff {e : String × FileTree} :
    Below (e :: entries) names content ↔
      Below [e] names content ∨ Below entries names content := by
  constructor
  · intro h
    cases h with
    | file entry =>
      rcases List.mem_cons.1 entry with rfl | entry
      · exact .inl (.file List.mem_cons_self)
      · exact .inr (.file entry)
    | directory entry rest =>
      rcases List.mem_cons.1 entry with rfl | entry
      · exact .inl (.directory List.mem_cons_self rest)
      · exact .inr (.directory entry rest)
  · rintro (h | h)
    · exact h.of_subset (List.cons_subset.2 ⟨List.mem_cons_self, List.nil_subset _⟩)
    · exact h.of_subset (List.subset_cons_self _ _)

theorem file_iff :
    Below [(name, .file content')] names content ↔ names = [name] ∧ content = content' := by
  constructor
  · intro h
    cases h with
    | file entry =>
      cases List.mem_singleton.1 entry
      exact ⟨rfl, rfl⟩
    | directory entry rest => cases List.mem_singleton.1 entry
  · rintro ⟨rfl, rfl⟩
    exact .file List.mem_cons_self

theorem directory_iff :
    Below [(name, .directory inner)] names content ↔
      ∃ rest, names = name :: rest ∧ Below inner rest content := by
  constructor
  · intro h
    cases h with
    | file entry => cases List.mem_singleton.1 entry
    | directory entry rest =>
      cases List.mem_singleton.1 entry
      exact ⟨_, rfl, rest⟩
  · rintro ⟨rest, rfl, h⟩
    exact .directory List.mem_cons_self h

theorem isName (h : Below entries names content) (hwell : WellNamed (.directory entries)) :
    ∀ name ∈ names, IsName name := by
  induction h with
  | file entry =>
    cases hwell with
    | directory hnames _ _ => simpa using hnames _ entry
  | directory entry rest ih =>
    cases hwell with
    | directory hnames _ hinner =>
      exact List.forall_mem_cons.2 ⟨hnames _ entry, ih (hinner _ entry)⟩

end Below

theorem WellNamed.of_cons (h : WellNamed (.directory ((name, tree) :: entries))) :
    IsName name ∧ tree.WellNamed ∧ WellNamed (.directory entries) := by
  cases h with
  | directory names nodup inner =>
    rw [List.forall_mem_cons] at names inner
    rw [List.map_cons, List.nodup_cons] at nodup
    exact ⟨names.1, inner.1, .directory names.2 nodup.2 inner.2⟩

mutual

/-- What the walk finds are the files below, but for those in directories named `.git`; their paths
are the names on the way to them. -/
theorem mem_filesIn {before : List String} (hbefore : ∀ name ∈ before, IsName name) :
    ∀ {entries : List (String × FileTree)}, WellNamed (.directory entries) →
      ((path, content) ∈ filesIn ("/".intercalate before) entries ↔
        ∃ names, Below entries names content ∧ ".git" ∉ names.dropLast ∧
          path = "/".intercalate (before ++ names))
  | [], _ => by simp [filesIn, Below.not_nil]
  | (name, tree) :: entries, hwell => by
    obtain ⟨hname, htree, hentries⟩ := hwell.of_cons
    rw [filesIn, List.mem_append, mem_entryFiles hbefore hname htree,
      mem_filesIn hbefore hentries, ← exists_or]
    apply exists_congr
    intro names
    rw [← or_and_right, ← Below.cons_iff]

theorem mem_entryFiles {before : List String} (hbefore : ∀ name ∈ before, IsName name)
    {name : String} (hname : IsName name) :
    ∀ {tree : FileTree}, tree.WellNamed →
      ((path, content) ∈ entryFiles ("/".intercalate before) name tree ↔
        ∃ names, Below [(name, tree)] names content ∧ ".git" ∉ names.dropLast ∧
          path = "/".intercalate (before ++ names))
  | .file content', _ => by
    simp only [entryFiles, List.mem_singleton, Prod.mk.injEq, join_intercalate hbefore,
      Below.file_iff]
    constructor
    · rintro ⟨rfl, rfl⟩
      exact ⟨[name], ⟨rfl, rfl⟩, List.not_mem_nil, rfl⟩
    · rintro ⟨_, ⟨rfl, rfl⟩, -, rfl⟩
      exact ⟨rfl, rfl⟩
  | .directory inner, hwell => by
    have hbefore' : ∀ n ∈ before ++ [name], IsName n :=
      List.forall_mem_append.2 ⟨hbefore, by simpa using hname⟩
    simp only [Below.directory_iff]
    rw [entryFiles]
    by_cases hgit : name = ".git"
    · rw [if_pos hgit]
      constructor
      · intro h
        cases h
      · rintro ⟨_, ⟨rest, rfl, hrest⟩, hnot, -⟩
        rw [List.dropLast_cons_of_ne_nil hrest.ne_nil] at hnot
        exact absurd (hgit ▸ List.mem_cons_self) hnot
    · rw [if_neg hgit, join_intercalate hbefore, mem_filesIn hbefore' hwell]
      constructor
      · rintro ⟨rest, hrest, hnot, rfl⟩
        refine ⟨name :: rest, ⟨rest, rfl, hrest⟩, ?_, by rw [List.append_assoc]; rfl⟩
        rw [List.dropLast_cons_of_ne_nil hrest.ne_nil, List.mem_cons, not_or]
        exact ⟨Ne.symm hgit, hnot⟩
      · rintro ⟨_, ⟨rest, rfl, hrest⟩, hnot, rfl⟩
        rw [List.dropLast_cons_of_ne_nil hrest.ne_nil, List.mem_cons, not_or] at hnot
        exact ⟨rest, hrest, hnot.2, by rw [List.append_assoc]; rfl⟩

end

namespace Rearranged

theorem exists_entry (h : Rearranged (.directory entries) (.directory entries'))
    (hentry : (name, tree) ∈ entries) :
    ∃ tree', (name, tree') ∈ entries' ∧ Rearranged tree tree' := by
  cases h with
  | directory hnames hinner =>
    obtain ⟨⟨_, tree'⟩, hentry', rfl⟩ := exists_fst_eq hentry hnames
    exact ⟨tree', hentry', hinner _ hentry _ hentry' rfl⟩

theorem symm (h : Rearranged tree tree') : Rearranged tree' tree := by
  induction h with
  | file content => exact .file content
  | directory hnames hinner ih =>
    exact .directory hnames.symm fun e' he' e he heq => ih e he e' he' heq.symm

theorem below_of_below (h : Rearranged (.directory entries) (.directory entries'))
    (hbelow : Below entries names content) : Below entries' names content := by
  induction hbelow generalizing entries' with
  | file entry =>
    obtain ⟨tree', hentry', htree⟩ := h.exists_entry entry
    cases htree
    exact .file hentry'
  | directory entry rest ih =>
    obtain ⟨tree', hentry', htree⟩ := h.exists_entry entry
    cases htree with
    | directory hnames hinner => exact .directory hentry' (ih (.directory hnames hinner))

theorem below_iff (h : Rearranged (.directory entries) (.directory entries')) :
    Below entries names content ↔ Below entries' names content :=
  ⟨h.below_of_below, h.symm.below_of_below⟩

theorem wellNamed (h : Rearranged tree tree') (hwell : tree.WellNamed) : tree'.WellNamed := by
  induction h with
  | file content => exact .file content
  | @directory entries entries' hnames hinner ih =>
    cases hwell with
    | directory names nodup inner =>
      refine .directory (fun e' he' => ?_) (hnames.nodup_iff.1 nodup) fun e' he' => ?_
      · obtain ⟨e, he, heq⟩ := exists_fst_eq he' hnames.symm
        rw [← heq]
        exact names e he
      · obtain ⟨e, he, heq⟩ := exists_fst_eq he' hnames.symm
        exact ih e he e' he' heq (inner e he)

end Rearranged

end AnswerSetTest.FileTree
