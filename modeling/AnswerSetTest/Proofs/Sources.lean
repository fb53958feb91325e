import Mathlib.Data.List.Sort
import AnswerSetTest.IgnoreFile
import AnswerSetTest.Proofs.FileTree
import AnswerSetTest.Proofs.Traversal

/-!
# Collected sources

The sources that paths stand for are the files among them, and the files below the directories among
them that the filter lets through. They are collected in the strict order of their paths, whatever
the order and number of the given paths, and whatever the order in which directories list their
entries.
-/

namespace AnswerSetTest

open SourcePath FileTree

theorem FileTree.Rearranged.content?_eq {tree tree' : FileTree} (h : Rearranged tree tree') :
    tree.content? = tree'.content? := by
  cases h with
  | file content => rfl
  | directory names inner => rfl

namespace Sources

variable {files files' : FileSystem} {filter : SourceFilter} {paths paths' : List String}
  {directory path : String} {entries entries' : List (String × FileTree)}
  {tree tree' : FileTree} {f g : SourceFile} {fs sources sources' : List SourceFile}

section Order

theorem dedup_cons (f : SourceFile) (fs : List SourceFile) :
    (∃ g gs, dedup fs = g :: gs ∧ key f.path = key g.path ∧ dedup (f :: fs) = f :: gs) ∨
      (∀ g ∈ (dedup fs).head?, key f.path ≠ key g.path) ∧ dedup (f :: fs) = f :: dedup fs := by
  rw [dedup]
  cases hrest : dedup fs with
  | nil => exact .inr ⟨fun g hg => (Option.not_mem_none g hg).elim, rfl⟩
  | cons g gs =>
    by_cases hkey : key f.path = key g.path
    · exact .inl ⟨g, gs, rfl, hkey, if_pos hkey⟩
    · refine .inr ⟨fun g' hg' => ?_, if_neg hkey⟩
      rwa [← Option.some.inj hg']

theorem mem_of_mem_dedup (h : f ∈ dedup fs) : f ∈ fs := by
  induction fs with
  | nil => exact h
  | cons g fs ih =>
    rcases dedup_cons g fs with ⟨g', gs, hrest, -, heq⟩ | ⟨-, heq⟩
    · rw [heq, List.mem_cons] at h
      rw [hrest] at ih
      exact List.mem_cons.2 (h.imp_right fun hmem => ih (List.mem_cons_of_mem _ hmem))
    · rw [heq, List.mem_cons] at h
      exact List.mem_cons.2 (h.imp_right ih)

theorem exists_mem_dedup (h : f ∈ fs) : ∃ g ∈ dedup fs, key g.path = key f.path := by
  induction fs with
  | nil => cases h
  | cons f' fs ih =>
    rcases dedup_cons f' fs with ⟨g', gs, hrest, hkey, heq⟩ | ⟨-, heq⟩
    · rw [heq]
      rcases List.mem_cons.1 h with rfl | h
      · exact ⟨f, List.mem_cons_self, rfl⟩
      · obtain ⟨g, hg, hgf⟩ := ih h
        rw [hrest] at hg
        rcases List.mem_cons.1 hg with rfl | hg
        · exact ⟨f', List.mem_cons_self, hkey.trans hgf⟩
        · exact ⟨g, List.mem_cons_of_mem _ hg, hgf⟩
    · rw [heq]
      rcases List.mem_cons.1 h with rfl | h
      · exact ⟨f, List.mem_cons_self, rfl⟩
      · obtain ⟨g, hg, hgf⟩ := ih h
        exact ⟨g, List.mem_cons_of_mem _ hg, hgf⟩

theorem pairwise_dedup (h : fs.Pairwise fun f g => key f.path ≤ key g.path) :
    (dedup fs).Pairwise fun f g => key f.path < key g.path := by
  induction fs with
  | nil => exact .nil
  | cons f fs ih =>
    obtain ⟨hhead, htail⟩ := List.pairwise_cons.1 h
    have hrest := ih htail
    have hle : ∀ g ∈ dedup fs, key f.path ≤ key g.path := fun g hg => hhead g (mem_of_mem_dedup hg)
    rcases dedup_cons f fs with ⟨g, gs, heq, hkey, hdedup⟩ | ⟨hne, hdedup⟩
    · rw [heq, List.pairwise_cons] at hrest
      rw [hdedup, List.pairwise_cons, hkey]
      exact hrest
    · rw [hdedup, List.pairwise_cons]
      refine ⟨fun g hg => ?_, hrest⟩
      cases hs : dedup fs with
      | nil =>
        rw [hs] at hg
        cases hg
      | cons g' gs =>
        rw [hs] at hne hle hrest hg
        have hlt : key f.path < key g'.path :=
          lt_of_le_of_ne (hle g' List.mem_cons_self) (hne g' rfl)
        rcases List.mem_cons.1 hg with rfl | hg
        · exact hlt
        · exact hlt.trans ((List.pairwise_cons.1 hrest).1 g hg)

theorem not_isBefore_iff {p q : String} : (!isBefore q p) = true ↔ key p ≤ key q := by
  rw [Bool.not_eq_true', ← Bool.not_eq_true, isBefore_iff, not_lt]

theorem pairwise_sort (fs : List SourceFile) :
    (sort fs).Pairwise fun f g => isBefore f.path g.path = true := by
  have htrans : ∀ f g h : SourceFile, (!isBefore g.path f.path) = true →
      (!isBefore h.path g.path) = true → (!isBefore h.path f.path) = true := by
    intro f g h hfg hgh
    rw [not_isBefore_iff] at hfg hgh ⊢
    exact hfg.trans hgh
  have htotal : ∀ f g : SourceFile,
      ((!isBefore g.path f.path) || !isBefore f.path g.path) = true := by
    intro f g
    rw [Bool.or_eq_true, not_isBefore_iff, not_isBefore_iff]
    exact le_total _ _
  have hsorted := (List.pairwise_mergeSort htrans htotal fs).imp not_isBefore_iff.1
  exact (pairwise_dedup hsorted).imp isBefore_iff.2

theorem mem_of_mem_sort (h : f ∈ sort fs) : f ∈ fs :=
  List.mem_mergeSort.1 (mem_of_mem_dedup h)

theorem exists_mem_sort (h : f ∈ fs) : ∃ g ∈ sort fs, key g.path = key f.path :=
  exists_mem_dedup (List.mem_mergeSort.2 h)

end Order

/-- The ignore file of a directory, if it is used, does not ignore the path below it. -/
def Kept (filter : SourceFilter) (directory : String) (entries : List (String × FileTree))
    (path : String) : Prop :=
  ∀ read ∈ filter.ignoreReader, ∀ tree ignores, (".gitignore", tree) ∈ entries →
    read directory tree.content? = .ok ignores → ignores path = false

/-- The sources that the paths stand for: the files among them, and the files below a directory
among them that are in no directory named `.git`, that an included pattern covers and no excluded
one, and that the ignore file of that directory keeps. -/
inductive IsSource (files : FileSystem) (filter : SourceFilter) (paths : List String) :
    SourceFile → Prop
  | given {path : String} {content : ByteArray} (mem : path ∈ paths)
      (file : files path = .ok (.file content)) : IsSource files filter paths ⟨path, content⟩
  | below {directory : String} {entries : List (String × FileTree)} {names : List String}
      {content : ByteArray} (mem : directory ∈ paths)
      (root : files directory = .ok (.directory entries)) (file : Below entries names content)
      (visible : ".git" ∉ names.dropLast)
      (included : ∃ covers ∈ filter.included, covers ("/".intercalate names) = true)
      (excluded : ∀ covers ∈ filter.excluded, covers ("/".intercalate names) = false)
      (kept : Kept filter directory entries ("/".intercalate names)) :
      IsSource files filter paths ⟨join directory ("/".intercalate names), content⟩

/-- The sources are those that the paths stand for, in the strict order of their paths. -/
structure Collected (files : FileSystem) (filter : SourceFilter) (paths : List String)
    (sources : List SourceFile) : Prop where
  ascending : sources.Pairwise fun f g => isBefore f.path g.path = true
  sound : ∀ f ∈ sources, IsSource files filter paths f
  complete : ∀ f, IsSource files filter paths f → f.path ∈ sources.map SourceFile.path

/-- The paths are in normal form and lead to well-named trees, whose ignore files can be read if
they are used. -/
structure Readable (files : FileSystem) (filter : SourceFilter) (paths : List String) : Prop where
  normal : ∀ path ∈ paths, IsNormal path
  tree : ∀ path ∈ paths, ∃ tree, files path = .ok tree ∧ tree.WellNamed
  ignored : ∀ read ∈ filter.ignoreReader, ∀ directory ∈ paths, ∀ entries tree,
    files directory = .ok (.directory entries) → (".gitignore", tree) ∈ entries →
    ∃ ignores, read directory tree.content? = .ok ignores

/-- The paths lead to the same trees, whose directories may list their entries in another order. -/
def Rearranges (files files' : FileSystem) (paths : List String) : Prop :=
  ∀ path ∈ paths, ∀ tree, files path = .ok tree →
    ∃ tree', files' path = .ok tree' ∧ Rearranged tree tree'

theorem selects_iff :
    filter.selects path = true ↔ (∃ covers ∈ filter.included, covers path = true) ∧
      ∀ covers ∈ filter.excluded, covers path = false := by
  simp [SourceFilter.selects]

theorem exists_ignored (hnodup : (entries.map Prod.fst).Nodup)
    (h : ∀ read ∈ filter.ignoreReader, ∀ tree, (".gitignore", tree) ∈ entries →
      ∃ ignores, read directory tree.content? = .ok ignores) :
    ∃ ignores, ignored filter directory entries = .ok ignores ∧
      ∀ path, ignores path = false ↔ Kept filter directory entries path := by
  unfold ignored
  cases hreader : filter.ignoreReader with
  | none =>
    refine ⟨_, rfl, fun path => iff_of_true rfl fun read hread => ?_⟩
    rw [hreader] at hread
    cases hread
  | some read =>
    cases hlookup : entries.lookup ".gitignore" with
    | none =>
      refine ⟨_, rfl, fun path => iff_of_true rfl fun _ _ tree ignores hmem => ?_⟩
      rw [← lookup_eq_some_iff hnodup, hlookup] at hmem
      cases hmem
    | some tree =>
      have hmem := (lookup_eq_some_iff hnodup).1 hlookup
      obtain ⟨ignores, hignores⟩ := h read hreader tree hmem
      refine ⟨ignores, hignores, fun path => ⟨fun hpath => ?_, fun hkept => ?_⟩⟩
      · intro read' hread' tree' ignores' hmem' hignores'
        rw [hreader, Option.mem_some_iff] at hread'
        rw [← lookup_eq_some_iff hnodup, hlookup, Option.some.injEq] at hmem'
        rw [← hread', ← hmem', hignores, Except.ok.injEq] at hignores'
        rwa [← hignores']
      · exact hkept read hreader tree ignores hmem hignores

theorem exists_scan (hdirectory : directory ∈ paths)
    (hroot : files directory = .ok (.directory entries)) (h : Readable files filter paths) :
    ∃ fs, scan filter directory entries = .ok fs ∧
      ∀ f, f ∈ fs ↔ IsSource files filter [directory] f := by
  obtain ⟨tree, htree, hwell⟩ := h.tree directory hdirectory
  rw [hroot, Except.ok.injEq] at htree
  subst htree
  have hnodup : (entries.map Prod.fst).Nodup := by
    cases hwell with
    | directory names nodup inner => exact nodup
  obtain ⟨ignores, hignores, hkept⟩ := exists_ignored hnodup fun read hread tree hmem =>
    h.ignored read hread directory hdirectory entries tree hroot hmem
  unfold scan
  rw [hignores]
  refine ⟨_, rfl, fun f => ?_⟩
  have hfound : ∀ path content, (path, content) ∈ filesIn "" entries ↔
      ∃ names, Below entries names content ∧ ".git" ∉ names.dropLast ∧
        path = "/".intercalate names := fun path content =>
    mem_filesIn (fun name hname => absurd hname List.not_mem_nil) hwell
  rw [List.mem_map]
  constructor
  · rintro ⟨⟨path, content⟩, hmem, rfl⟩
    rw [List.mem_filter, hfound, Bool.and_eq_true, Bool.not_eq_true', hkept, selects_iff] at hmem
    obtain ⟨⟨names, hbelow, hvisible, rfl⟩, ⟨hincluded, hexcluded⟩, hkeep⟩ := hmem
    exact .below (List.mem_singleton.2 rfl) hroot hbelow hvisible hincluded hexcluded hkeep
  · intro hf
    cases hf with
    | given mem file =>
      rw [List.mem_singleton.1 mem, hroot] at file
      cases file
    | @below directory' entries' names content mem root file visible included excluded kept =>
      obtain rfl := List.mem_singleton.1 mem
      rw [hroot, Except.ok.injEq, FileTree.directory.injEq] at root
      subst root
      refine ⟨("/".intercalate names, content), ?_, rfl⟩
      rw [List.mem_filter, hfound, Bool.and_eq_true, Bool.not_eq_true', hkept, selects_iff]
      exact ⟨⟨names, file, visible, rfl⟩, ⟨included, excluded⟩, kept⟩

theorem exists_ofPath (h : Readable files filter paths) (hpath : path ∈ paths) :
    ∃ fs, ofPath files filter path = .ok fs ∧ ∀ f, f ∈ fs ↔ IsSource files filter [path] f := by
  obtain ⟨tree, htree, -⟩ := h.tree path hpath
  unfold ofPath
  rw [htree]
  cases tree with
  | directory entries => exact exists_scan hpath htree h
  | file content =>
    refine ⟨[⟨path, content⟩], rfl, fun f => ⟨fun hf => ?_, fun hf => ?_⟩⟩
    · rw [List.mem_singleton.1 hf]
      exact .given (List.mem_singleton.2 rfl) htree
    · cases hf with
      | given mem file =>
        rw [List.mem_singleton.1 mem, htree] at file
        cases file
        rw [List.mem_singleton.1 mem, List.mem_singleton]
      | below mem root file visible included excluded kept =>
        rw [List.mem_singleton.1 mem, htree] at root
        cases root

namespace IsSource

theorem mono (h : IsSource files filter paths f) (hsub : paths ⊆ paths') :
    IsSource files filter paths' f := by
  cases h with
  | given mem file => exact .given (hsub mem) file
  | below mem root file visible included excluded kept =>
    exact .below (hsub mem) root file visible included excluded kept

theorem iff_exists_mem : IsSource files filter paths f ↔
    ∃ path ∈ paths, IsSource files filter [path] f := by
  constructor
  · intro h
    cases h with
    | given mem file => exact ⟨_, mem, .given (List.mem_singleton.2 rfl) file⟩
    | below mem root file visible included excluded kept =>
      exact ⟨_, mem, .below (List.mem_singleton.2 rfl) root file visible included excluded kept⟩
  · rintro ⟨path, hpath, h⟩
    exact h.mono (List.cons_subset.2 ⟨hpath, List.nil_subset _⟩)

theorem isNormal (h : IsSource files filter paths f) (hread : Readable files filter paths) :
    IsNormal f.path := by
  cases h with
  | given mem file => exact hread.normal _ mem
  | below mem root file visible included excluded kept =>
    obtain ⟨tree, htree, hwell⟩ := hread.tree _ mem
    rw [root, Except.ok.injEq] at htree
    subst htree
    exact (hread.normal _ mem).join_intercalate file.ne_nil (file.isName hwell)

theorem of_rearranges (h : IsSource files filter paths f) (hfiles : Rearranges files files' paths) :
    IsSource files' filter paths f := by
  cases h with
  | given mem file =>
    obtain ⟨tree', htree', hsame⟩ := hfiles _ mem _ file
    cases hsame
    exact .given mem htree'
  | @below directory entries names content mem root file visible included excluded kept =>
    obtain ⟨tree', htree', hsame⟩ := hfiles _ mem _ root
    cases hsame with
    | @directory _ entries' hnames hinner =>
      have hsame : Rearranged (.directory entries) (.directory entries') := .directory hnames hinner
      refine .below mem htree' (hsame.below_iff.1 file) visible included excluded ?_
      intro read hread tree' ignores hmem' hignores
      obtain ⟨tree, hmem, htree⟩ := hsame.symm.exists_entry hmem'
      apply kept read hread tree ignores hmem
      rwa [← htree.content?_eq]

end IsSource

theorem Readable.mono (h : Readable files filter paths) (hsub : paths' ⊆ paths) :
    Readable files filter paths' where
  normal path hpath := h.normal path (hsub hpath)
  tree path hpath := h.tree path (hsub hpath)
  ignored read hread directory hdirectory := h.ignored read hread directory (hsub hdirectory)

theorem Readable.of_rearranges (h : Readable files filter paths)
    (hfiles : Rearranges files files' paths) : Readable files' filter paths where
  normal := h.normal
  tree path hpath := by
    obtain ⟨tree, htree, hwell⟩ := h.tree path hpath
    obtain ⟨tree', htree', hsame⟩ := hfiles path hpath tree htree
    exact ⟨tree', htree', hsame.wellNamed hwell⟩
  ignored read hread directory hdirectory entries' tree' hroot' hmem' := by
    obtain ⟨tree, htree, -⟩ := h.tree directory hdirectory
    obtain ⟨tree'', htree'', hsame⟩ := hfiles directory hdirectory tree htree
    rw [hroot', Except.ok.injEq] at htree''
    subst htree''
    cases hsame with
    | @directory entries _ hnames hinner =>
      have hsame : Rearranged (.directory entries) (.directory entries') := .directory hnames hinner
      obtain ⟨tree, hmem, hcontent⟩ := hsame.symm.exists_entry hmem'
      rw [hcontent.content?_eq]
      exact h.ignored read hread directory hdirectory entries tree htree hmem

theorem Rearranges.symm (hfiles : Rearranges files files' paths)
    (h : Readable files filter paths) : Rearranges files' files paths := by
  intro path hpath tree' htree'
  obtain ⟨tree, htree, -⟩ := h.tree path hpath
  obtain ⟨tree'', htree'', hsame⟩ := hfiles path hpath tree htree
  rw [htree', Except.ok.injEq] at htree''
  subst htree''
  exact ⟨tree, htree, hsame.symm⟩

theorem exists_found (h : Readable files filter paths) :
    ∃ found, paths.mapM (ofPath files filter) = .ok found ∧
      ∀ f, f ∈ found.flatten ↔ IsSource files filter paths f := by
  rcases mapM_cases (ofPath files filter) paths with ⟨found, hfound, hall⟩ | ⟨e, -, path, hpath, he⟩
  · refine ⟨found, hfound, fun f => ?_⟩
    obtain ⟨hleft, hright⟩ := exists_mem_of_forall₂ hall
    have hofPath : ∀ path ∈ paths, ∀ fs, ofPath files filter path = .ok fs →
        ∀ f, f ∈ fs ↔ IsSource files filter [path] f := by
      intro path hpath fs hfs
      obtain ⟨fs', hfs', hmem⟩ := exists_ofPath h hpath
      rw [hfs', Except.ok.injEq] at hfs
      exact hfs ▸ hmem
    rw [List.mem_flatten, IsSource.iff_exists_mem]
    constructor
    · rintro ⟨fs, hfs, hf⟩
      obtain ⟨path, hpath, hok⟩ := hright fs hfs
      exact ⟨path, hpath, (hofPath path hpath fs hok f).1 hf⟩
    · rintro ⟨path, hpath, hf⟩
      obtain ⟨fs, hfs, hok⟩ := hleft path hpath
      exact ⟨fs, hfs, (hofPath path hpath fs hok f).2 hf⟩
  · obtain ⟨fs, hfs, -⟩ := exists_ofPath h hpath
    rw [he] at hfs
    cases hfs

theorem collect_of_found {found : List (List SourceFile)}
    (h : paths.mapM (ofPath files filter) = .ok found) :
    collect files filter paths =
      if sort found.flatten = [] then .error (.read (paths.headD "") .noSources)
      else .ok (sort found.flatten) := by
  unfold collect
  rw [h]
  cases hsort : sort found.flatten with
  | nil =>
    simp only [bind, Except.bind, hsort]
    rfl
  | cons f fs =>
    simp only [bind, Except.bind, hsort]
    rfl

/-- The sources are collected, or there are none and the first path is to blame. -/
theorem collect_cases (h : Readable files filter paths) :
    (∃ sources, collect files filter paths = .ok sources ∧ sources ≠ [] ∧
      Collected files filter paths sources) ∨
    (collect files filter paths = .error (.read (paths.headD "") .noSources) ∧
      ∀ f, ¬ IsSource files filter paths f) := by
  obtain ⟨found, hfound, hmem⟩ := exists_found h
  have hcollected : Collected files filter paths (sort found.flatten) := by
    refine ⟨pairwise_sort _, fun f hf => (hmem f).1 (mem_of_mem_sort hf), fun f hf => ?_⟩
    obtain ⟨g, hg, hkey⟩ := exists_mem_sort ((hmem f).2 hf)
    have hsource := (hmem g).1 (mem_of_mem_sort hg)
    rw [(hf.isNormal h).eq_of_key_eq (hsource.isNormal h) hkey.symm]
    exact List.mem_map_of_mem hg
  rw [collect_of_found hfound]
  by_cases hsort : sort found.flatten = []
  · rw [if_pos hsort]
    refine .inr ⟨rfl, fun f hf => ?_⟩
    have hpath := hcollected.complete f hf
    rw [hsort] at hpath
    cases hpath
  · rw [if_neg hsort]
    exact .inl ⟨_, rfl, hsort, hcollected⟩

theorem eq_of_mem_iff {α : Type} {path : α → String} {xs ys : List α}
    (hxs : xs.Pairwise fun x y => isBefore (path x) (path y) = true)
    (hys : ys.Pairwise fun x y => isBefore (path x) (path y) = true)
    (h : ∀ x, x ∈ xs ↔ x ∈ ys) : xs = ys := by
  have hirrefl : Std.Irrefl fun x y => isBefore (path x) (path y) = true :=
    ⟨fun x hx => lt_irrefl _ (isBefore_iff.1 hx)⟩
  have hantisymm : Std.Antisymm fun x y => isBefore (path x) (path y) = true :=
    ⟨fun x y hxy hyx => absurd (isBefore_iff.1 hxy) (isBefore_iff.1 hyx).asymm⟩
  exact hxs.eq_of_mem_iff hys h

namespace Collected

theorem congr (h : Collected files filter paths sources)
    (hsource : ∀ f, IsSource files filter paths f ↔ IsSource files' filter paths' f) :
    Collected files' filter paths' sources where
  ascending := h.ascending
  sound f hf := (hsource f).1 (h.sound f hf)
  complete f hf := h.complete f ((hsource f).2 hf)

theorem mem_paths_iff (h : Collected files filter paths sources) :
    path ∈ sources.map SourceFile.path ↔ ∃ f, IsSource files filter paths f ∧ f.path = path := by
  rw [List.mem_map]
  constructor
  · rintro ⟨f, hf, rfl⟩
    exact ⟨f, h.sound f hf, rfl⟩
  · rintro ⟨f, hf, rfl⟩
    exact List.mem_map.1 (h.complete f hf)

theorem ascending_paths (h : Collected files filter paths sources) :
    (sources.map SourceFile.path).Pairwise fun p q => isBefore (id p) (id q) = true :=
  List.pairwise_map.2 h.ascending

theorem paths_eq (h : Collected files filter paths sources)
    (h' : Collected files filter paths sources') :
    sources'.map SourceFile.path = sources.map SourceFile.path := by
  apply eq_of_mem_iff h'.ascending_paths h.ascending_paths
  intro path
  rw [h.mem_paths_iff, h'.mem_paths_iff]

/-- Where a path has one content, the sources are determined. -/
theorem mem_iff (h : Collected files filter paths sources)
    (hone : ∀ f g, IsSource files filter paths f → IsSource files filter paths g →
      f.path = g.path → f = g) : f ∈ sources ↔ IsSource files filter paths f := by
  refine ⟨h.sound f, fun hf => ?_⟩
  obtain ⟨g, hg, hpath⟩ := List.mem_map.1 (h.complete f hf)
  rwa [hone f g hf (h.sound g hg) hpath.symm]

end Collected

theorem collect_rearranged (h : Readable files filter paths)
    (hfiles : Rearranges files files' paths) (hpaths : ∀ p, p ∈ paths' ↔ p ∈ paths)
    (hok : collect files filter paths = .ok sources) :
    ∃ sources', collect files' filter paths' = .ok sources' ∧
      sources'.map SourceFile.path = sources.map SourceFile.path ∧
      ((∀ f g, IsSource files filter paths f → IsSource files filter paths g →
        f.path = g.path → f = g) → sources' = sources) := by
  have hsource : ∀ f, IsSource files' filter paths' f ↔ IsSource files filter paths f := fun f =>
    ⟨fun hf => (hf.mono fun p hp => (hpaths p).1 hp).of_rearranges (hfiles.symm h),
      fun hf => (hf.of_rearranges hfiles).mono fun p hp => (hpaths p).2 hp⟩
  have h' : Readable files' filter paths' :=
    (h.of_rearranges hfiles).mono fun p hp => (hpaths p).1 hp
  rcases collect_cases h with ⟨_, hok₁, hne, hcollected⟩ | ⟨herror, -⟩
  · rw [hok, Except.ok.injEq] at hok₁
    subst hok₁
    obtain ⟨f, hf⟩ := List.exists_mem_of_ne_nil sources hne
    rcases collect_cases h' with ⟨sources', hok', -, hcollected'⟩ | ⟨-, hnone⟩
    · have hcollected' := hcollected'.congr hsource
      refine ⟨sources', hok', hcollected.paths_eq hcollected', fun hone => ?_⟩
      apply eq_of_mem_iff hcollected'.ascending hcollected.ascending
      intro f
      rw [hcollected.mem_iff hone, hcollected'.mem_iff hone]
    · exact absurd ((hsource f).2 (hcollected.sound f hf)) (hnone f)
  · rw [hok] at herror
    cases herror

/-- The collected sources are exactly those that the paths stand for, in the strict order of their
paths, and there is an error only if there are none. Neither the order of the paths, nor repeated
paths, nor the order in which directories list their entries changes a result. -/
theorem collect_exact (h : Readable files filter paths) :
    ((∃ f, IsSource files filter paths f) →
      ∃ sources, collect files filter paths = .ok sources ∧
        Collected files filter paths sources) ∧
    ((¬ ∃ f, IsSource files filter paths f) →
      collect files filter paths = .error (.read (paths.headD "") .noSources)) ∧
    ∀ files' paths' sources, Rearranges files files' paths → (∀ p, p ∈ paths' ↔ p ∈ paths) →
      collect files filter paths = .ok sources →
      ∃ sources', collect files' filter paths' = .ok sources' ∧
        sources'.map SourceFile.path = sources.map SourceFile.path ∧
        ((∀ f g, IsSource files filter paths f → IsSource files filter paths g →
          f.path = g.path → f = g) → sources' = sources) := by
  refine ⟨fun ⟨f, hf⟩ => ?_, fun hnone => ?_, fun files' paths' sources hfiles hpaths hok => ?_⟩
  · rcases collect_cases h with ⟨sources, hok, -, hcollected⟩ | ⟨-, hnone⟩
    · exact ⟨sources, hok, hcollected⟩
    · exact absurd hf (hnone f)
  · rcases collect_cases h with ⟨sources, -, hne, hcollected⟩ | ⟨herror, -⟩
    · obtain ⟨f, hf⟩ := List.exists_mem_of_ne_nil sources hne
      exact absurd ⟨f, hcollected.sound f hf⟩ hnone
    · exact herror
  · exact collect_rearranged h hfiles hpaths hok

def sampleEntries : List (String × FileTree) :=
  [(".gitignore", .file "b.lp\n".toUTF8), ("b.lp", .file ⟨#[]⟩),
    (".git", .directory [("c.lp", .file ⟨#[]⟩)]), ("a.lp", .file ⟨#[]⟩),
    ("inner", .directory [("d.lp", .file ⟨#[]⟩)])]

def sampleFiles : FileSystem := fun path =>
  if path = "src" then .ok (.directory sampleEntries)
  else if path = "src/a.lp" then .ok (.file ⟨#[]⟩)
  else .error .notFound

def samplePaths : List String := ["src/a.lp", "src", "src/a.lp"]

def sampleFilter : SourceFilter :=
  ⟨[Glob.covers ⟨[.star, .literal '.', .literal 'l', .literal 'p'], false⟩], [],
    some IgnoreFile.reader⟩

theorem exists_reader_sample : ∃ ignores,
    IgnoreFile.reader "src" (.ok "b.lp\n".toUTF8) = .ok ignores ∧
      ignores "b.lp" = true ∧ ignores "inner/d.lp" = false := by
  have h : (IgnoreFile.reader "src" (.ok "b.lp\n".toUTF8)).toOption.map
      (fun ignores => (ignores "b.lp", ignores "inner/d.lp")) = some (true, false) := by
    decide +kernel
  cases hread : IgnoreFile.reader "src" (.ok "b.lp\n".toUTF8) with
  | error fault =>
    rw [hread] at h
    cases h
  | ok ignores =>
    rw [hread] at h
    have h : (ignores "b.lp", ignores "inner/d.lp") = (true, false) := Option.some.inj h
    exact ⟨ignores, rfl, congrArg Prod.fst h, congrArg Prod.snd h⟩

theorem ignoreFile_of_mem {tree : FileTree} (h : (".gitignore", tree) ∈ sampleEntries) :
    tree = .file "b.lp\n".toUTF8 := by
  simpa [sampleEntries] using h

theorem kept_sample_iff {ignores : String → Bool}
    (h : IgnoreFile.reader "src" (.ok "b.lp\n".toUTF8) = .ok ignores) :
    Kept sampleFilter "src" sampleEntries path ↔ ignores path = false := by
  constructor
  · exact fun hkept => hkept _ rfl _ _ (List.mem_cons_self ..) h
  · intro hpath read hread tree ignores' hmem hignores
    cases hread
    rw [ignoreFile_of_mem hmem] at hignores
    have heq : ignores = ignores' := Except.ok.inj (h.symm.trans hignores)
    rwa [← heq]

theorem wellNamed_sampleEntries : WellNamed (.directory sampleEntries) := by
  have hone : ∀ name : String, SourcePath.IsName name →
      WellNamed (.directory [(name, .file ⟨#[]⟩)]) := by
    intro name hname
    apply WellNamed.directory
    · exact fun e he => List.mem_singleton.1 he ▸ hname
    · exact List.nodup_singleton name
    · exact fun e he => List.mem_singleton.1 he ▸ .file _
  refine .directory (by simp only [sampleEntries]; decide) (by decide) fun e he => ?_
  simp only [sampleEntries, List.mem_cons, List.not_mem_nil, or_false] at he
  rcases he with rfl | rfl | rfl | rfl | rfl
  · exact .file _
  · exact .file _
  · exact hone "c.lp" (by decide)
  · exact .file _
  · exact hone "d.lp" (by decide)

theorem mem_samplePaths : path ∈ samplePaths ↔ path = "src" ∨ path = "src/a.lp" := by
  simp only [samplePaths, List.mem_cons, List.not_mem_nil]
  tauto

theorem readable_sampleFiles : Readable sampleFiles sampleFilter samplePaths where
  normal := by decide
  tree path hpath := by
    rcases mem_samplePaths.1 hpath with rfl | rfl
    · exact ⟨_, rfl, wellNamed_sampleEntries⟩
    · exact ⟨_, rfl, .file _⟩
  ignored read hread directory hdirectory entries tree hroot hmem := by
    cases hread
    rcases mem_samplePaths.1 hdirectory with rfl | rfl
    · cases hroot
      obtain ⟨ignores, hignores, -⟩ := exists_reader_sample
      rw [ignoreFile_of_mem hmem]
      exact ⟨ignores, hignores⟩
    · cases hroot

/-- The sources are `a.lp`, which is given twice and found once more, and `inner/d.lp`. -/
theorem exists_isSource_sample_iff :
    (∃ f, IsSource sampleFiles sampleFilter samplePaths f ∧ f.path = path) ↔
      path ∈ ["src/a.lp", "src/inner/d.lp"] := by
  obtain ⟨ignores, hignores, hb, hd⟩ := exists_reader_sample
  have hgiven : join "src" "a.lp" ∈ ["src/a.lp", "src/inner/d.lp"] := by decide +kernel
  have hbelow : join "src" "inner/d.lp" ∈ ["src/a.lp", "src/inner/d.lp"] := by decide +kernel
  constructor
  · rintro ⟨f, hf, rfl⟩
    cases hf with
    | given mem file =>
      rcases mem_samplePaths.1 mem with rfl | rfl
      · cases file
      · exact List.mem_cons_self
    | @below directory entries names content mem root file visible included excluded kept =>
      rcases mem_samplePaths.1 mem with rfl | rfl
      · cases root
        have hfound : ("/".intercalate names, content) ∈ filesIn "" sampleEntries :=
          (mem_filesIn (fun name hname => absurd hname List.not_mem_nil)
            wellNamed_sampleEntries).2 ⟨names, file, visible, rfl⟩
        rw [kept_sample_iff hignores] at kept
        have hpaths : (filesIn "" sampleEntries).map Prod.fst =
          [".gitignore", "b.lp", "a.lp", "inner/d.lp"] := by decide +kernel
        have hpath := hpaths ▸ List.mem_map_of_mem hfound
        generalize "/".intercalate names = path at *
        simp only [List.mem_cons, List.not_mem_nil, or_false] at hpath
        rcases hpath with rfl | rfl | rfl | rfl
        · exact absurd included (by decide +kernel)
        · rw [hb] at kept
          cases kept
        · exact hgiven
        · exact hbelow
      · cases root
  · have ha : IsSource sampleFiles sampleFilter samplePaths ⟨"src/a.lp", ⟨#[]⟩⟩ :=
      .given List.mem_cons_self rfl
    have hentry : ("inner", directory [("d.lp", .file ⟨#[]⟩)]) ∈ sampleEntries := by
      simp [sampleEntries]
    have hfile : Below sampleEntries ["inner", "d.lp"] ⟨#[]⟩ :=
      .directory hentry (.file List.mem_cons_self)
    have hinner : IsSource sampleFiles sampleFilter samplePaths
        ⟨join "src" ("/".intercalate ["inner", "d.lp"]), ⟨#[]⟩⟩ :=
      .below (mem_samplePaths.2 (.inl rfl)) rfl hfile (by decide) (by decide +kernel) (by decide)
        ((kept_sample_iff hignores).2 hd)
    intro hpath
    rcases List.mem_pair.1 hpath with rfl | rfl
    · exact ⟨_, ha, rfl⟩
    · exact ⟨_, hinner, by decide +kernel⟩

theorem collect_exact_sampleFiles :
    Readable sampleFiles sampleFilter samplePaths ∧
      ∃ sources, collect sampleFiles sampleFilter samplePaths = .ok sources ∧
        sources.map SourceFile.path = ["src/a.lp", "src/inner/d.lp"] := by
  have hsource : IsSource sampleFiles sampleFilter samplePaths ⟨"src/a.lp", ⟨#[]⟩⟩ :=
    .given List.mem_cons_self rfl
  obtain ⟨sources, hok, hcollected⟩ := (collect_exact readable_sampleFiles).1 ⟨_, hsource⟩
  refine ⟨readable_sampleFiles, sources, hok, ?_⟩
  have hpaths : (["src/a.lp", "src/inner/d.lp"] : List String).Pairwise
      fun p q => isBefore (id p) (id q) = true := by decide
  apply eq_of_mem_iff hcollected.ascending_paths hpaths
  intro path
  rw [hcollected.mem_paths_iff, exists_isSource_sample_iff]

end Sources

end AnswerSetTest
