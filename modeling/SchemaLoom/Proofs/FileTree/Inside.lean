import SchemaLoom.Proofs.FileTree.Steps

/-! Searching in a directory from elsewhere, and searching there with it as the working directory. What
is found from elsewhere is found from within, and the other way round unless it gets out of reach once
it is joined onto the directory. Only the empty path is treated in different ways. -/

namespace SchemaLoom

namespace Glob

open FileNode FileTree

variable {tree : FileTree} {includeHidden onlyDirectories follows : Bool} {depth : Nat}
  {base directory name path : Path} {node : FileNode} {e : Path × FileNode}

theorem resolve_inside (hne : path ≠ [])
    (h : tree.resolve follows (Path.joinNonempty base path) = .ok node) :
    (tree.moveTo base).resolve follows path = .ok node := by
  rw [Path.joinNonempty_eq_join hne] at h
  exact resolve_moveTo_of_resolve_join hne h

theorem isDirectory_inside (h : tree.isDirectory (Path.joinNonempty base directory) = true)
    (hne : directory ≠ []) : (tree.moveTo base).isDirectory directory = true := by
  rw [FileTree.isDirectory_iff] at h ⊢
  obtain ⟨entries, hentries⟩ := h
  exact ⟨entries, resolve_inside hne hentries⟩

theorem contains_inside (h : tree.contains (Path.joinNonempty base path) = true)
    (hne : path ≠ []) : (tree.moveTo base).contains path = true := by
  rw [FileTree.contains_iff] at h ⊢
  obtain ⟨node, hnode⟩ := h
  exact ⟨node, resolve_inside hne hnode⟩

section Directory

variable (hbase : tree.isDirectory base = true)
include hbase

theorem askable_of_isDirectory :
    '\x00' ∉ base ∧ base ≠ [] ∧ ¬ tree.IsOutOfReach true base := by
  obtain ⟨entries, hentries⟩ := FileTree.isDirectory_iff.mp hbase
  obtain ⟨hnull, -, hne⟩ := askable_of_resolve hentries
  exact ⟨hnull, hne, reach_of_resolve hentries⟩

theorem resolve_joined (hne : path ≠ [])
    (hreach : ¬ tree.IsOutOfReach follows (Path.joinNonempty base path)) :
    (tree.moveTo base).resolve follows path =
      tree.resolve follows (Path.joinNonempty base path) := by
  obtain ⟨entries, hentries⟩ := FileTree.isDirectory_iff.mp hbase
  obtain ⟨stop, harrive, -⟩ := arrive_of_resolve hentries
  rw [Path.joinNonempty_eq_join hne] at hreach ⊢
  exact resolve_moveTo (askable_of_resolve hentries).1 harrive hne hreach

theorem isDirectory_joined (h : (tree.moveTo base).isDirectory directory = true)
    (hreach : ¬ tree.IsOutOfReach true (Path.joinNonempty base directory)) :
    tree.isDirectory (Path.joinNonempty base directory) = true := by
  rw [FileTree.isDirectory_iff] at h ⊢
  obtain ⟨entries, hentries⟩ := h
  exact ⟨entries, (resolve_joined hbase (askable_of_resolve hentries).2.2 hreach).symm.trans hentries⟩

theorem contains_joined (h : (tree.moveTo base).contains path = true)
    (hreach : ¬ tree.IsOutOfReach false (Path.joinNonempty base path)) :
    tree.contains (Path.joinNonempty base path) = true := by
  rw [FileTree.contains_iff] at h ⊢
  obtain ⟨node, hnode⟩ := h
  exact ⟨node, (resolve_joined hbase (askable_of_resolve hnode).2.2 hreach).symm.trans hnode⟩

/-- The directory itself, seen from within. -/
theorem lookup_moveTo_here : (tree.moveTo base).lookup ['.'] = tree.lookup base := by
  obtain ⟨entries, hentries⟩ := FileTree.isDirectory_iff.mp hbase
  obtain ⟨stop, harrive, hhere⟩ := arrive_of_resolve hentries
  have hstep : walkStep stop.2 ['.'] = .ok stop.2 := by
    simp [walkStep, hhere, FileNode.isDirectory]
  have hown : (tree.moveTo base).arrive true ['.'] = .ok (maxLinks, stop.2) := by
    rw [arrive, start_moveTo harrive (by simp)]
    change walk tree.root true maxLinks stop.2 [['.']] = _
    rw [walk_cons_of_node hstep (by rw [hhere]; rfl), walk]
  rw [hentries, lookup, resolve_of_arrive hown (by decide) (by decide) (by simp), ← hhere]

theorem entriesAt_joined (hreach : ¬ tree.IsOutOfReach true (Path.joinNonempty base directory)) :
    entriesAt (tree.moveTo base) directory = entriesAt tree (Path.joinNonempty base directory) := by
  obtain ⟨-, hne, -⟩ := askable_of_isDirectory hbase
  by_cases hnil : directory = []
  · simp only [entriesAt, hnil, Path.joinNonempty_nil_right, List.isEmpty_iff, hne, if_true, if_false,
      lookup_moveTo_here hbase]
  · have hlookup : (tree.moveTo base).lookup directory =
        tree.lookup (Path.joinNonempty base directory) := resolve_joined hbase hnil hreach
    have hjoined := Path.joinNonempty_ne_nil hne directory
    simp only [entriesAt, List.isEmpty_iff, hjoined, hnil, if_false, hlookup]

/-- From elsewhere a directory is searched as from within, or it is out of reach and searched in vain.
-/
theorem mem_entriesAt_inside (h : e ∈ entriesAt tree (Path.joinNonempty base directory)) :
    e ∈ entriesAt (tree.moveTo base) directory := by
  obtain ⟨-, hne, -⟩ := askable_of_isDirectory hbase
  by_cases hreach : tree.IsOutOfReach true (Path.joinNonempty base directory)
  · rw [entriesAt_of_outOfReach hreach (Path.joinNonempty_ne_nil hne directory)] at h
    cases h
  · rwa [entriesAt_joined hbase hreach]

variable (hnamed : tree.root.WellNamed) (hdirectory : directory.head? ≠ some '/')
include hnamed hdirectory

theorem mem_listing_inside
    (h : name ∈ listing tree onlyDirectories (Path.joinNonempty base directory)) :
    name ∈ listing (tree.moveTo base) onlyDirectories directory := by
  have hname := isFileName_of_mem_listing hnamed h
  obtain ⟨e, he, hkind, rfl⟩ := mem_listing_iff.mp h
  refine mem_listing_iff.mpr ⟨e, mem_entriesAt_inside hbase he, ?_, rfl⟩
  simp only [isDirectoryEntry, Bool.or_eq_true, Bool.and_eq_true] at hkind ⊢
  refine hkind.imp_right (Or.imp_right (And.imp_right fun hfound => ?_))
  rw [Path.joinNonempty_assoc hdirectory hname.head?_ne] at hfound
  exact isDirectory_inside hfound fun hnil => hname.nonempty
    (List.eq_nil_of_sublist_nil (hnil ▸ Path.sublist_joinNonempty directory e.1))

/-- A name that is kept because it is a link to a directory has to be in reach with the link followed.
-/
theorem mem_listing_joined (h : name ∈ listing (tree.moveTo base) onlyDirectories directory)
    (hreach : ¬ tree.IsOutOfReach onlyDirectories
      (Path.joinNonempty base (Path.joinNonempty directory name))) :
    name ∈ listing tree onlyDirectories (Path.joinNonempty base directory) := by
  have hname := isFileName_of_mem_listing (hnamed.moveTo base) h
  obtain ⟨e, he, hkind, rfl⟩ := mem_listing_iff.mp h
  rw [← Path.joinNonempty_assoc hdirectory hname.head?_ne] at hreach
  have hjoin := Path.joinNonempty_eq_join hname.nonempty (Path.joinNonempty base directory)
  have hdirectoryReach : ¬ tree.IsOutOfReach true (Path.joinNonempty base directory) := fun hout =>
    hreach (hjoin ▸ hout.join hname.head?_ne onlyDirectories)
  rw [entriesAt_joined hbase hdirectoryReach] at he
  refine mem_listing_iff.mpr ⟨e, he, ?_, rfl⟩
  cases onlyDirectories with
  | false => rfl
  | true =>
    simp only [isDirectoryEntry, Bool.or_eq_true, Bool.and_eq_true] at hkind ⊢
    refine hkind.imp_right (Or.imp_right (And.imp_right fun hfound => ?_))
    rw [Path.joinNonempty_assoc hdirectory hname.head?_ne] at hreach ⊢
    exact isDirectory_joined hbase hfound hreach

end Directory

section Descendants

variable (hbase : tree.isDirectory base = true) (hnamed : tree.root.WellNamed)
include hbase hnamed

theorem mem_descendants_inside (hdirectory : directory.head? ≠ some '/')
    (h : path ∈ descendants tree includeHidden onlyDirectories depth
      (Path.joinNonempty base directory)) :
    path ∈ descendants (tree.moveTo base) includeHidden onlyDirectories depth directory := by
  induction depth generalizing directory path with
  | zero => cases h
  | succ depth ih =>
    obtain ⟨name, hname, hshown, hpath⟩ := mem_descendants_succ_iff.mp h
    have hhead := (isFileName_of_mem_listing hnamed hname).head?_ne
    refine mem_descendants_succ_iff.mpr
      ⟨name, mem_listing_inside hbase hnamed hdirectory hname, hshown, ?_⟩
    refine hpath.imp_right fun ⟨rest, hrest, heq⟩ => ⟨rest, ?_, heq⟩
    rw [Path.joinNonempty_assoc hdirectory hhead] at hrest
    exact ih (Path.head?_joinNonempty hhead hdirectory) hrest

theorem mem_descendants_joined (hdirectory : directory.head? ≠ some '/')
    (h : path ∈ descendants (tree.moveTo base) includeHidden onlyDirectories depth directory)
    (hreach : ¬ tree.IsOutOfReach onlyDirectories
      (Path.joinNonempty base (Path.joinNonempty directory path))) :
    path ∈ descendants tree includeHidden onlyDirectories depth
      (Path.joinNonempty base directory) := by
  have hinside := hnamed.moveTo base
  induction depth generalizing directory path with
  | zero => cases h
  | succ depth ih =>
    obtain ⟨name, hname, hshown, hpath⟩ := mem_descendants_succ_iff.mp h
    have hhead := (isFileName_of_mem_listing hinside hname).head?_ne
    have hnext := Path.head?_joinNonempty hhead hdirectory
    -- The path goes on from the name, so the name is in reach as well.
    have hnameReach : ¬ tree.IsOutOfReach onlyDirectories
        (Path.joinNonempty base (Path.joinNonempty directory name)) := by
      obtain rfl | ⟨rest, hrest, rfl⟩ := hpath
      · exact hreach
      · have hrestHead := head?_of_mem_descendants hinside hrest
        have hrestNe : rest ≠ [] := fun hnil =>
          nil_notMem_descendants _ hinside.isProper _ _ _ (hnil ▸ hrest)
        rw [← Path.joinNonempty_assoc hhead hrestHead, ← Path.joinNonempty_assoc hnext hrestHead,
          Path.joinNonempty_eq_join hrestNe] at hreach
        exact fun hout => hreach (hout.join hrestHead onlyDirectories)
    refine mem_descendants_succ_iff.mpr
      ⟨name, mem_listing_joined hbase hnamed hdirectory hname hnameReach, hshown, ?_⟩
    refine hpath.imp_right fun ⟨rest, hrest, heq⟩ => ⟨rest, ?_, heq⟩
    rw [Path.joinNonempty_assoc hdirectory hhead]
    refine ih hnext hrest ?_
    rwa [heq, ← Path.joinNonempty_assoc hhead (head?_of_mem_descendants hinside hrest)] at hreach

end Descendants

end Glob

end SchemaLoom
