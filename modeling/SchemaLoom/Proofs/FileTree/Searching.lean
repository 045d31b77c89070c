import Mathlib.Data.List.Perm.Basic
import SchemaLoom.Proofs.FileTree.Relisting

/-! Searching for a pattern in trees whose directories are listed in different orders. The same paths
are found, each as often. The path of the directory where the search begins comes first, in whatever
order the others come. -/

namespace SchemaLoom

namespace Glob

open FileNode

variable {tree other : FileTree} (options : GlobOptions) (onlyDirectories : Bool)

/-- What the last component of a pattern stands for in a directory that was found for the first
part, with the path of the directory. -/
def stepIn (tree : FileTree) (name directory : Path) : Except GlobFault (List Path) := do
  let names ← step tree options onlyDirectories
    (Path.joinNonempty (options.root.join.getD []) directory) name
  return names.map (Path.join directory)

/-- The directories that are found for the first part of a pattern. -/
def heads (tree : FileTree) (pattern : Path) : Except GlobFault (List Path) :=
  let head := (Path.split pattern).1
  if head ≠ pattern ∧ hasMagic head then search tree options true head else .ok [head]

theorem search_plain (tree : FileTree) {pattern : Path} (h : hasMagic pattern = false) :
    search tree options onlyDirectories pattern =
      .ok (plain tree (options.root.join.getD []) pattern) := by
  rw [search]
  simp [h]

theorem search_name (tree : FileTree) {pattern : Path} (h : hasMagic pattern = true)
    (hhead : (Path.split pattern).1 = []) :
    search tree options onlyDirectories pattern =
      step tree options onlyDirectories (options.root.join.getD []) (Path.split pattern).2 := by
  rw [search]
  simp [h, hhead]

theorem search_path (tree : FileTree) {pattern : Path} (h : hasMagic pattern = true)
    (hhead : (Path.split pattern).1 ≠ []) :
    search tree options onlyDirectories pattern = do
      let directories ← heads options tree pattern
      let found ← directories.mapM (stepIn options onlyDirectories tree (Path.split pattern).2)
      return found.flatten := by
  rw [search, h, if_neg (by simp)]
  dsimp only
  rw [if_neg (by simpa using hhead), heads]
  split <;> rfl

section Listing

variable {includeHidden : Bool} {depth : Nat} {base path name : Path} {onlyDirectories}

theorem listing_sublist (tree : FileTree) (onlyDirectories : Bool) (path : Path) :
    (listing tree onlyDirectories path).Sublist ((entriesAt tree path).map Prod.fst) :=
  List.filter_sublist.map Prod.fst

theorem mem_listing_iff : name ∈ listing tree onlyDirectories path ↔
    ∃ e ∈ entriesAt tree path,
      (!onlyDirectories || isDirectoryEntry tree path e) = true ∧ e.1 = name := by
  simp only [listing, List.mem_map, List.mem_filter, and_assoc]

/-- What is below a directory is an entry of it, or below one. -/
theorem mem_descendants_succ_iff :
    path ∈ descendants tree includeHidden onlyDirectories (depth + 1) base ↔
      ∃ name ∈ listing tree onlyDirectories base, (includeHidden || !isHidden name) = true ∧
        (path = name ∨ ∃ rest ∈ descendants tree includeHidden onlyDirectories depth
          (Path.joinNonempty base name), path = Path.joinNonempty name rest) := by
  simp only [descendants, List.mem_flatMap, List.mem_filter, List.mem_cons, List.mem_map, and_assoc,
    @eq_comm _ path]

theorem entriesAt_of_outOfReach (h : tree.IsOutOfReach true path) (hne : path ≠ []) :
    entriesAt tree path = [] := by
  unfold entriesAt
  rw [if_neg (by simpa using hne)]
  split
  · rename_i node hlookup
    exact absurd h (FileTree.reach_of_resolve hlookup)
  · rfl

/-- What holds of a node and goes over to entries holds of a directory that is searched. -/
theorem keeps_entriesAt {holds : FileNode → Prop}
    (hchild : ∀ node child name, holds node → node.child? name = some child → holds child)
    (hroot : holds tree.root) (hnone : holds (.directory [])) (path : Path) :
    ∃ node, holds node ∧ entriesAt tree path = node.entries := by
  unfold entriesAt
  split
  · rename_i node hlookup
    exact ⟨node, FileTree.keeps_resolve hchild hroot hlookup, rfl⟩
  · exact ⟨.directory [], hnone, rfl⟩

end Listing

section Proper

variable (hproper : tree.root.IsProper)
include hproper

theorem proper_entriesAt (path : Path) : ((entriesAt tree path).map Prod.fst).Nodup ∧
    ∀ e ∈ entriesAt tree path, e.1 ≠ [] := by
  have hkept := keeps_entriesAt (fun node child name hnode hchild => ?_) hproper
    (.directory (by simp) (by simp) (by simp)) path
  · obtain ⟨node, hnode, hentries⟩ := hkept
    rw [hentries]
    exact ⟨hnode.entries.1, fun e he => (hnode.entries.2 e he).1⟩
  · obtain ⟨e, he, rfl⟩ := Option.map_eq_some_iff.mp hchild
    exact (hnode.entries.2 e (List.mem_of_find?_eq_some he)).2

theorem nil_notMem_listing (path : Path) : [] ∉ listing tree onlyDirectories path := by
  intro hm
  obtain ⟨e, he, -, hnil⟩ := mem_listing_iff.mp hm
  exact (proper_entriesAt hproper path).2 e he hnil

theorem nil_notMem_descendants (includeHidden : Bool) (depth : Nat) (path : Path) :
    [] ∉ descendants tree includeHidden onlyDirectories depth path := by
  cases depth with
  | zero => simp [descendants]
  | succ depth =>
    rw [mem_descendants_succ_iff]
    rintro ⟨name, hname, -, rfl | ⟨rest, -, hnil⟩⟩
    · exact nil_notMem_listing onlyDirectories hproper path hname
    · have hne : name ≠ [] := fun hnil =>
        nil_notMem_listing onlyDirectories hproper path (hnil ▸ hname)
      exact Path.joinNonempty_ne_nil hne rest hnil.symm

end Proper

section Alike

variable (hproper : tree.root.IsProper) (h : tree.Relisted other)
include hproper h

theorem entriesAt_perm (path : Path) :
    ((entriesAt tree path).map fun e => (e.1, e.2.isDirectory, e.2.target?)).Perm
      ((entriesAt other path).map fun e => (e.1, e.2.isDirectory, e.2.target?)) := by
  have hlookup := FileTree.lookup_alike hproper h (if path.isEmpty then ['.'] else path)
  unfold entriesAt
  generalize tree.lookup (if path.isEmpty then ['.'] else path) = found,
    other.lookup (if path.isEmpty then ['.'] else path) = own at hlookup
  cases hlookup with
  | ok hnode => exact hnode.2.listing_perm
  | error fault => exact .refl _

theorem listing_perm (path : Path) :
    (listing tree onlyDirectories path).Perm (listing other onlyDirectories path) := by
  -- Of a node, only its being a directory or a link to one is asked for.
  let kept : Path × Bool × Option Path → Bool := fun e =>
    !onlyDirectories || (e.2.1 || (e.2.2.isSome && tree.isDirectory (Path.joinNonempty path e.1)))
  have hlisting := ((entriesAt_perm hproper h path).filter kept).map Prod.fst
  simpa [List.filter_map, Function.comp_def, kept, listing, isDirectoryEntry,
    FileTree.isDirectory_eq hproper h] using hlisting

theorem descendants_perm (includeHidden : Bool) (depth : Nat) (path : Path) :
    (descendants tree includeHidden onlyDirectories depth path).Perm
      (descendants other includeHidden onlyDirectories depth path) := by
  induction depth generalizing path with
  | zero => exact .refl _
  | succ depth ih =>
    have hlisting := (listing_perm onlyDirectories hproper h path).filter fun name =>
      includeHidden || !isHidden name
    exact (List.Perm.flatMap_left _ fun name _ =>
      ((ih (Path.joinNonempty path name)).map _).cons name).trans (hlisting.flatMap_right _)

theorem below_alike (path : Path) :
    EndsAlike List.Perm (below tree options onlyDirectories path)
      (below other options onlyDirectories path) := by
  unfold below
  rw [FileTree.isDirectory_eq hproper h]
  cases checkPath path with
  | error fault => exact .error fault
  | ok _ =>
    exact .ok ((descendants_perm onlyDirectories hproper h options.includeHidden maxDepth path
      ).append_left _)

theorem matching_alike (path pattern : Path) :
    EndsAlike List.Perm (matching tree options onlyDirectories path pattern)
      (matching other options onlyDirectories path pattern) := by
  unfold matching
  cases checkPath path with
  | error fault => exact .error fault
  | ok _ => exact .ok ((listing_perm onlyDirectories hproper h path).filter _)

theorem exactly_eq (path name : Path) : exactly tree path name = exactly other path name := by
  rw [exactly, exactly, FileTree.isDirectory_eq hproper h, FileTree.contains_eq hproper h]

theorem plain_eq (root path : Path) : plain tree root path = plain other root path := by
  simp only [plain, FileTree.isDirectory_eq hproper h, FileTree.contains_eq hproper h]

theorem step_alike (path name : Path) :
    EndsAlike List.Perm (step tree options onlyDirectories path name)
      (step other options onlyDirectories path name) := by
  unfold step
  split
  · rw [exactly_eq hproper h]
    exact .ok (.refl _)
  split
  · exact below_alike options onlyDirectories hproper h path
  · exact matching_alike options onlyDirectories hproper h path name

end Alike

section Faults

variable {options onlyDirectories} {path name : Path} {fault : GlobFault}

theorem fault_checkPath (h : checkPath path = .error fault) : fault = .nullCharacter := by
  unfold checkPath at h
  split at h
  · exact (Except.error.inj h).symm
  · cases h

theorem fault_step (h : step tree options onlyDirectories path name = .error fault) :
    fault = .nullCharacter := by
  unfold step at h
  split at h
  · cases h
  cases hc : checkPath path with
  | error own =>
    obtain rfl : own = fault := by
      split at h <;> simpa [below, matching, hc, bind, Except.bind] using h
    exact fault_checkPath hc
  | ok _ =>
    split at h <;> simp [below, matching, hc, bind, Except.bind, pure, Except.pure] at h

theorem fault_stepIn (h : stepIn options onlyDirectories tree name path = .error fault) :
    fault = .nullCharacter := by
  unfold stepIn at h
  cases hs : step tree options onlyDirectories
      (Path.joinNonempty (options.root.join.getD []) path) name with
  | error own =>
    rw [hs] at h
    obtain rfl : own = fault := Except.error.inj h
    exact fault_step hs
  | ok names =>
    rw [hs] at h
    cases h

end Faults

section Search

variable (hproper : tree.root.IsProper) (h : tree.Relisted other)
include hproper h

theorem stepIn_alike (name directory : Path) :
    EndsAlike List.Perm (stepIn options onlyDirectories tree name directory)
      (stepIn options onlyDirectories other name directory) :=
  (step_alike options onlyDirectories hproper h _ name).bind fun _ _ hnames =>
    .ok (hnames.map (Path.join directory))

/-- Directories may come in any order: there is but one fault that searching them can end with. -/
theorem mapM_stepIn_alike (name : Path) {directories others : List Path}
    (hp : directories.Perm others) :
    EndsAlike (fun found own => found.flatten.Perm own.flatten)
      (directories.mapM (stepIn options onlyDirectories tree name))
      (others.mapM (stepIn options onlyDirectories other name)) := by
  have hsame : EndsAlike (List.Forall₂ List.Perm)
      (directories.mapM (stepIn options onlyDirectories tree name))
      (directories.mapM (stepIn options onlyDirectories other name)) :=
    EndsAlike.mapM (stepIn_alike options onlyDirectories hproper h name)
  have hperm : EndsAlike List.Perm (directories.mapM (stepIn options onlyDirectories other name))
      (others.mapM (stepIn options onlyDirectories other name)) :=
    EndsAlike.mapM_perm hp fun _ _ hfault => fault_stepIn hfault
  exact hsame.trans hperm fun _ _ _ hfound hmore =>
    (List.Perm.flatten_congr hfound).trans hmore.flatten

/-- The same paths are found in both trees, each as often. -/
theorem search_alike (onlyDirectories : Bool) (pattern : Path) :
    EndsAlike List.Perm (search tree options onlyDirectories pattern)
      (search other options onlyDirectories pattern) := by
  cases hm : hasMagic pattern with
  | false =>
    rw [search_plain options onlyDirectories tree hm, search_plain options onlyDirectories other hm,
      plain_eq hproper h]
    exact .ok (.refl _)
  | true =>
    by_cases hhead : (Path.split pattern).1 = []
    · rw [search_name options onlyDirectories tree hm hhead,
        search_name options onlyDirectories other hm hhead]
      exact step_alike options onlyDirectories hproper h _ _
    · have hheads : EndsAlike List.Perm (heads options tree pattern)
          (heads options other pattern) := by
        unfold heads
        dsimp only
        split
        · exact search_alike true _
        · exact .ok (.refl _)
      rw [search_path options onlyDirectories tree hm hhead,
        search_path options onlyDirectories other hm hhead]
      exact hheads.bind fun _ _ hp =>
        (mapM_stepIn_alike options onlyDirectories hproper h _ hp).bind fun _ _ hfound => .ok hfound
termination_by pattern.length
decreasing_by
  rename_i hand
  exact Path.length_split_fst_lt hand.1

end Search

/-- The empty path, if it is among the paths found, is the first of them. -/
def EmptyFirst (found : List Path) : Prop := [] ∈ found → found.head? = some []

theorem join_eq_nil {base path : Path} (h : Path.join base path = []) : base = [] ∧ path = [] := by
  unfold Path.join at h
  split at h
  · rename_i hslash
    simp [h] at hslash
  split at h
  · simpa using h
  · simp at h

section EmptyFirst

variable {options onlyDirectories} {path name : Path} {found : List Path}

theorem emptyFirst_ite (b : Bool) (path : Path) : EmptyFirst (if b then [path] else []) := by
  intro hm
  cases b with
  | false => cases hm
  | true =>
    obtain rfl : [] = path := List.mem_singleton.mp hm
    rfl

variable (hproper : tree.root.IsProper)
include hproper

theorem nil_notMem_matching (h : matching tree options onlyDirectories path name = .ok found) :
    [] ∉ found := by
  obtain ⟨_, -, hfound⟩ := exists_of_bind_eq_ok h
  obtain rfl := Except.ok.inj hfound
  exact fun hm => nil_notMem_listing onlyDirectories hproper path (List.mem_of_mem_filter hm)

theorem emptyFirst_below (h : below tree options onlyDirectories path = .ok found) :
    EmptyFirst found := by
  obtain ⟨_, -, hfound⟩ := exists_of_bind_eq_ok h
  obtain rfl := Except.ok.inj hfound
  have hnil := nil_notMem_descendants onlyDirectories hproper options.includeHidden maxDepth path
  split
  · exact fun _ => rfl
  · exact fun hm => absurd hm (by simpa using hnil)

theorem emptyFirst_step (h : step tree options onlyDirectories path name = .ok found) :
    EmptyFirst found := by
  unfold step at h
  split at h
  · obtain rfl := Except.ok.inj h
    exact emptyFirst_ite _ name
  split at h
  · exact emptyFirst_below hproper h
  · exact fun hm => absurd hm (nil_notMem_matching hproper h)

/-- Only what is found in the directory where the search begins may have no path of its own. -/
theorem emptyFirst_stepIn (h : stepIn options onlyDirectories tree name path = .ok found)
    (hm : [] ∈ found) : path = [] ∧ found.head? = some [] := by
  obtain ⟨names, hnames, hfound⟩ := exists_of_bind_eq_ok h
  obtain rfl := Except.ok.inj hfound
  obtain ⟨own, hown, hjoin⟩ := List.mem_map.mp hm
  obtain ⟨rfl, rfl⟩ := join_eq_nil hjoin
  refine ⟨rfl, ?_⟩
  rw [List.head?_map, emptyFirst_step hproper hnames hown]
  rfl

theorem emptyFirst_flatten {directories : List Path} {lists : List (List Path)}
    (hdirectories : EmptyFirst directories)
    (h : directories.mapM (stepIn options onlyDirectories tree name) = .ok lists) :
    EmptyFirst lists.flatten := by
  intro hm
  obtain ⟨names, hnames, hnil⟩ := List.mem_flatten.mp hm
  obtain ⟨directory, hdirectory, hown⟩ := exists_of_mem_mapM h hnames
  obtain ⟨rfl, hhead⟩ := emptyFirst_stepIn hproper hown hnil
  -- The directory that the empty path comes from is the first one that is gone through.
  obtain ⟨rest, rfl⟩ := List.head?_eq_some_iff.mp (hdirectories hdirectory)
  obtain ⟨first, more, hfirst, -, rfl⟩ := mapM_cons_eq_ok_iff.mp h
  obtain rfl : names = first := Except.ok.inj (hown.symm.trans hfirst)
  obtain ⟨tail, rfl⟩ := List.head?_eq_some_iff.mp hhead
  rfl

theorem emptyFirst_search (onlyDirectories : Bool) (pattern : Path) (found : List Path)
    (h : search tree options onlyDirectories pattern = .ok found) : EmptyFirst found := by
  cases hm : hasMagic pattern with
  | false =>
    rw [search_plain options onlyDirectories tree hm] at h
    obtain rfl := Except.ok.inj h
    exact emptyFirst_ite _ pattern
  | true =>
    by_cases hhead : (Path.split pattern).1 = []
    · rw [search_name options onlyDirectories tree hm hhead] at h
      exact emptyFirst_step hproper h
    · rw [search_path options onlyDirectories tree hm hhead] at h
      obtain ⟨directories, hdirectories, h⟩ := exists_of_bind_eq_ok h
      obtain ⟨lists, hlists, hfound⟩ := exists_of_bind_eq_ok h
      obtain rfl := Except.ok.inj hfound
      refine emptyFirst_flatten hproper ?_ hlists
      unfold heads at hdirectories
      dsimp only at hdirectories
      split at hdirectories
      · exact emptyFirst_search true _ directories hdirectories
      · obtain rfl := Except.ok.inj hdirectories
        exact emptyFirst_ite true _
termination_by pattern.length
decreasing_by
  rename_i hand
  exact Path.length_split_fst_lt hand.1

end EmptyFirst

def dropEmpty : List Path → List Path
  | [] :: rest => rest
  | found => found

theorem dropEmpty_of_notMem {found : List Path} (h : [] ∉ found) : dropEmpty found = found := by
  unfold dropEmpty
  split
  · exact absurd (List.mem_cons_self ..) h
  · rfl

theorem perm_dropEmpty {found own : List Path} (hp : found.Perm own) (hfound : EmptyFirst found)
    (hown : EmptyFirst own) : (dropEmpty found).Perm (dropEmpty own) := by
  by_cases hnil : [] ∈ found
  · obtain ⟨rest, rfl⟩ := List.head?_eq_some_iff.mp (hfound hnil)
    obtain ⟨more, rfl⟩ := List.head?_eq_some_iff.mp (hown (hp.mem_iff.mp hnil))
    exact hp.cons_inv
  · rw [dropEmpty_of_notMem hnil, dropEmpty_of_notMem fun h => hnil (hp.mem_iff.mpr h)]
    exact hp

theorem glob_eq (tree : FileTree) (pattern : Path) :
    glob tree options pattern = do
      let found ← search tree options false pattern
      return if pattern.isEmpty || (options.recursive && pattern.take 2 = ['*', '*']) then
        dropEmpty found else found := by
  unfold glob
  cases search tree options false pattern with
  | error fault => rfl
  | ok found =>
    simp only [bind, Except.bind, pure, Except.pure]
    split
    · unfold dropEmpty
      split <;> simp
    · rfl

theorem glob_plain (tree : FileTree) {pattern : Path} (h : hasMagic pattern = false)
    (hne : pattern ≠ []) :
    glob tree options pattern = .ok (plain tree (options.root.join.getD []) pattern) := by
  have hnil : [] ∉ plain tree (options.root.join.getD []) pattern := by
    unfold plain
    dsimp only
    split <;> simp [hne.symm]
  rw [glob_eq, search_plain options false tree h]
  change Except.ok (if _ then dropEmpty _ else _) = _
  rw [dropEmpty_of_notMem hnil, ite_self]

theorem glob_alike (hproper : tree.root.IsProper) (h : tree.Relisted other) (pattern : Path) :
    EndsAlike List.Perm (glob tree options pattern) (glob other options pattern) := by
  have hsearch := search_alike options hproper h false pattern
  have hfirst : ∀ found, search tree options false pattern = .ok found → EmptyFirst found :=
    emptyFirst_search hproper false pattern
  have hsecond : ∀ found, search other options false pattern = .ok found → EmptyFirst found :=
    emptyFirst_search (h.root.isProper hproper) false pattern
  rw [glob_eq, glob_eq]
  generalize search tree options false pattern = found,
    search other options false pattern = own at hsearch hfirst hsecond
  cases hsearch with
  | error fault => exact .error fault
  | ok hp =>
    refine .ok ?_
    split
    · exact perm_dropEmpty hp (hfirst _ rfl) (hsecond _ rfl)
    · exact hp

end Glob

end SchemaLoom
