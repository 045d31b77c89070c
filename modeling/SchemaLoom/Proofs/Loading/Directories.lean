import Mathlib.Data.List.Sort
import SchemaLoom.Proofs.FileTree.Moving
import SchemaLoom.Proofs.Loading.Repeats

/-! Resolving a pattern in a directory. The paths are those that are found with the directory as the
one where relative paths begin, joined onto it, in the same order. Only those are missing that get out
of reach by that: too long, or with too many links on the way. -/

namespace SchemaLoom

/-- A path that is joined onto a directory. -/
def joinText (directory path : String) : String :=
  String.ofList (Path.join directory.toList path.toList)

theorem compareRuns_append (before a b : List Char) :
    compareRuns (before ++ a) (before ++ b) = compareRuns a b := by
  induction before with
  | nil => rfl
  | cons c rest ih =>
    have hsame : compare c c = .eq := Std.ReflCmp.compare_self
    rw [List.cons_append, List.cons_append, compareRuns, hsame, ih]
    rfl

theorem textLE_joinText {a b : String} (ha : a.toList.head? ≠ some '/')
    (hb : b.toList.head? ≠ some '/') (directory : String) :
    textLE (joinText directory a) (joinText directory b) = textLE a b := by
  rw [textLE, joinText, joinText, String.toList_ofList, String.toList_ofList,
    Path.join_of_relative ha, Path.join_of_relative hb, compareRuns_append, compareRuns_append]
  rfl

/-- How a pattern is resolved in a directory, from elsewhere and with the directory as the one where
relative paths begin. -/
structure ResolvedWithin (tree : FileTree) (pattern directory : String) (options : GlobOptions) :
    Prop where
  failed : ∀ failure records,
    (resolvePattern (tree.moveTo directory.toList) pattern none options).outcome =
      (.error failure, records) →
    (resolvePattern tree pattern (some directory) options).outcome = (.error failure, records)
  matched : ∀ paths records,
    (resolvePattern (tree.moveTo directory.toList) pattern none options).outcome =
      (.ok paths, records) →
    (∀ path ∈ paths, ¬ tree.IsOutOfReach false (joinText directory path).toList) →
    (resolvePattern tree pattern (some directory) options).outcome =
      (.ok (paths.map (joinText directory)), records)
  shortened : ∀ paths records,
    (resolvePattern (tree.moveTo directory.toList) pattern none options).outcome =
      (.ok paths, records) →
    ∃ kept missing, kept.Sublist (paths.map (joinText directory)) ∧
      (kept ++ missing).Perm (paths.map (joinText directory)) ∧
      (∀ path ∈ missing, tree.IsOutOfReach false path.toList) ∧
      (resolvePattern tree pattern (some directory) options).outcome =
        if kept = [] then (.error (.patternMatch pattern), [])
        else (.ok kept, [.matched pattern kept.length])

section Within

variable {tree : FileTree} {pattern directory : String} {options : GlobOptions}
  {paths : List String}

theorem pathsMatching_some (hroot : options.root = none) (pattern directory : Path) :
    pathsMatching tree pattern (some directory) options =
      (Glob.glob tree (options.within directory) pattern).map (List.map (Path.join directory)) := by
  rw [pathsMatching, hroot]
  change (do
    let found ← Glob.glob tree (options.within directory) pattern
    return found.map (Path.join directory)) = _
  cases Glob.glob tree (options.within directory) pattern <;> rfl

variable (hnamed : tree.root.WellNamed) (hrelative : pattern.toList.head? ≠ some '/')
  (hdirectory : tree.isDirectory directory.toList = true) (hroot : options.root = none)
include hnamed hrelative hdirectory hroot

theorem exists_kept
    (h : SortedMatches (tree.moveTo directory.toList) pattern none options paths) :
    ∃ kept missing, kept.Sublist (paths.map (joinText directory)) ∧
      (kept ++ missing).Perm (paths.map (joinText directory)) ∧
      (∀ path ∈ missing, tree.IsOutOfReach false path.toList) ∧
      (resolvePattern tree pattern (some directory) options).outcome =
        if kept = [] then (.error (.patternMatch pattern), [])
        else (.ok kept, [.matched pattern kept.length]) := by
  obtain ⟨own, hown, -, hpaths, hsorted⟩ := h
  obtain ⟨found, missing, hfound, hperm, howned, hout⟩ :=
    Glob.glob_within hnamed hdirectory hroot hrelative hown
  let join := fun path => String.ofList (Path.join directory.toList path)
  have hmatching : pathsMatching tree pattern.toList ((some directory).map String.toList) options =
      .ok (found.map (Path.join directory.toList)) := by
    rw [Option.map_some, pathsMatching_some hroot, hfound]
    rfl
  have hpathsJoined : (paths.map (joinText directory)).Perm (own.map join) := by
    refine (hpaths.map (joinText directory)).trans (.of_eq ?_)
    rw [List.map_map]
    exact List.map_congr_left fun path _ => by simp [joinText, join]
  let kept := ((found.map (Path.join directory.toList)).map String.ofList).mergeSort textLE
  have hkept : kept.Perm (found.map join) :=
    (List.mergeSort_perm ..).trans (.of_eq (List.map_map ..))
  have hall : (kept ++ missing.map join).Perm (paths.map (joinText directory)) := by
    refine (hkept.append_right _).trans (.trans ?_ hpathsJoined.symm)
    rw [← List.map_append]
    exact hperm.map join
  -- Joined onto the directory, relative paths stay in their order.
  have horder : (paths.map (joinText directory)).Pairwise fun a b => textLE a b = true := by
    have hrelativePaths : ∀ path ∈ paths, path.toList.head? ≠ some '/' := fun path hpath => by
      obtain ⟨own, hmem, rfl⟩ := List.mem_map.mp (hpaths.mem_iff.mp hpath)
      simpa using (howned own hmem).2
    refine List.pairwise_map.mpr (hsorted.imp_of_mem fun ha hb hle => ?_)
    rw [textLE_joinText (hrelativePaths _ ha) (hrelativePaths _ hb), hle]
  have hkeptOrder : kept.Pairwise fun a b => textLE a b = true :=
    List.pairwise_mergeSort textLE_trans textLE_total _
  have hsub : kept.Sublist (paths.map (joinText directory)) :=
    have : Std.Antisymm fun a b => textLE a b = true := ⟨fun _ _ => textLE_antisymm⟩
    List.sublist_of_subperm_of_pairwise
      ((List.sublist_append_left _ _).subperm.trans hall.subperm) hkeptOrder horder
  refine ⟨kept, missing.map join, hsub, hall, fun path hpath => ?_, ?_⟩
  · obtain ⟨own, hmem, rfl⟩ := List.mem_map.mp hpath
    simpa [join] using hout own hmem
  · by_cases hnone : found = []
    · subst hnone
      rw [if_pos (List.perm_nil.mp hkept)]
      exact outcome_resolvePattern_of_none hmatching
    · have hne : found.map (Path.join directory.toList) ≠ [] := by simpa using hnone
      rw [if_neg fun hnil => hnone (by simpa [hnil] using hkept)]
      exact outcome_resolvePattern (sortedMatches_mergeSort hmatching hne)

theorem outcome_of_failed {failure : Failure} {records : List LogRecord}
    (h : (resolvePattern (tree.moveTo directory.toList) pattern none options).outcome =
      (.error failure, records)) :
    (resolvePattern tree pattern (some directory) options).outcome = (.error failure, records) := by
  cases hown : pathsMatching (tree.moveTo directory.toList) pattern.toList
      (none.map String.toList) options with
  | error fault =>
    rw [outcome_resolvePattern_of_error hown] at h
    rw [← h]
    refine outcome_resolvePattern_of_error ?_
    rw [Option.map_some, pathsMatching_some hroot, Glob.glob_within_of_error hnamed hroot hown]
    rfl
  | ok own =>
    by_cases hne : own = []
    · subst hne
      rw [outcome_resolvePattern_of_none hown] at h
      obtain ⟨found, missing, hfound, hperm, -, -⟩ :=
        Glob.glob_within hnamed hdirectory hroot hrelative hown
      obtain ⟨rfl, -⟩ := List.append_eq_nil_iff.mp hperm.eq_nil
      rw [← h]
      refine outcome_resolvePattern_of_none ?_
      rw [Option.map_some, pathsMatching_some hroot, hfound]
      rfl
    · rw [outcome_resolvePattern (sortedMatches_mergeSort hown hne)] at h
      cases h

end Within

/-- Resolved in a directory, a pattern gives what it gives with that directory as the one where
relative paths begin, joined onto it, and fails where it fails there. Paths that get out of reach are
missing. -/
theorem resolvePattern_within (tree : FileTree) (hnamed : tree.root.WellNamed)
    (pattern directory : String) (hrelative : pattern.toList.head? ≠ some '/')
    (hdirectory : tree.isDirectory directory.toList = true) (options : GlobOptions)
    (hroot : options.root = none) : ResolvedWithin tree pattern directory options where
  failed _ _ h := outcome_of_failed hnamed hrelative hdirectory hroot h
  matched paths records h hreach := by
    have hsorted := sortedMatches_of_outcome (congrArg Prod.fst h)
    obtain ⟨kept, missing, hsub, hperm, hout, houtcome⟩ :=
      exists_kept hnamed hrelative hdirectory hroot hsorted
    have hnone : missing = [] := List.eq_nil_iff_forall_not_mem.mpr fun path hpath => by
      obtain ⟨own, hown, rfl⟩ :=
        List.mem_map.mp (hperm.mem_iff.mp (List.mem_append_right _ hpath))
      exact hreach own hown (hout _ hpath)
    rw [hnone, List.append_nil] at hperm
    obtain rfl := hsub.eq_of_length hperm.length_eq
    have hne : paths.map (joinText directory) ≠ [] := by
      obtain ⟨own, -, hne, hpaths, -⟩ := hsorted
      simpa using fun hnil : paths = [] => hne (by simpa [hnil] using hpaths)
    rw [houtcome, if_neg hne, List.length_map]
    rw [outcome_resolvePattern hsorted] at h
    exact congrArg _ (congrArg Prod.snd h)
  shortened paths records h :=
    exists_kept hnamed hrelative hdirectory hroot (sortedMatches_of_outcome (congrArg Prod.fst h))

/-- Only what is in `d` is found, in the order of the joined paths. The directory is a link. -/
theorem resolvePattern_within_slash :
    let empty : FileNode := .file []
    let tree : FileTree :=
      ⟨.directory [(['y'], empty), (['l'], .link ['d']), (['d'], .directory
        [(['y'], empty), (['a'], .directory [(['y'], empty), (['.', 'y'], empty)])])], []⟩
    tree.root.WellNamed ∧ ("**/y".toList.head? ≠ some '/') ∧
      tree.isDirectory "./l/".toList = true ∧ ResolvedWithin tree "**/y" "./l/" {} ∧
      (resolvePattern tree "**/y" (some "./l/") {}).outcome =
        (.ok ["./l/a/y", "./l/y"], [.matched "**/y" 2]) := by
  intro empty tree
  have hnamed : tree.root.WellNamed := by
    have hinner : (FileNode.directory [(['y'], empty), (['.', 'y'], empty)]).WellNamed :=
      .directory (by decide) (by decide)
        (List.forall_mem_cons.mpr ⟨.file [], List.forall_mem_singleton.mpr (.file [])⟩)
    have hdirectory : (FileNode.directory [(['y'], empty), (['a'], .directory
        [(['y'], empty), (['.', 'y'], empty)])]).WellNamed :=
      .directory (by decide) (by decide)
        (List.forall_mem_cons.mpr ⟨.file [], List.forall_mem_singleton.mpr hinner⟩)
    exact .directory (by decide) (by decide) (List.forall_mem_cons.mpr ⟨.file [],
      List.forall_mem_cons.mpr ⟨.link _, List.forall_mem_singleton.mpr hdirectory⟩⟩)
  have hdirectory : tree.isDirectory "./l/".toList = true := by cbv
  have hwithin :=
    resolvePattern_within tree hnamed "**/y" "./l/" (by decide) hdirectory {} rfl
  have hpaths : SortedMatches (tree.moveTo "./l/".toList) "**/y" none {} ["a/y", "y"] :=
    ⟨["y".toList, "a/y".toList], by cbv, by simp, by decide, by decide⟩
  have hreach : ∀ path ∈ ["a/y", "y"],
      ¬ tree.IsOutOfReach false (joinText "./l/" path).toList := by
    have hdeep : tree.resolve false (joinText "./l/" "a/y").toList = .ok empty := by cbv
    have hown : tree.resolve false (joinText "./l/" "y").toList = .ok empty := by cbv
    exact List.forall_mem_cons.mpr ⟨FileTree.reach_of_resolve hdeep,
      List.forall_mem_singleton.mpr (FileTree.reach_of_resolve hown)⟩
  exact ⟨hnamed, by decide, hdirectory, hwithin,
    hwithin.matched _ _ (outcome_resolvePattern hpaths) hreach⟩

/-- A pattern that matches a file with the directory as the one where relative paths begin, and
nothing from elsewhere. -/
structure LostFromElsewhere (tree : FileTree) (pattern directory : String) : Prop where
  named : tree.root.WellNamed
  isDirectory : tree.isDirectory directory.toList = true
  within : (resolvePattern (tree.moveTo directory.toList) pattern none {}).outcome =
    (.ok [pattern], [.matched pattern 1])
  elsewhere : (resolvePattern tree pattern (some directory) {}).outcome =
    (.error (.patternMatch pattern), [])

theorem lostFromElsewhere_of_outOfReach {tree : FileTree} {pattern directory : String}
    (hnamed : tree.root.WellNamed) (hdirectory : tree.isDirectory directory.toList = true)
    (hm : hasMagic pattern.toList = false) (hname : (Path.split pattern.toList).2 ≠ [])
    (hinside : (tree.moveTo directory.toList).contains pattern.toList = true)
    (hout : tree.IsOutOfReach false (Path.joinNonempty directory.toList pattern.toList)) :
    LostFromElsewhere tree pattern directory := by
  have hne : pattern.toList ≠ [] := fun hnil => hname (by rw [hnil]; rfl)
  have hmatch : ∀ (tree : FileTree) (root : Path),
      Glob.plain tree root pattern.toList =
        if tree.contains (Path.joinNonempty root pattern.toList) then [pattern.toList] else [] :=
    fun tree root => by simp [Glob.plain, hname]
  refine ⟨hnamed, hdirectory, outcome_resolvePattern ⟨[pattern.toList], ?_, by simp, by simp,
    by simp⟩, outcome_resolvePattern_of_none ?_⟩
  · refine (Glob.glob_plain {} _ hm hne).trans ?_
    simp [hmatch, hinside]
  · have hnone : tree.contains (Path.joinNonempty directory.toList pattern.toList) = false :=
      Bool.eq_false_iff.mpr fun hfound => by
        obtain ⟨node, hnode⟩ := FileTree.contains_iff.mp hfound
        exact FileTree.reach_of_resolve hnode hout
    rw [Option.map_some, pathsMatching_some rfl, Glob.glob_plain _ _ hm hne]
    change Except.ok ((Glob.plain tree directory.toList pattern.toList).map _) = _
    simp [hmatch, hnone]

/-- With many slashes at its end, the path of a directory may itself be short enough while the paths in
the directory get too long. -/
theorem lostFromElsewhere_slashes (n : Nat) (hshort : n < 4095) (hlong : 4086 ≤ n) :
    LostFromElsewhere ⟨.directory [(['a'], .directory [("y.graphql".toList, .file [])])], []⟩
      "y.graphql" (String.ofList ('a' :: List.replicate n '/')) := by
  let inner : FileNode := .directory [("y.graphql".toList, .file [])]
  let tree : FileTree := ⟨.directory [(['a'], inner)], []⟩
  let directory := String.ofList ('a' :: List.replicate n '/')
  change LostFromElsewhere tree "y.graphql" directory
  have hnamed : tree.root.WellNamed := by
    have hinner : inner.WellNamed :=
      .directory (by decide) (by decide) (List.forall_mem_singleton.mpr (.file []))
    exact .directory (by decide) (by decide) (List.forall_mem_singleton.mpr hinner)
  have hpath : directory.toList = ['a'] ++ List.replicate n '/' := String.toList_ofList
  have hsize : Path.byteSize directory.toList = n + 1 := by
    have hfirst : Path.byteSize ['a'] = 1 := by decide
    rw [hpath, Path.byteSize_append_slashes, hfirst, Nat.add_comm]
  have harrive : tree.arrive true directory.toList = .ok (FileTree.maxLinks, ⟨[tree.root], inner⟩) := by
    have hfirst : tree.arrive true ['a'] = .ok (FileTree.maxLinks, ⟨[tree.root], inner⟩) := by cbv
    rw [hpath]
    exact FileTree.arrive_append_slashes (by simp) hfirst rfl n
  have hdirectory : tree.isDirectory directory.toList = true := by
    refine FileTree.isDirectory_iff.mpr ⟨_, FileTree.resolve_of_arrive harrive ?_ ?_ ?_⟩
    · simp [hpath]
    · simpa [Path.isTooLong, hsize] using hshort
    · simp [hpath]
  have hinside : (tree.moveTo directory.toList).contains "y.graphql".toList = true := by
    have hown : (tree.moveTo directory.toList).arrive false "y.graphql".toList =
        .ok (FileTree.maxLinks, ⟨[inner, tree.root], .file []⟩) := by
      rw [FileTree.arrive, FileTree.start_moveTo harrive (by decide)]
      change FileTree.walk tree.root false FileTree.maxLinks ⟨[tree.root], inner⟩
        (Path.components "y.graphql".toList) = _
      cbv
    exact FileTree.contains_iff.mpr
      ⟨_, FileTree.resolve_of_arrive hown (by decide) (by decide) (by decide)⟩
  refine lostFromElsewhere_of_outOfReach hnamed hdirectory (by decide) (by decide) hinside (.inl ?_)
  have hname : Path.byteSize "y.graphql".toList = 9 := by decide
  rw [Path.joinNonempty_eq_join (by decide), Path.join_of_relative (by decide), Path.isTooLong,
    Path.byteSize_append, Path.byteSize_append, hsize, hname]
  simp only [decide_eq_true_eq]
  omega

/-- A link to the directory that it is in leads nowhere, but each time it is met it is counted. -/
theorem walk_selfLinks {place next : Spot} {name : Path} {rest : List Path}
    (hdirectory : place.here.isDirectory = true) (hstep : FileTree.walkStep place name = .ok next)
    (hlink : next.here.target? = some ['.']) (hne : rest ≠ []) (root : FileNode) (follows : Bool)
    (links n : Nat) :
    FileTree.walk root follows links place (List.replicate n name ++ rest) =
      if n ≤ links then FileTree.walk root follows (links - n) place rest
      else .error .tooManyLinks := by
  have hdot : FileTree.walkStep place ['.'] = .ok place := by
    simp [FileTree.walkStep, hdirectory]
  have hnode := FileNode.target?_of_isDirectory hdirectory
  induction n generalizing links with
  | zero => simp
  | succ n ih =>
    rw [List.replicate_succ, List.cons_append,
      FileTree.walk_cons_of_link hstep hlink (by simp [hne])]
    change (if links = 0 then _ else FileTree.walk root follows (links - 1) place
      (['.'] :: (List.replicate n name ++ rest))) = _
    rw [FileTree.walk_cons_of_node hdot hnode, ih]
    cases links with
    | zero => simp
    | succ links => simp

theorem components_selfLinks (n : Nat) (rest : Path) :
    Path.components ((List.replicate n "self/".toList).flatten ++ rest) =
      List.replicate n "self".toList ++ Path.components rest := by
  induction n with
  | zero => rfl
  | succ n ih =>
    have hfirst := Path.components_append_slash "self".toList
      ((List.replicate n "self/".toList).flatten ++ rest)
    rw [List.replicate_succ, List.flatten_cons, List.append_assoc, List.replicate_succ,
      List.cons_append, ← ih]
    exact hfirst

/-- The link that leads to the directory is counted as well, if the pattern is matched from elsewhere. -/
theorem lostFromElsewhere_links :
    LostFromElsewhere
      ⟨.directory [("link".toList, .link "real".toList), ("real".toList, .directory
        [("self".toList, .link ['.']), ("y.graphql".toList, .file [])])], []⟩
      (String.ofList ((List.replicate 40 "self/".toList).flatten ++ "y.graphql".toList)) "link" := by
  let inner : FileNode :=
    .directory [("self".toList, .link ['.']), ("y.graphql".toList, .file [])]
  let tree : FileTree :=
    ⟨.directory [("link".toList, .link "real".toList), ("real".toList, inner)], []⟩
  let path : Path := (List.replicate 40 "self/".toList).flatten ++ "y.graphql".toList
  change LostFromElsewhere tree (String.ofList path) "link"
  have hnamed : tree.root.WellNamed := by
    have hinner : inner.WellNamed := .directory (by decide) (by decide)
      (List.forall_mem_cons.mpr ⟨.link _, List.forall_mem_singleton.mpr (.file [])⟩)
    exact .directory (by decide) (by decide)
      (List.forall_mem_cons.mpr ⟨.link _, List.forall_mem_singleton.mpr hinner⟩)
  let place : Spot := ⟨[tree.root], inner⟩
  have harrive : tree.arrive true "link".toList = .ok (39, place) := by cbv
  have hself : FileTree.walkStep place "self".toList = .ok ⟨[inner, tree.root], .link ['.']⟩ := by
    cbv
  have hcomponents : Path.components path =
      List.replicate 40 "self".toList ++ ["y.graphql".toList] :=
    components_selfLinks 40 "y.graphql".toList
  have hwalk := walk_selfLinks rfl hself rfl (List.cons_ne_nil "y.graphql".toList []) tree.root false
  have hinside : (tree.moveTo "link".toList).arrive false path =
      .ok (0, ⟨[inner, tree.root], .file []⟩) := by
    rw [FileTree.arrive, FileTree.start_moveTo harrive (by decide), hcomponents]
    exact (hwalk 40 40).trans (by cbv)
  have hout : tree.arrive false (Path.join "link".toList path) = .error .tooManyLinks := by
    rw [FileTree.arrive_join (by decide), harrive, hcomponents]
    exact hwalk 39 40
  have htext : (String.ofList path).toList = path := String.toList_ofList
  refine lostFromElsewhere_of_outOfReach hnamed
    (FileTree.isDirectory_iff.mpr ⟨_, FileTree.resolve_of_arrive harrive (by decide) (by decide)
      (by decide)⟩) ?_ ?_ ?_ ?_
  · rw [htext]
    decide
  · rw [htext]
    decide
  · rw [htext]
    exact FileTree.contains_iff.mpr
      ⟨_, FileTree.resolve_of_arrive hinside (by decide) (by cbv) (by decide)⟩
  · rw [htext, Path.joinNonempty_eq_join (by decide)]
    exact .inr hout

theorem resolvePattern_within_outOfReach :
    LostFromElsewhere ⟨.directory [(['a'], .directory [("y.graphql".toList, .file [])])], []⟩
        "y.graphql" (String.ofList ('a' :: List.replicate 4090 '/')) ∧
      LostFromElsewhere
        ⟨.directory [("link".toList, .link "real".toList), ("real".toList, .directory
          [("self".toList, .link ['.']), ("y.graphql".toList, .file [])])], []⟩
        (String.ofList ((List.replicate 40 "self/".toList).flatten ++ "y.graphql".toList)) "link" :=
  ⟨lostFromElsewhere_slashes 4090 (by decide) (by decide), lostFromElsewhere_links⟩

end SchemaLoom
