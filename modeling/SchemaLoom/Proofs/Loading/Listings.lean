import SchemaLoom.Proofs.FileTree.Searching
import SchemaLoom.Proofs.Loading.Together

/-! Loading from trees whose directories are listed in different orders. The paths found are put in
order before any file is read, so loading ends in the same way. -/

namespace SchemaLoom

variable {tree other : FileTree}

/-- Paths that are put in the order of their characters do not show in which order they were found.
-/
theorem mergeSort_textLE_eq {found own : List Path} (hp : found.Perm own) :
    (found.map String.ofList).mergeSort textLE = (own.map String.ofList).mergeSort textLE :=
  ((List.mergeSort_perm ..).trans ((hp.map String.ofList).trans (List.mergeSort_perm ..).symm)
    ).eq_of_pairwise (fun _ _ _ _ => textLE_antisymm)
    (List.pairwise_mergeSort textLE_trans textLE_total _)
    (List.pairwise_mergeSort textLE_trans textLE_total _)

section Alike

variable (hproper : tree.root.IsProper) (h : tree.Relisted other) (pattern : String)
  (cwd : Option String) (options : GlobOptions)
include hproper h

theorem pathsMatching_alike (pattern : Path) (cwd : Option Path) :
    EndsAlike List.Perm (pathsMatching tree pattern cwd options)
      (pathsMatching other pattern cwd options) := by
  cases cwd with
  | none => exact Glob.glob_alike options hproper h pattern
  | some directory =>
    unfold pathsMatching
    dsimp only
    split
    · exact .error GlobFault.rootTwice
    · exact (Glob.glob_alike _ hproper h pattern).bind fun _ _ hfound =>
        .ok (hfound.map (Path.join directory))

theorem resolvePattern_relisted :
    resolvePattern tree pattern cwd options = resolvePattern other pattern cwd options := by
  have halike := pathsMatching_alike hproper h options pattern.toList (cwd.map String.toList)
  unfold resolvePattern
  generalize pathsMatching tree pattern.toList (cwd.map String.toList) options = found,
    pathsMatching other pattern.toList (cwd.map String.toList) options = own at halike
  cases halike with
  | error fault => rfl
  | @ok found own hp =>
    have hempty : found.isEmpty = own.isEmpty := by
      rw [Bool.eq_iff_iff, List.isEmpty_iff, List.isEmpty_iff]
      exact ⟨fun h => (h ▸ hp).nil_eq.symm, fun h => (h ▸ hp).eq_nil⟩
    have hpure : ∀ paths : List Path, Work.ofExcept Failure.glob (.ok paths) = pure paths :=
      fun _ => rfl
    simp only [hpure, pure_bind, hempty, mergeSort_textLE_eq hp]

theorem readFiles_relisted : readFiles tree = readFiles other := by
  have hread : tree.read = other.read := funext fun path => FileTree.read_eq hproper h path
  funext paths
  rw [readFiles, readFiles, FileTree.readAll, FileTree.readAll, hread]

theorem loadDocument_relisted (located : Bool) :
    loadDocument tree pattern cwd options located =
      loadDocument other pattern cwd options located := by
  rw [loadDocument, loadDocument, resolvePattern_relisted hproper h, readFiles_relisted hproper h]

/-- What matches in one tree, put in order, is what matches in the other one. -/
theorem sortedMatches_relisted {paths : List String}
    (hpaths : SortedMatches tree pattern cwd options paths) :
    SortedMatches other pattern cwd options paths := by
  obtain ⟨found, hfound, hne, hperm, hsorted⟩ := hpaths
  have halike := pathsMatching_alike hproper h options pattern.toList (cwd.map String.toList)
  rw [hfound] at halike
  generalize hown : pathsMatching other pattern.toList (cwd.map String.toList) options = result
    at halike
  cases halike with
  | @ok _ own hp =>
    have hnonempty : own ≠ [] := fun he => hne (he ▸ hp).eq_nil
    exact ⟨own, hown, hnonempty, hperm.trans (hp.map _), hsorted⟩

end Alike

/-- Loading ends in the same way in two trees. Either the paths that match are the same, and they
come in the order of their characters, or none match, or the pattern is not searched for at all. -/
structure LoadsSame (tree other : FileTree) (pattern : String) (cwd : Option String)
    (options : GlobOptions) (located assumeValid : Bool) : Prop where
  resolved : resolvePattern tree pattern cwd options = resolvePattern other pattern cwd options
  outcome :
    (∃ paths, SortedMatches tree pattern cwd options paths ∧
      SortedMatches other pattern cwd options paths ∧
      (resolvePattern tree pattern cwd options).outcome =
        (.ok paths, [.matched pattern paths.length])) ∨
    (resolvePattern tree pattern cwd options).outcome = (.error (.patternMatch pattern), []) ∨
    ∃ fault, pathsMatching tree pattern.toList (cwd.map String.toList) options = .error fault ∧
      (resolvePattern tree pattern cwd options).outcome = (.error (.glob fault), [])
  document : loadDocument tree pattern cwd options located =
    loadDocument other pattern cwd options located
  schema : loadSchema tree pattern cwd options located assumeValid =
    loadSchema other pattern cwd options located assumeValid

/-- Loading does not depend on the order in which directories are listed, on whatever level. -/
theorem load_relisted (tree other : FileTree) (hproper : tree.root.IsProper)
    (h : tree.Relisted other) (pattern : String) (cwd : Option String) (options : GlobOptions)
    (located assumeValid : Bool) :
    LoadsSame tree other pattern cwd options located assumeValid where
  resolved := resolvePattern_relisted hproper h pattern cwd options
  outcome := by
    cases hfound : pathsMatching tree pattern.toList (cwd.map String.toList) options with
    | error fault => exact .inr (.inr ⟨fault, rfl, outcome_resolvePattern_of_error hfound⟩)
    | ok found =>
      by_cases hne : found = []
      · subst hne
        exact .inr (.inl (outcome_resolvePattern_of_none hfound))
      · have hpaths := sortedMatches_mergeSort hfound hne
        exact .inl ⟨_, hpaths, sortedMatches_relisted hproper h pattern cwd options hpaths,
          outcome_resolvePattern hpaths⟩
  document := loadDocument_relisted hproper h pattern cwd options located
  schema := by
    rw [loadSchema, loadSchema, loadDocument_relisted hproper h]

/-- Both the root and a directory in it are listed in other orders. The directory where the search
begins matches and has no path, and what is in `d` is found on two ways. -/
theorem load_relisted_twoLevels :
    let user : FileNode := .file ("type User".toList.map fun c => c.val.toUInt8)
    let query : FileNode := .file []
    let tree : FileTree :=
      ⟨.directory [(['d'], .directory [(['y'], user), (['x'], query)]), (['b'], query)], []⟩
    let other : FileTree :=
      ⟨.directory [(['b'], query), (['d'], .directory [(['x'], query), (['y'], user)])], []⟩
    LoadsSame tree other "**/**" none {} true false ∧
      (resolvePattern other "**/**" none {}).outcome =
        (.ok ["b", "d", "d/", "d/x", "d/x", "d/y", "d/y"], [.matched "**/**" 7]) := by
  intro user query tree other
  have hproper : tree.root.IsProper := by
    have hinner : (FileNode.directory [(['y'], user), (['x'], query)]).IsProper := by
      refine .directory (by decide) (by decide) fun e he => ?_
      simp only [List.mem_cons, List.not_mem_nil, or_false] at he
      rcases he with rfl | rfl
      · exact .file _
      · exact .file _
    refine .directory (by decide) (by decide) fun e he => ?_
    simp only [List.mem_cons, List.not_mem_nil, or_false] at he
    rcases he with rfl | rfl
    · exact hinner
    · exact .file _
  have hrelisted : tree.Relisted other :=
    ⟨.directory (.swap ..) (.cons ⟨rfl, .refl _⟩ (.cons ⟨rfl, .listing (.swap ..)⟩ .nil)), rfl⟩
  have hpaths : SortedMatches other "**/**" none {}
      ["b", "d", "d/", "d/x", "d/x", "d/y", "d/y"] := by
    refine ⟨[['b'], ['d'], ['d', '/', 'x'], ['d', '/', 'y'], ['d', '/'], ['d', '/', 'x'],
      ['d', '/', 'y']], by cbv, by simp, by decide, by decide⟩
  exact ⟨load_relisted tree other hproper hrelisted "**/**" none {} true false,
    outcome_resolvePattern hpaths⟩

end SchemaLoom
