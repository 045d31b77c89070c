import SchemaLoom.Proofs.FileTree.Ways
import SchemaLoom.Proofs.Loading.Together

/-! How often a file is loaded. The paths that match a pattern come in strictly ascending order
unless a path is led to on two ways, and what is at each of them is read as often as it comes. -/

namespace SchemaLoom

/-- In the order of their characters, and no two the same. -/
def StrictlyAscending (paths : List String) : Prop :=
  paths.Pairwise fun a b => textLE a b = true ∧ a ≠ b

/-- The options for a search in a directory, if one is given. -/
def searchedIn (cwd : Option Path) (options : GlobOptions) : GlobOptions :=
  match cwd with
  | none => options
  | some directory => { options with root := some (some directory) }

variable {tree : FileTree}

section Matching

variable (hproper : tree.root.IsProper) (hslash : tree.root.SlashFree)
include hproper hslash

/-- Joined onto the directory that was searched in, different paths stay different: either all of
them are absolute, or none is. -/
theorem nodup_pathsMatching_iff {pattern : Path} {cwd : Option Path} {options : GlobOptions}
    {found : List Path} (h : pathsMatching tree pattern cwd options = .ok found) :
    found.Nodup ↔ Glob.OneWay tree (searchedIn cwd options) pattern := by
  cases cwd with
  | none => exact Glob.nodup_glob_iff hproper hslash h
  | some directory =>
    unfold pathsMatching at h
    dsimp only at h
    split at h
    · cases h
    obtain ⟨own, hown, hfound⟩ := exists_of_bind_eq_ok h
    obtain rfl := Except.ok.inj hfound
    refine Iff.trans ?_ (Glob.nodup_glob_iff hproper hslash hown)
    refine ⟨fun hnd => hnd.of_map, fun hnd => ?_⟩
    refine (List.nodup_map_iff_inj_on hnd).mpr fun path hpath other hother heq => ?_
    obtain ⟨_, hway⟩ := Glob.exists_way_of_mem_glob hproper hslash hown hpath
    obtain ⟨_, hway'⟩ := Glob.exists_way_of_mem_glob hproper hslash hown hother
    exact Path.eq_of_join_eq
      ((hway.head?_iff hproper hslash).trans (hway'.head?_iff hproper hslash).symm) heq

end Matching

variable {pattern : String} {cwd : Option String} {options : GlobOptions} {paths : List String}

theorem sortedMatches_of_outcome
    (h : (resolvePattern tree pattern cwd options).outcome.1 = .ok paths) :
    SortedMatches tree pattern cwd options paths := by
  cases hfound : pathsMatching tree pattern.toList (cwd.map String.toList) options with
  | error fault =>
    rw [outcome_resolvePattern_of_error hfound] at h
    cases h
  | ok found =>
    by_cases hne : found = []
    · rw [hne] at hfound
      rw [outcome_resolvePattern_of_none hfound] at h
      cases h
    · have hsorted := sortedMatches_mergeSort hfound hne
      rw [outcome_resolvePattern hsorted] at h
      exact Except.ok.inj h ▸ hsorted

theorem SortedMatches.strictlyAscending_iff (h : SortedMatches tree pattern cwd options paths) :
    StrictlyAscending paths ↔ paths.Nodup := by
  obtain ⟨-, -, -, -, hsorted⟩ := h
  exact ⟨fun hstrict => hstrict.imp And.right, fun hnd => hsorted.and hnd⟩

/-- What is at the paths that match is read in their order, and it is parsed as one text. -/
theorem SortedMatches.outcome_load (h : SortedMatches tree pattern cwd options paths)
    (located assumeValid : Bool) {texts : List String}
    (hread : List.Forall₂ (fun path text => tree.read path.toList = .ok text) paths texts) :
    (loadDocument tree pattern cwd options located).outcome =
        (parseContents texts located).endFrom [.matched pattern paths.length] ∧
      (loadSchema tree pattern cwd options located assumeValid).outcome =
        (parseContents texts located >>= fun document => buildWork document assumeValid).endFrom
          [.matched pattern paths.length] := by
  have hfiles : readFiles tree paths = Work.ofExcept id (.ok texts) := by
    rw [readFiles_eq, mapM_eq_ok_iff_forall₂.mpr hread]
    rfl
  refine ⟨outcome_loadWith (readFiles tree) _ h hfiles, ?_⟩
  have hschema := loadWith_bind tree pattern cwd options (readFiles tree)
    (fun texts => parseContents texts located) fun document => buildWork document assumeValid
  exact (congrArg Work.outcome hschema).trans (outcome_loadWith (readFiles tree) _ h hfiles)

/-- A path is given twice, and what is there is loaded twice, if there are two ways to divide it
among the components of the pattern. There are not with a single component for any number of
directories. -/
theorem resolvePattern_strictlyAscending_iff (hproper : tree.root.IsProper)
    (hslash : tree.root.SlashFree)
    (h : (resolvePattern tree pattern cwd options).outcome.1 = .ok paths) :
    (StrictlyAscending paths ↔
        Glob.OneWay tree (searchedIn (cwd.map String.toList) options) pattern.toList) ∧
      (Glob.AtMostOneDeep options pattern.toList → StrictlyAscending paths) ∧
      ∀ (located assumeValid : Bool) (texts : List String),
        List.Forall₂ (fun path text => tree.read path.toList = .ok text) paths texts →
        (loadDocument tree pattern cwd options located).outcome =
            (parseContents texts located).endFrom [.matched pattern paths.length] ∧
          (loadSchema tree pattern cwd options located assumeValid).outcome =
            (parseContents texts located >>= fun document =>
              buildWork document assumeValid).endFrom [.matched pattern paths.length] := by
  have hsorted := sortedMatches_of_outcome h
  have hiff : StrictlyAscending paths ↔
      Glob.OneWay tree (searchedIn (cwd.map String.toList) options) pattern.toList := by
    rw [hsorted.strictlyAscending_iff]
    obtain ⟨found, hfound, -, hperm, -⟩ := hsorted
    rw [hperm.nodup_iff, List.nodup_map_iff fun _ _ => String.ofList_injective]
    exact nodup_pathsMatching_iff hproper hslash hfound
  refine ⟨hiff, fun hone => hiff.mpr ?_, fun located assumeValid texts hread =>
    hsorted.outcome_load located assumeValid hread⟩
  refine Glob.oneWay_of_atMostOneDeep hproper hslash ?_
  cases cwd with
  | none => exact hone
  | some directory => exact hone

/-- The paths are joined onto `d`. The deep component takes no name for `x` and one for `a/x`. -/
theorem resolvePattern_strictlyAscending_oneDeep :
    let empty : FileNode := .file []
    let tree : FileTree :=
      ⟨.directory [(['d'], .directory [(['x'], empty), (['a'], .directory [(['x'], empty)])])], []⟩
    tree.root.IsProper ∧ tree.root.SlashFree ∧
      (resolvePattern tree "**/x" (some "d") {}).outcome.1 = .ok ["d/a/x", "d/x"] ∧
      Glob.OneWay tree { root := some (some ['d']) } "**/x".toList ∧
      StrictlyAscending ["d/a/x", "d/x"] ∧
      (loadDocument tree "**/x" (some "d") {} true).outcome =
        (parseContents ["", ""] true).endFrom [.matched "**/x" 2] := by
  intro empty tree
  have hproper : tree.root.IsProper := by
    have hinner : (FileNode.directory [(['x'], empty)]).IsProper :=
      .directory (by decide) (by decide) (List.forall_mem_singleton.mpr (.file []))
    have hdirectory : (FileNode.directory
        [(['x'], empty), (['a'], .directory [(['x'], empty)])]).IsProper :=
      .directory (by decide) (by decide)
        (List.forall_mem_cons.mpr ⟨.file [], List.forall_mem_singleton.mpr hinner⟩)
    exact .directory (by decide) (by decide) (List.forall_mem_singleton.mpr hdirectory)
  have hslash : tree.root.SlashFree := by
    have hinner : (FileNode.directory [(['x'], empty)]).SlashFree :=
      .directory (by decide) (List.forall_mem_singleton.mpr (.file []))
    have hdirectory : (FileNode.directory
        [(['x'], empty), (['a'], .directory [(['x'], empty)])]).SlashFree :=
      .directory (by decide)
        (List.forall_mem_cons.mpr ⟨.file [], List.forall_mem_singleton.mpr hinner⟩)
    exact .directory (by decide) (List.forall_mem_singleton.mpr hdirectory)
  have hpaths : SortedMatches tree "**/x" (some "d") {} ["d/a/x", "d/x"] :=
    ⟨["d/x".toList, "d/a/x".toList], by cbv, by simp, by decide, by decide⟩
  have hresolved := congrArg Prod.fst (outcome_resolvePattern hpaths)
  obtain ⟨hiff, hone, hload⟩ :=
    resolvePattern_strictlyAscending_iff hproper hslash hresolved
  have hascending := hone (.inr (by decide))
  exact ⟨hproper, hslash, hresolved, hiff.mp hascending, hascending,
    (hload true false ["", ""] (.cons (by cbv) (.cons (by cbv) .nil))).1⟩

/-- The name `a` may be left to either of the deep components, so the file is loaded twice. -/
theorem resolvePattern_repeats_severalDeep :
    let text := "type Query { a: Int }"
    let tree : FileTree :=
      ⟨.directory [(['a'], .directory
        [("x.graphql".toList, .file (text.toList.map fun c => c.val.toUInt8))])], []⟩
    tree.root.IsProper ∧ tree.root.SlashFree ∧
      (resolvePattern tree "**/**/*.graphql" none {}).outcome =
        (.ok ["a/x.graphql", "a/x.graphql"], [.matched "**/**/*.graphql" 2]) ∧
      ¬ StrictlyAscending ["a/x.graphql", "a/x.graphql"] ∧
      (loadDocument tree "**/**/*.graphql" none {} true).outcome =
        (parseContents [text, text] true).endFrom [.matched "**/**/*.graphql" 2] := by
  intro text tree
  have hpaths : SortedMatches tree "**/**/*.graphql" none {} ["a/x.graphql", "a/x.graphql"] :=
    ⟨["a/x.graphql".toList, "a/x.graphql".toList], by cbv, by simp, by decide, by decide⟩
  have hread : tree.read "a/x.graphql".toList = .ok text := by cbv
  refine ⟨?_, ?_, outcome_resolvePattern hpaths, ?_,
    (hpaths.outcome_load true false (.cons hread (.cons hread .nil))).1⟩
  · have hinner : (FileNode.directory [("x.graphql".toList,
        .file (text.toList.map fun c => c.val.toUInt8))]).IsProper :=
      .directory (by simp) (by simp) (List.forall_mem_singleton.mpr (.file _))
    exact .directory (by simp) (by simp) (List.forall_mem_singleton.mpr hinner)
  · have hinner : (FileNode.directory [("x.graphql".toList,
        .file (text.toList.map fun c => c.val.toUInt8))]).SlashFree :=
      .directory (by decide) (List.forall_mem_singleton.mpr (.file _))
    exact .directory (by simp) (List.forall_mem_singleton.mpr hinner)
  · simp [StrictlyAscending]

end SchemaLoom
