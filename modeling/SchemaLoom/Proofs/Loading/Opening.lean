import SchemaLoom.Proofs.FileTree.Leading
import SchemaLoom.Proofs.Loading.Repeats

/-! Opening the paths that match a pattern. From the working directory each of them leads to what was
found, unless the pattern was matched in another directory that its path does not begin with. So no
file is missed when the paths are read. -/

namespace SchemaLoom

/-- The directory that a pattern is matched in, the empty path standing for the working directory. -/
def searchRoot (cwd : Option Path) (options : GlobOptions) : Path :=
  (searchedIn cwd options).root.join.getD []

/-- The paths that match lead from the working directory to where they lead from the directory that
was searched in: they are joined onto it, or it is the working directory, or they are absolute. -/
def GivenInPlace (cwd : Option Path) (options : GlobOptions) (pattern : Path) : Prop :=
  cwd = none → options.root.join.getD [] = [] ∨ pattern.head? = some '/'

/-- A path that can be asked for, and that is neither a link that leads nowhere nor just what a pattern
for any number of directories, if it is not asked first whether there is one, makes of something that
is no directory. -/
structure IsOpenable (tree : FileTree) (options : GlobOptions) (pattern path : Path) : Prop where
  short : Path.isTooLong path = false
  leads : ∀ target, tree.resolve false path = .ok (.link target) → ∃ node, tree.lookup path = .ok node
  directory : options.asksFirst = false → options.recursive = true →
    (Path.split pattern).2 = ['*', '*'] → path.getLast? = some '/' → tree.isDirectory path = true

/-- A path that is given for one that matches a pattern in the directory that is searched in. From the
working directory it leads nowhere but to where that one leads from there. -/
structure NamesMatch (tree : FileTree) (cwd : Option Path) (options : GlobOptions)
    (pattern path : Path) (choices : List Path) (own : Path) : Prop where
  way : Glob.Way tree (searchedIn cwd options) false pattern choices own
  joined : path = Path.join (searchRoot cwd options) own
  same : ∀ follows node, tree.resolve follows path = .ok node →
    (tree.moveTo (searchRoot cwd options)).resolve follows own = .ok node
  found : IsOpenable tree options pattern path → ∃ node, tree.lookup path = .ok node

section Matching

variable {tree : FileTree} {pattern : Path} {cwd : Option Path} {options : GlobOptions}
  {found : List Path} {path : Path}

theorem exists_glob_of_pathsMatching (h : pathsMatching tree pattern cwd options = .ok found) :
    ∃ own, Glob.glob tree (searchedIn cwd options) pattern = .ok own ∧
      found = own.map (Path.join (cwd.getD [])) := by
  cases cwd with
  | none =>
    exact ⟨found, h, (List.map_id'' Path.join_nil_left found).symm⟩
  | some directory =>
    unfold pathsMatching at h
    dsimp only at h
    split at h
    · cases h
    obtain ⟨own, hown, hfound⟩ := exists_of_bind_eq_ok h
    exact ⟨own, hown, (Except.ok.inj hfound).symm⟩

variable (hnamed : tree.root.WellNamed)
include hnamed

theorem exists_namesMatch (hplaced : GivenInPlace cwd options pattern)
    (h : pathsMatching tree pattern cwd options = .ok found) (hpath : path ∈ found) :
    ∃ choices own, NamesMatch tree cwd options pattern path choices own := by
  obtain ⟨all, hall, rfl⟩ := exists_glob_of_pathsMatching h
  obtain ⟨own, hown, rfl⟩ := List.mem_map.mp hpath
  obtain ⟨choices, hway⟩ :=
    Glob.exists_way_of_mem_glob hnamed.isProper hnamed.slashFree hall hown
  have hne := Glob.ne_nil_of_mem_glob hnamed.isProper hnamed.slashFree hall hown
  have hjoin : Path.join (cwd.getD []) own = Path.join (searchRoot cwd options) own := by
    cases cwd with
    | some directory => rfl
    | none =>
      rcases hplaced rfl with hroot | habsolute
      · rw [searchRoot, searchedIn, hroot]
        rfl
      · have hhead := (hway.head?_iff hnamed.isProper hnamed.slashFree).mpr habsolute
        rw [Path.join, Path.join, if_pos hhead, if_pos hhead]
  rw [hjoin]
  refine ⟨choices, own, hway, rfl, fun follows node =>
    FileTree.resolve_moveTo_of_resolve_join hne, fun hopenable => ?_⟩
  by_cases hdeep : options.asksFirst = false ∧ options.recursive = true ∧
      (Path.split pattern).2 = ['*', '*'] ∧ own.getLast? = some '/'
  · rw [← Path.getLast?_join hne (searchRoot cwd options)] at hdeep
    obtain ⟨hasks, hr, hc, hlast⟩ := hdeep
    obtain ⟨entries, hentries⟩ :=
      FileTree.isDirectory_iff.mp (hopenable.directory hasks hr hc hlast)
    exact ⟨_, hentries⟩
  · have hsame : (searchedIn cwd options).asksFirst = options.asksFirst ∧
        (searchedIn cwd options).recursive = options.recursive := by
      cases cwd <;> exact ⟨rfl, rfl⟩
    obtain ⟨hnull, stop, harrive⟩ := Glob.exists_arrive_of_mem_glob hnamed hall hown
      fun hasks hr hc hlast => hdeep ⟨hsame.1 ▸ hasks, hsame.2 ▸ hr, hc, hlast⟩
    have hjoinNe := Path.join_ne_nil hne (searchRoot cwd options)
    cases htarget : stop.2.here.target? with
    | none => exact ⟨_, FileTree.resolve_of_arrive
        (FileTree.arrive_follows_of_node harrive htarget) hnull hopenable.short hjoinNe⟩
    | some target =>
      have hlink : stop.2.here = .link target := FileNode.eq_link_of_target? htarget
      have hresolve := FileTree.resolve_of_arrive harrive hnull hopenable.short hjoinNe
      exact hopenable.leads target (hlink ▸ hresolve)

end Matching

/-- Work that does not fail for want of a file, whatever records it begins with. -/
def MissesNoFile (work : Work α) : Prop :=
  ∀ records failure more, work.endFrom records = (.error failure, more) →
    failure.kind ≠ .fileNotFound

namespace MissesNoFile

theorem ofExcept {failure : ε → Failure} {result : Except ε α}
    (h : ∀ e, result = .error e → (failure e).kind ≠ .fileNotFound) :
    MissesNoFile (Work.ofExcept failure result) := by
  intro records own more hend
  rw [Work.endFrom_ofExcept] at hend
  cases result with
  | ok a => cases hend
  | error e =>
    obtain rfl : failure e = own := by simpa [Except.mapError] using congrArg Prod.fst hend
    exact h e rfl

theorem bind {work : Work α} {next : α → Work β} (h : MissesNoFile work)
    (hnext : ∀ a, MissesNoFile (next a)) : MissesNoFile (work >>= next) := by
  intro records failure more hend
  rw [Work.endFrom_bind] at hend
  cases hwork : work.endFrom records with
  | mk result between =>
    rw [hwork] at hend
    cases result with
    | ok a => exact hnext a between failure more hend
    | error own =>
      obtain rfl : own = failure := by simpa using congrArg Prod.fst hend
      exact h records own between hwork

theorem of_mergeWork (documents : List Document) : MissesNoFile (mergeWork documents) := by
  intro records failure more hend
  obtain ⟨between, hmerge⟩ := endFrom_mergeWork documents records
  rw [hmerge] at hend
  cases hend

theorem of_parseContents (texts : List String) (located : Bool) :
    MissesNoFile (parseContents texts located) :=
  .bind (.ofExcept fun _ _ => by simp [Failure.kind]) fun document => .of_mergeWork [document]

theorem of_buildWork (document : Document) (assumeValid : Bool) :
    MissesNoFile (buildWork document assumeValid) := by
  refine .ofExcept fun fault _ => ?_
  rw [Failure.kind]
  unfold BuildFault.failureKind
  split
  · simp
  · simp
  · split <;> simp
  · simp

end MissesNoFile

section Reading

variable {tree : FileTree} {pattern : String} {cwd : Option String} {options : GlobOptions}
  {paths : List String}

theorem kind_of_read {path : Path} {node : FileNode} (h : tree.lookup path = .ok node)
    {fault : ReadFault} (hread : tree.read path = .error fault) :
    (Failure.read fault).kind ≠ .fileNotFound := by
  rw [FileTree.read, h] at hread
  cases node with
  | file bytes =>
    dsimp only at hread
    split at hread
    · obtain rfl := Except.error.inj hread
      simp [Failure.kind]
    · cases hread
  | _ =>
    obtain rfl := Except.error.inj hread
    simp [Failure.kind]

theorem kind_of_readBatch (order : List Nat)
    (hfound : ∀ path ∈ paths, ∃ node, tree.lookup path.toList = .ok node) {failure : Failure}
    (h : (ReadBatch.run tree paths (order.map .ended)).result = .error failure) :
    failure.kind ≠ .fileNotFound := by
  have hcomes := ReadBatch.comesOf_run tree paths order
  generalize ReadBatch.run tree paths (order.map .ended) = b at h hcomes
  cases hcomes with
  | failed first hfailure =>
    obtain ⟨path, hpath, hfault⟩ := first.exists_mem
    obtain ⟨node, hnode⟩ := hfound path (mem_of_mem_pathsInTime hpath)
    simp only [ReadBatch.result, hfailure] at h
    obtain rfl := Except.error.inj h
    exact kind_of_read hnode hfault
  | reading _ =>
    simp only [ReadBatch.result] at h
    split at h
    · cases h
      contradiction
    · cases h
    · obtain rfl := Except.error.inj h
      simp [Failure.kind]

theorem kind_of_loadWith {reading : List String → Work (List String)}
    {next : List String → Work α}
    (hreading : ∀ paths, SortedMatches tree pattern cwd options paths →
      ∃ read, reading paths = Work.ofExcept id read ∧
        ∀ failure, read = .error failure → failure.kind ≠ .fileNotFound)
    (hnext : ∀ texts, MissesNoFile (next texts)) {failure : Failure}
    (h : (loadWith tree pattern cwd options reading next).outcome.1 = .error failure) :
    failure.kind ≠ .fileNotFound := by
  cases hfound : pathsMatching tree pattern.toList (cwd.map String.toList) options with
  | error fault =>
    rw [outcome_loadWith_of_error (outcome_resolvePattern_of_error hfound)] at h
    obtain rfl := Except.error.inj h
    cases fault <;> simp [Failure.kind]
  | ok found =>
    by_cases hne : found = []
    · subst hne
      rw [outcome_loadWith_of_error (outcome_resolvePattern_of_none hfound)] at h
      obtain rfl := Except.error.inj h
      simp [Failure.kind]
    · have hpaths := sortedMatches_mergeSort hfound hne
      obtain ⟨read, hread, hkind⟩ := hreading _ hpaths
      rw [outcome_loadWith reading next hpaths hread] at h
      cases read with
      | error own =>
        obtain rfl := Except.error.inj h
        exact hkind own rfl
      | ok texts => exact hnext texts _ failure _ (Prod.ext h rfl)

end Reading

theorem outcome_of_settle_none {work : Work α} {failure : Failure}
    (h : (work.settle none).settled.result = .error failure) :
    work.outcome.1 = .error failure := by
  rw [Work.settle_none] at h
  generalize work.outcome = outcome at h
  obtain ⟨result, records⟩ := outcome
  cases result with
  | ok a => cases h
  | error own => exact congrArg _ (Except.error.inj h)

/-- Loading does not fail for want of a file, neither with the files read one after another nor with
the files read at the same time. -/
structure LoadsFound (tree : FileTree) (order : List String → List Nat) (pattern : String)
    (cwd : Option String) (options : GlobOptions) (located assumeValid : Bool) : Prop where
  document : ∀ failure, (loadDocument tree pattern cwd options located).outcome.1 = .error failure →
    failure.kind ≠ .fileNotFound
  schema : ∀ failure,
    (loadSchema tree pattern cwd options located assumeValid).outcome.1 = .error failure →
    failure.kind ≠ .fileNotFound
  documentTogether : ∀ failure,
    (loadDocumentRun tree (.undisturbed order) pattern cwd options located none).settled.result =
      .error failure →
    failure.kind ≠ .fileNotFound
  schemaTogether : ∀ failure,
    (loadSchemaRun tree (.undisturbed order) pattern cwd options located assumeValid
      none).settled.result = .error failure →
    failure.kind ≠ .fileNotFound

theorem loadsFound_of_lookup {tree : FileTree} {pattern : String} {cwd : Option String}
    {options : GlobOptions}
    (hfound : ∀ paths, SortedMatches tree pattern cwd options paths →
      ∀ path ∈ paths, ∃ node, tree.lookup path.toList = .ok node)
    (order : List String → List Nat) (located assumeValid : Bool) :
    LoadsFound tree order pattern cwd options located assumeValid := by
  have hturn : ∀ paths, SortedMatches tree pattern cwd options paths →
      ∃ read, readFiles tree paths = Work.ofExcept id read ∧
        ∀ failure, read = .error failure → failure.kind ≠ .fileNotFound := fun paths hpaths => by
    refine ⟨_, readFiles_eq tree paths, fun failure hfailure => ?_⟩
    cases hmap : paths.mapM fun path => tree.read path.toList with
    | ok texts => simp [hmap, Except.mapError] at hfailure
    | error fault =>
      obtain ⟨path, hpath, hread⟩ := exists_of_mapM_eq_error hmap
      obtain ⟨node, hnode⟩ := hfound paths hpaths path hpath
      obtain rfl : Failure.read fault = failure := by simpa [hmap, Except.mapError] using hfailure
      exact kind_of_read hnode hread
  have htogether : ∀ paths, SortedMatches tree pattern cwd options paths →
      ∃ read, readFilesTogether tree (order paths) paths = Work.ofExcept id read ∧
        ∀ failure, read = .error failure → failure.kind ≠ .fileNotFound := fun paths hpaths =>
    ⟨_, rfl, fun _ => kind_of_readBatch (order paths) (hfound paths hpaths)⟩
  have hdocument := fun texts => MissesNoFile.of_parseContents texts located
  have hschema : ∀ texts, MissesNoFile (parseContents texts located >>= fun document =>
      buildWork document assumeValid) := fun texts =>
    (hdocument texts).bind fun document => .of_buildWork document assumeValid
  have hlast := loadWith_bind tree pattern cwd options (readFiles tree)
    (fun texts => parseContents texts located) fun document => buildWork document assumeValid
  have hlastTogether := loadWith_bind tree pattern cwd options
    (fun paths => readFilesTogether tree (order paths) paths)
    (fun texts => parseContents texts located) fun document => buildWork document assumeValid
  refine ⟨fun _ => kind_of_loadWith hturn hdocument, fun _ h => ?_, fun _ h => ?_, fun _ h => ?_⟩
  · exact kind_of_loadWith hturn hschema (hlast ▸ h)
  · rw [loadDocumentRun_undisturbed, loadDocumentTogether_eq] at h
    exact kind_of_loadWith htogether hdocument (outcome_of_settle_none h)
  · rw [loadSchemaRun_undisturbed, loadSchemaTogether, loadDocumentTogether_eq, hlastTogether] at h
    exact kind_of_loadWith htogether hschema (outcome_of_settle_none h)

/-- Every path that a pattern is resolved to names what was found, and loading reads all of it. -/
theorem resolvePattern_opens (tree : FileTree) (hnamed : tree.root.WellNamed) (pattern : String)
    (cwd : Option String) (options : GlobOptions)
    (hplaced : GivenInPlace (cwd.map String.toList) options pattern.toList) :
    (∀ paths, (resolvePattern tree pattern cwd options).outcome.1 = .ok paths →
        ∀ path ∈ paths, ∃ choices own,
          NamesMatch tree (cwd.map String.toList) options pattern.toList path.toList choices own) ∧
      ((∀ paths, (resolvePattern tree pattern cwd options).outcome.1 = .ok paths →
          ∀ path ∈ paths, IsOpenable tree options pattern.toList path.toList) →
        ∀ order located assumeValid,
          LoadsFound tree order pattern cwd options located assumeValid) := by
  have hnames : ∀ paths, SortedMatches tree pattern cwd options paths → ∀ path ∈ paths,
      ∃ choices own,
        NamesMatch tree (cwd.map String.toList) options pattern.toList path.toList choices own := by
    intro paths hpaths path hpath
    obtain ⟨found, hfound, -, hperm, -⟩ := hpaths
    obtain ⟨own, hown, rfl⟩ := List.mem_map.mp (hperm.mem_iff.mp hpath)
    rw [String.toList_ofList]
    exact exists_namesMatch hnamed hplaced hfound hown
  refine ⟨fun paths h => hnames paths (sortedMatches_of_outcome h), fun hopenable =>
    loadsFound_of_lookup fun paths hpaths path hpath => ?_⟩
  obtain ⟨choices, own, hmatch⟩ := hnames paths hpaths path hpath
  exact hmatch.found (hopenable paths (congrArg Prod.fst (outcome_resolvePattern hpaths)) path hpath)

/-- There is a file with the same name in the working directory. What matches is a link out of the
directory that is searched in. -/
theorem resolvePattern_opens_within :
    let empty : FileNode := .file []
    let tree : FileTree := ⟨.directory
      [(['a'], empty), (['b'], empty), (['d'], .directory [(['a'], .link "../b".toList)])], []⟩
    tree.root.WellNamed ∧ GivenInPlace (some ['d']) {} ['a'] ∧
      (resolvePattern tree "a" (some "d") {}).outcome.1 = .ok ["d/a"] ∧
      (∃ choices own, NamesMatch tree (some ['d']) {} ['a'] "d/a".toList choices own) ∧
      IsOpenable tree {} ['a'] "d/a".toList ∧
      LoadsFound tree (fun paths => List.range paths.length) "a" (some "d") {} true false := by
  intro empty tree
  have hnamed : tree.root.WellNamed := by
    have hinner : (FileNode.directory [(['a'], .link "../b".toList)]).WellNamed :=
      .directory (by decide) (by decide) (List.forall_mem_singleton.mpr (.link _))
    exact .directory (by decide) (by decide) (List.forall_mem_cons.mpr ⟨.file [],
      List.forall_mem_cons.mpr ⟨.file [], List.forall_mem_singleton.mpr hinner⟩⟩)
  have hplaced : GivenInPlace (some ['d']) {} ['a'] := fun h => nomatch h
  have hpaths : SortedMatches tree "a" (some "d") {} ["d/a"] :=
    ⟨["d/a".toList], by cbv, by simp, by simp, by simp⟩
  have hresolved := congrArg Prod.fst (outcome_resolvePattern hpaths)
  have hfile : tree.lookup "d/a".toList = .ok empty := by cbv
  have hopenable : IsOpenable tree {} ['a'] "d/a".toList :=
    ⟨by decide, fun _ _ => ⟨_, hfile⟩, by decide⟩
  obtain ⟨hnames, hloads⟩ := resolvePattern_opens tree hnamed "a" (some "d") {} hplaced
  refine ⟨hnamed, hplaced, hresolved, hnames _ hresolved "d/a" (List.mem_singleton.mpr rfl),
    hopenable, hloads (fun paths h path hpath => ?_) _ true false⟩
  obtain rfl := Except.ok.inj (h.symm.trans hresolved)
  exact List.mem_singleton.mp hpath ▸ hopenable

/-- The directory that is searched in is only an option, and its paths are not joined onto it: what is
read is another file of the same name. -/
theorem loadDocument_readsElsewhere :
    let top := "type A { top: Int }"
    let inner := "type A { s: Int }"
    let file (text : String) : FileNode := .file (text.toList.map fun c => c.val.toUInt8)
    let tree : FileTree :=
      ⟨.directory [("a.graphql".toList, file top),
        (['s'], .directory [("a.graphql".toList, file inner)])], []⟩
    let options : GlobOptions := { root := some (some ['s']) }
    tree.root.WellNamed ∧
      (resolvePattern tree "a.graphql" none options).outcome =
        (.ok ["a.graphql"], [.matched "a.graphql" 1]) ∧
      (tree.moveTo ['s']).read "a.graphql".toList = .ok inner ∧
      tree.read "a.graphql".toList = .ok top ∧
      (loadDocument tree "a.graphql" none options true).outcome =
        (parseContents [top] true).endFrom [.matched "a.graphql" 1] := by
  intro top inner file tree options
  have hnamed : tree.root.WellNamed := by
    have hinner : (FileNode.directory [("a.graphql".toList, file inner)]).WellNamed :=
      .directory (by decide) (List.forall_mem_singleton.mpr (by decide))
        (List.forall_mem_singleton.mpr (.file _))
    exact .directory (by decide)
      (List.forall_mem_cons.mpr ⟨by decide, List.forall_mem_singleton.mpr (by decide)⟩)
      (List.forall_mem_cons.mpr ⟨.file _, List.forall_mem_singleton.mpr hinner⟩)
  have hpaths : SortedMatches tree "a.graphql" none options ["a.graphql"] :=
    ⟨["a.graphql".toList], by cbv, by simp, by simp, by simp⟩
  have hread : tree.read "a.graphql".toList = .ok top := by cbv
  exact ⟨hnamed, outcome_resolvePattern hpaths, by cbv, hread,
    (hpaths.outcome_load true false (.cons hread .nil)).1⟩

end SchemaLoom
