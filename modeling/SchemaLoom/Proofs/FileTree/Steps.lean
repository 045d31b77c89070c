import SchemaLoom.Proofs.FileTree.Naming
import SchemaLoom.Proofs.FileTree.Ways

/-! What one component of a pattern leads to in a directory, as a relation. Whether a search gets
through at all depends on the pattern alone, for no name in a tree has a null character. -/

namespace SchemaLoom

namespace FileTree

variable {tree : FileTree} {path : Path}

theorem contains_iff : tree.contains path = true ↔ ∃ node, tree.resolve false path = .ok node := by
  unfold contains
  cases tree.resolve false path <;> simp [Except.isOk, Except.toBool]

theorem isDirectory_iff :
    tree.isDirectory path = true ↔ ∃ entries, tree.lookup path = .ok (.directory entries) := by
  unfold isDirectory
  cases tree.lookup path with
  | error fault => simp
  | ok node => cases node <;> simp [FileNode.isDirectory]

end FileTree

namespace Glob

variable {tree other : FileTree} {options own : GlobOptions} {onlyDirectories : Bool}
  {directory component name pattern path : Path} {choices : List Path}

theorem checkPath_eq_ok_iff {u : Unit} : checkPath path = .ok u ↔ '\x00' ∉ path := by
  simp [checkPath]

/-- What a component leads to in a directory: nothing, a name, or a path below that directory. -/
inductive StepsTo (tree : FileTree) (options : GlobOptions) (onlyDirectories : Bool)
    (directory component : Path) : Path → Prop where
  | here : component = [] → tree.isDirectory directory = true →
    StepsTo tree options onlyDirectories directory component []
  | itself : hasMagic component = false → component ≠ [] →
    tree.contains (Path.joinNonempty directory component) = true →
    StepsTo tree options onlyDirectories directory component component
  | entry {name : Path} : hasMagic component = true →
    (options.recursive && component = ['*', '*']) = false → '\x00' ∉ directory →
    name ∈ listing tree onlyDirectories directory →
    ((options.includeHidden || isHidden component || !isHidden name) &&
      Wildcard.matchesName component name) = true →
    StepsTo tree options onlyDirectories directory component name
  | none : options.recursive = true → component = ['*', '*'] → '\x00' ∉ directory →
    (!options.asksFirst || directory.isEmpty || tree.isDirectory directory) = true →
    StepsTo tree options onlyDirectories directory component []
  | deep {path : Path} : options.recursive = true → component = ['*', '*'] → '\x00' ∉ directory →
    path ∈ descendants tree options.includeHidden onlyDirectories maxDepth directory →
    StepsTo tree options onlyDirectories directory component path

theorem mem_exactly_iff : name ∈ exactly tree directory component ↔
    name = component ∧ (component = [] ∧ tree.isDirectory directory = true ∨
      component ≠ [] ∧ tree.contains (Path.joinNonempty directory component) = true) := by
  unfold exactly
  by_cases hnil : component = [] <;> simp [hnil, and_comm]

theorem mem_below_iff :
    (∃ found, below tree options onlyDirectories directory = .ok found ∧ path ∈ found) ↔
      '\x00' ∉ directory ∧
        (path = [] ∧
            (!options.asksFirst || directory.isEmpty || tree.isDirectory directory) = true ∨
          path ∈ descendants tree options.includeHidden onlyDirectories maxDepth directory) := by
  rw [← checkPath_eq_ok_iff (u := ())]
  unfold below
  cases checkPath directory with
  | error fault => simp [bind, Except.bind]
  | ok _ =>
    simp only [bind, Except.bind, pure, Except.pure, Except.ok.injEq, exists_eq_left',
      List.mem_append, true_and]
    split
    · rename_i hnone
      simp [hnone]
    · rename_i hsome
      simp [hsome]

theorem mem_matching_iff :
    (∃ found, matching tree options onlyDirectories directory component = .ok found ∧
        name ∈ found) ↔
      '\x00' ∉ directory ∧ name ∈ listing tree onlyDirectories directory ∧
        ((options.includeHidden || isHidden component || !isHidden name) &&
          Wildcard.matchesName component name) = true := by
  rw [← checkPath_eq_ok_iff (u := ())]
  unfold matching
  cases checkPath directory <;> simp [bind, Except.bind, pure, Except.pure]

theorem mem_step_iff :
    (∃ found, step tree options onlyDirectories directory component = .ok found ∧ name ∈ found) ↔
      StepsTo tree options onlyDirectories directory component name := by
  unfold step
  cases hm : hasMagic component with
  | false =>
    simp only [Bool.not_false, if_true, Except.ok.injEq, exists_eq_left', mem_exactly_iff]
    constructor
    · rintro ⟨rfl, ⟨rfl, hdirectory⟩ | ⟨hne, hcontains⟩⟩
      · exact .here rfl hdirectory
      · exact .itself hm hne hcontains
    · intro h
      cases h with
      | here hnil hdirectory => exact ⟨hnil.symm, .inl ⟨hnil, hdirectory⟩⟩
      | itself _ hne hcontains => exact ⟨rfl, .inr ⟨hne, hcontains⟩⟩
      | entry hm' => simp [hm] at hm'
      | none _ hc => simp [hc, hasMagic, isMagicChar] at hm
      | deep _ hc => simp [hc, hasMagic, isMagicChar] at hm
  | true =>
    have hne : component ≠ [] := fun hnil => by simp [hnil, hasMagic] at hm
    rw [if_neg (by simp)]
    split
    · rename_i hdeep
      simp only [Bool.and_eq_true, decide_eq_true_eq] at hdeep
      rw [mem_below_iff]
      constructor
      · rintro ⟨hnull, ⟨rfl, hnone⟩ | hpath⟩
        · exact .none hdeep.1 hdeep.2 hnull hnone
        · exact .deep hdeep.1 hdeep.2 hnull hpath
      · intro h
        cases h with
        | here hnil _ => exact absurd hnil hne
        | itself hm' _ _ => simp [hm] at hm'
        | entry _ hshallow => simp [hdeep] at hshallow
        | none _ _ hnull hnone => exact ⟨hnull, .inl ⟨rfl, hnone⟩⟩
        | deep _ _ hnull hpath => exact ⟨hnull, .inr hpath⟩
    · rename_i hshallow
      rw [mem_matching_iff]
      constructor
      · rintro ⟨hnull, hname, hmatches⟩
        exact .entry hm (by simpa using hshallow) hnull hname hmatches
      · intro h
        cases h with
        | here hnil _ => exact absurd hnil hne
        | itself hm' _ _ => simp [hm] at hm'
        | entry _ _ hnull hname hmatches => exact ⟨hnull, hname, hmatches⟩
        | none hr hc => simp [hr, hc] at hshallow
        | deep hr hc => simp [hr, hc] at hshallow

theorem mem_stepNames_iff : name ∈ stepNames tree options onlyDirectories directory component ↔
    StepsTo tree options onlyDirectories
      (Path.joinNonempty (options.root.join.getD []) directory) component name := by
  rw [← mem_step_iff, stepNames]
  cases step tree options onlyDirectories
    (Path.joinNonempty (options.root.join.getD []) directory) component <;> simp [Except.toOption]

theorem mem_plain_iff {root : Path} : name ∈ plain tree root path ↔ name = path ∧
    ((Path.split path).2 = [] ∧
        tree.isDirectory (Path.joinNonempty root (Path.split path).1) = true ∨
      (Path.split path).2 ≠ [] ∧ tree.contains (Path.joinNonempty root path) = true) := by
  rw [plain]
  dsimp only
  by_cases hnil : (Path.split path).2 = [] <;> simp [hnil, and_comm]

theorem exists_step_iff :
    (∃ found, step tree options onlyDirectories directory component = .ok found) ↔
      (hasMagic component = true → '\x00' ∉ directory) := by
  rw [← checkPath_eq_ok_iff (u := ()), step, below, matching]
  cases hm : hasMagic component with
  | false => simp
  | true =>
    rw [if_neg (by simp)]
    cases checkPath directory <;> split <;> simp [bind, Except.bind, pure, Except.pure]

section Named

variable (hnamed : tree.root.WellNamed)
include hnamed

theorem StepsTo.nullFree (hslash : '/' ∉ component)
    (h : StepsTo tree options onlyDirectories directory component name) :
    '\x00' ∉ directory ∧ '\x00' ∉ name := by
  cases h with
  | here _ hdirectory =>
    obtain ⟨_, hlookup⟩ := FileTree.isDirectory_iff.mp hdirectory
    exact ⟨(FileTree.askable_of_resolve hlookup).1, by simp⟩
  | itself _ _ hcontains =>
    obtain ⟨_, hresolve⟩ := FileTree.contains_iff.mp hcontains
    have hnull := (FileTree.askable_of_resolve hresolve).1
    have hhead : component.head? ≠ some '/' := fun hhead => hslash (List.mem_of_head? hhead)
    exact ⟨fun hmem => hnull ((Path.prefix_joinNonempty hhead _).subset hmem),
      fun hmem => hnull ((Path.sublist_joinNonempty ..).subset hmem)⟩
  | entry _ _ hnull hname _ => exact ⟨hnull, (isFileName_of_mem_listing hnamed hname).nullFree⟩
  | none _ _ hnull _ => exact ⟨hnull, by simp⟩
  | deep _ _ hnull hpath => exact ⟨hnull, nullFree_of_mem_descendants hnamed hpath⟩

theorem Way.nullFree (hm : hasMagic pattern = true)
    (h : Way tree options onlyDirectories pattern choices path) : '\x00' ∉ path := by
  obtain ⟨before, directory, name, -, rfl, -, hname⟩ := h.of_magic hm
  obtain ⟨hdirectory, hname⟩ :=
    (mem_stepNames_iff.mp hname).nullFree hnamed (Path.slash_notMem_split pattern)
  intro hmem
  rcases Path.mem_or_mem_of_mem_join (by decide) hmem with hmem | hmem
  · exact hdirectory ((Path.sublist_joinNonempty ..).subset hmem)
  · exact hname hmem

theorem nullFree_of_mem_search {found : List Path} (hm : hasMagic pattern = true)
    (h : search tree options onlyDirectories pattern = .ok found) (hpath : path ∈ found) :
    '\x00' ∉ path := by
  obtain ⟨ways, hways, rfl⟩ :=
    exists_allWays_search hnamed.isProper hnamed.slashFree onlyDirectories pattern found hm h
  obtain ⟨way, hway, rfl⟩ := List.mem_map.mp hpath
  exact ((hways.2 way).mp hway).nullFree hnamed hm

end Named

theorem exists_stepIn (hm : hasMagic component = true → '\x00' ∉ directory)
    (hroot : '\x00' ∉ options.root.join.getD []) :
    ∃ found, stepIn options onlyDirectories tree component directory = .ok found := by
  have hstep : ∃ names, step tree options onlyDirectories
      (Path.joinNonempty (options.root.join.getD []) directory) component = .ok names :=
    exists_step_iff.mpr fun hm' hmem =>
      (Path.mem_or_mem_of_mem_joinNonempty (by decide) hmem).elim hroot (hm hm')
  obtain ⟨names, hnames⟩ := hstep
  exact ⟨names.map (Path.join directory), by rw [stepIn, hnames]; rfl⟩

/-- A pattern that is searched for in one tree can be searched for in any other, wherever the search
begins. -/
theorem exists_search_of_search (hnamed : tree.root.WellNamed) (hother : other.root.WellNamed)
    (hroot : '\x00' ∉ own.root.join.getD []) (onlyDirectories onlyOwn : Bool) (pattern : Path)
    {found : List Path} (h : search tree options onlyDirectories pattern = .ok found) :
    ∃ more, search other own onlyOwn pattern = .ok more := by
  cases hm : hasMagic pattern with
  | false => exact ⟨_, search_plain own onlyOwn other hm⟩
  | true =>
    rw [search_magic hm] at h ⊢
    obtain ⟨directories, hdirectories, h⟩ := exists_of_bind_eq_ok h
    obtain ⟨lists, hlists, -⟩ := exists_of_bind_eq_ok h
    obtain ⟨others, hothers, hnull⟩ : ∃ others, heads own other pattern = .ok others ∧
        ∀ directory ∈ others, hasMagic (Path.split pattern).2 = true → '\x00' ∉ directory := by
      unfold heads at hdirectories ⊢
      dsimp only at hdirectories ⊢
      split
      · rename_i hhead
        rw [if_pos hhead] at hdirectories
        obtain ⟨others, hothers⟩ :=
          exists_search_of_search hnamed hother hroot true true _ hdirectories
        exact ⟨others, hothers, fun directory hdirectory _ =>
          nullFree_of_mem_search hother hhead.2 hothers hdirectory⟩
      · rename_i hhead
        rw [if_neg hhead] at hdirectories
        obtain rfl := Except.ok.inj hdirectories
        refine ⟨_, rfl, List.forall_mem_singleton.mpr fun hm' hmem => ?_⟩
        obtain ⟨_, _, hstep, -, -⟩ := mapM_cons_eq_ok_iff.mp hlists
        obtain ⟨names, hnames, -⟩ := exists_of_bind_eq_ok hstep
        exact exists_step_iff.mp ⟨names, hnames⟩ hm' ((Path.sublist_joinNonempty ..).subset hmem)
    have hlast : ∃ more, others.mapM (stepIn own onlyOwn other (Path.split pattern).2) = .ok more :=
      exists_mapM_eq_ok fun directory hdirectory =>
        exists_stepIn (hnull directory hdirectory) hroot
    obtain ⟨more, hmore⟩ := hlast
    exact ⟨more.flatten, by rw [hothers]; simp [hmore, bind, Except.bind, pure, Except.pure]⟩
termination_by pattern.length
decreasing_by
  rename_i hhead
  exact Path.length_split_fst_lt hhead.1

theorem fault_search {fault : GlobFault} (onlyDirectories : Bool) (pattern : Path)
    (h : search tree options onlyDirectories pattern = .error fault) : fault = .nullCharacter := by
  cases hm : hasMagic pattern with
  | false =>
    rw [search_plain options onlyDirectories tree hm] at h
    cases h
  | true =>
    rw [search_magic hm] at h
    cases hheads : heads options tree pattern with
    | error own =>
      rw [hheads] at h
      obtain rfl : own = fault := Except.error.inj h
      unfold heads at hheads
      dsimp only at hheads
      split at hheads
      · exact fault_search true _ hheads
      · cases hheads
    | ok directories =>
      rw [hheads] at h
      cases hlists : directories.mapM
          (stepIn options onlyDirectories tree (Path.split pattern).2) with
      | ok lists => simp [hlists, bind, Except.bind, pure, Except.pure] at h
      | error own =>
        simp only [hlists, bind, Except.bind] at h
        obtain rfl : own = fault := Except.error.inj h
        obtain ⟨directory, -, hfault⟩ := exists_of_mapM_eq_error hlists
        exact fault_stepIn hfault
termination_by pattern.length
decreasing_by
  rename_i hhead
  exact Path.length_split_fst_lt hhead.1

end Glob

end SchemaLoom
