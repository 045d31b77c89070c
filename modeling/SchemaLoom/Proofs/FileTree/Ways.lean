import SchemaLoom.Proofs.FileTree.Standing

/-! The ways on which the paths that match a pattern are found. A path is found once for each of its
ways, and it has but one if no more than one component of the pattern stands for any number of
directories. -/

namespace SchemaLoom

namespace Glob

open FileNode

variable (tree : FileTree) (options : GlobOptions)

/-- What a component stands for in a directory, if that can be searched. -/
def stepNames (onlyDirectories : Bool) (directory component : Path) : List Path :=
  (step tree options onlyDirectories (Path.joinNonempty (options.root.join.getD []) directory)
    component).toOption.getD []

/-- A way on which a pattern leads to a path: what each of its components stands for, from the first
one on that has magic or comes after one that has. What comes before is a path by itself. -/
inductive Way : Bool → Path → List Path → Path → Prop where
  | fixed {onlyDirectories : Bool} {pattern : Path} :
    hasMagic pattern = false → Way onlyDirectories pattern [] pattern
  | further {onlyDirectories : Bool} {pattern : Path} {choices : List Path}
    {directory name : Path} : hasMagic pattern = true →
    Way true (Path.split pattern).1 choices directory →
    name ∈ stepNames tree options onlyDirectories directory (Path.split pattern).2 →
    Way onlyDirectories pattern (choices ++ [name]) (Path.join directory name)

/-- No path is led to on two ways. -/
def OneWay (pattern : Path) : Prop :=
  ∀ path choices own, Way tree options false pattern choices path →
    Way tree options false pattern own path → choices = own

/-- No component, or a single one, stands for any number of directories. -/
def AtMostOneDeep (options : GlobOptions) (pattern : Path) : Prop :=
  options.recursive = false ∨ pattern.names.count ['*', '*'] ≤ 1

variable {tree options} {onlyDirectories : Bool} {pattern path other component directory : Path}
  {choices own found : List Path}

theorem stepNames_of_eq_ok (h : step tree options onlyDirectories
    (Path.joinNonempty (options.root.join.getD []) directory) component = .ok found) :
    stepNames tree options onlyDirectories directory component = found := by
  rw [stepNames, h]
  rfl

theorem Way.of_plain (hm : hasMagic pattern = false)
    (h : Way tree options onlyDirectories pattern choices path) :
    choices = [] ∧ path = pattern := by
  cases h with
  | fixed _ => exact ⟨rfl, rfl⟩
  | further hm' _ _ => simp [hm] at hm'

theorem Way.of_magic (hm : hasMagic pattern = true)
    (h : Way tree options onlyDirectories pattern choices path) :
    ∃ before directory name, choices = before ++ [name] ∧ path = Path.join directory name ∧
      Way tree options true (Path.split pattern).1 before directory ∧
      name ∈ stepNames tree options onlyDirectories directory (Path.split pattern).2 := by
  cases h with
  | fixed hm' => simp [hm'] at hm
  | further _ hway hname => exact ⟨_, _, _, rfl, rfl, hway, hname⟩

section Names

variable (hproper : tree.root.IsProper) (hslash : tree.root.SlashFree)
include hproper hslash

theorem stepNames_standsFor (hcomponent : '/' ∉ component) :
    (stepNames tree options onlyDirectories directory component).Nodup ∧
      ∀ name ∈ stepNames tree options onlyDirectories directory component,
        StandsFor options component name := by
  cases hstep : step tree options onlyDirectories
      (Path.joinNonempty (options.root.join.getD []) directory) component with
  | error fault =>
    have hnone : stepNames tree options onlyDirectories directory component = [] := by
      rw [stepNames, hstep]
      rfl
    rw [hnone]
    exact ⟨.nil, by simp⟩
  | ok found =>
    rw [stepNames_of_eq_ok hstep]
    exact step_standsFor hproper hslash hcomponent hstep

theorem standsFor_of_mem {name : Path}
    (h : name ∈ stepNames tree options onlyDirectories directory (Path.split pattern).2) :
    StandsFor options (Path.split pattern).2 name :=
  (stepNames_standsFor hproper hslash (Path.slash_notMem_split pattern)).2 name h

theorem Way.head?_iff (h : Way tree options onlyDirectories pattern choices path) :
    path.head? = some '/' ↔ pattern.head? = some '/' := by
  induction h with
  | fixed _ => exact .rfl
  | @further _ pattern _ directory name _ _ hname ih =>
    have hhead := (standsFor_of_mem hproper hslash hname).head?_ne
    rw [← Path.head?_split pattern, ← ih, Path.join, if_neg hhead]
    by_cases hnil : directory = []
    · simp [hnil, hhead]
    · obtain ⟨c, rest, rfl⟩ := List.exists_cons_of_ne_nil hnil
      split <;> simp

/-- Where each component stands for a single name, all paths have as many names. -/
theorem Way.length_names_eq (hsingle : options.recursive = false ∨ ['*', '*'] ∉ pattern.names)
    (h : Way tree options onlyDirectories pattern choices path)
    (h' : Way tree options onlyDirectories pattern own other) :
    path.names.length = other.names.length := by
  induction h generalizing own other with
  | fixed hm =>
    obtain ⟨-, rfl⟩ := h'.of_plain hm
    rfl
  | @further _ pattern _ directory name hm _ hname ih =>
    obtain ⟨_, directory', name', rfl, rfl, hway, hname'⟩ := h'.of_magic hm
    have hfor := standsFor_of_mem hproper hslash hname
    have hfor' := standsFor_of_mem hproper hslash hname'
    rw [Path.names_split, List.mem_append, not_or] at hsingle
    have hdirectories := ih (hsingle.imp_right And.left) hway
    have hlast : options.recursive = false ∨ (Path.split pattern).2 ≠ ['*', '*'] := by
      refine hsingle.imp_right fun hnone heq => hnone.2 ?_
      rw [heq, Path.names_eq_self (by decide) (by simp)]
      exact List.mem_singleton.mpr rfl
    have hnames := hfor.length_names_eq hlast hfor'
    rw [Path.names_join _ hfor.head?_ne, Path.names_join _ hfor'.head?_ne, List.length_append,
      List.length_append]
    omega

/-- The names of a path tell what the components stand for: all but one of them have a single name,
and so the rest is left to that one. -/
theorem Way.eq_of_names_eq (hone : AtMostOneDeep options pattern)
    (h : Way tree options onlyDirectories pattern choices path)
    (h' : Way tree options onlyDirectories pattern own other) (heq : path.names = other.names) :
    choices = own := by
  induction h generalizing own other with
  | fixed hm => exact (h'.of_plain hm).1.symm
  | @further _ pattern choices directory name hm hway hname ih =>
    obtain ⟨own, directory', name', rfl, rfl, hway', hname'⟩ := h'.of_magic hm
    have hfor := standsFor_of_mem hproper hslash hname
    have hfor' := standsFor_of_mem hproper hslash hname'
    rw [Path.names_join _ hfor.head?_ne, Path.names_join _ hfor'.head?_ne] at heq
    rw [AtMostOneDeep, Path.names_split, List.count_append] at hone
    -- The lengths agree where the deep component is not, so the names are divided alike.
    have hparts : directory.names = directory'.names ∧ name.names = name'.names := by
      by_cases hlast : options.recursive = false ∨ (Path.split pattern).2 ≠ ['*', '*']
      · exact List.append_inj' heq (hfor.length_names_eq hlast hfor')
      · push Not at hlast
        have hcount : (Path.split pattern).2.names.count ['*', '*'] = 1 := by
          rw [hlast.2]
          decide
        have hsingle : options.recursive = false ∨
            ['*', '*'] ∉ (Path.split pattern).1.names := by
          refine hone.imp_right fun hle => List.count_eq_zero.mp ?_
          omega
        exact List.append_inj heq (hway.length_names_eq hproper hslash hsingle hway')
    have hchoices := ih (hone.imp_right fun hle => by omega) hway' hparts.1
    rw [hchoices, hfor.eq_of_names_eq hfor' hparts.2]

theorem oneWay_of_atMostOneDeep (hone : AtMostOneDeep options pattern) :
    OneWay tree options pattern := fun _ _ _ h h' =>
  h.eq_of_names_eq hproper hslash hone h' rfl

end Names

/-- The empty path is led to on one way at most, on which all components stand for nothing. -/
theorem Way.eq_of_nil (h : Way tree options onlyDirectories pattern choices path) (hnil : path = [])
    (h' : Way tree options onlyDirectories pattern own []) : choices = own := by
  induction h generalizing own with
  | fixed hm => exact (h'.of_plain hm).1.symm
  | further hm _ _ ih =>
    obtain ⟨own, directory', name', rfl, hother, hway, -⟩ := h'.of_magic hm
    obtain ⟨rfl, rfl⟩ := join_eq_nil hnil
    obtain ⟨rfl, rfl⟩ := join_eq_nil hother.symm
    rw [ih rfl hway]

/-- Only a pattern that is empty or begins with any number of directories leads to the empty path. -/
theorem Way.of_nil (hproper : tree.root.IsProper) (hslash : tree.root.SlashFree)
    (h : Way tree options onlyDirectories pattern choices path) (hnil : path = []) :
    pattern = [] ∨ options.recursive = true ∧ ['*', '*'] <+: pattern := by
  induction h with
  | fixed _ => exact .inl hnil
  | @further _ pattern _ directory name hm _ hname ih =>
    obtain ⟨hdirectory, rfl⟩ := join_eq_nil hnil
    refine .inr ?_
    rcases ih hdirectory with hfirst | ⟨hr, hdeep⟩
    · have hfor := standsFor_of_mem hproper hslash hname
      rw [Path.split_eq_of_fst_nil hfirst] at hfor
      cases hfor with
      | itself hm' _ => simp [hm'] at hm
      | name _ _ hne => exact absurd rfl hne
      | names _ hr hc _ => exact ⟨hr, hc ▸ List.prefix_refl _⟩
    · exact ⟨hr, hdeep.trans (Path.split_fst_isPrefix pattern)⟩

/-- All ways of a pattern, in the order in which they are gone. -/
def AllWays (tree : FileTree) (options : GlobOptions) (onlyDirectories : Bool) (pattern : Path)
    (ways : List (List Path × Path)) : Prop :=
  (ways.map Prod.fst).Nodup ∧
    ∀ way, way ∈ ways ↔ Way tree options onlyDirectories pattern way.1 way.2

variable {ways : List (List Path × Path)}

theorem AllWays.nodup_iff (h : AllWays tree options false pattern ways) :
    (ways.map Prod.snd).Nodup ↔ OneWay tree options pattern := by
  rw [List.nodup_map_iff_inj_on h.1.of_map]
  constructor
  · intro hinj path choices own hway hown
    exact congrArg Prod.fst
      (hinj (choices, path) ((h.2 _).mpr hway) (own, path) ((h.2 _).mpr hown) rfl)
  · intro hone way hway other hother heq
    have hown := (h.2 other).mp hother
    rw [← heq] at hown
    exact Prod.ext (hone _ _ _ ((h.2 way).mp hway) hown) heq

theorem AllWays.nil_notMem_tail (h : AllWays tree options onlyDirectories pattern ways)
    {rest : List Path} (heq : ways.map Prod.snd = [] :: rest) : [] ∉ rest := by
  obtain ⟨first, more, rfl, hfirst, rfl⟩ := List.map_eq_cons_iff.mp heq
  intro hm
  obtain ⟨way, hway, hnil⟩ := List.mem_map.mp hm
  have hleft := (h.2 first).mp (List.mem_cons_self ..)
  have hright := (h.2 way).mp (List.mem_cons_of_mem _ hway)
  rw [hnil] at hright
  have hnew := (List.nodup_cons.mp h.1).1
  rw [hleft.eq_of_nil hfirst hright] at hnew
  exact hnew (List.mem_map.mpr ⟨way, hway, rfl⟩)

/-- Without the empty path in front, whether a path is found twice is still the same. -/
theorem AllWays.nodup_dropEmpty_iff (h : AllWays tree options false pattern ways) :
    (dropEmpty (ways.map Prod.snd)).Nodup ↔ OneWay tree options pattern := by
  rw [← h.nodup_iff]
  unfold dropEmpty
  split
  · rename_i rest heq
    refine ⟨fun hnd => ?_, fun hnd => (List.nodup_cons.mp (heq ▸ hnd)).2⟩
    rw [heq, List.nodup_cons]
    exact ⟨h.nil_notMem_tail heq, hnd⟩
  · exact .rfl

theorem allWays_fixed (hm : hasMagic pattern = false) :
    AllWays tree options onlyDirectories pattern [([], pattern)] := by
  refine ⟨List.nodup_singleton _, fun way => ?_⟩
  rw [List.mem_singleton]
  constructor
  · rintro rfl
    exact .fixed hm
  · intro hway
    obtain ⟨hchoices, hpath⟩ := hway.of_plain hm
    exact Prod.ext hchoices hpath

theorem flatten_mapM_stepIn {directories : List Path} {lists : List (List Path)}
    (h : directories.mapM (stepIn options onlyDirectories tree component) = .ok lists) :
    lists.flatten = directories.flatMap fun directory =>
      (stepNames tree options onlyDirectories directory component).map (Path.join directory) := by
  induction directories generalizing lists with
  | nil =>
    obtain rfl : [] = lists := Except.ok.inj h
    rfl
  | cons directory rest ih =>
    obtain ⟨first, more, hfirst, hmore, rfl⟩ := mapM_cons_eq_ok_iff.mp h
    obtain ⟨names, hnames, hfirst⟩ := exists_of_bind_eq_ok hfirst
    obtain rfl := Except.ok.inj hfirst
    rw [List.flatten_cons, List.flatMap_cons, ih hmore, stepNames_of_eq_ok hnames]

/-- The directory where the search begins is gone through like any other one. -/
theorem search_magic (hm : hasMagic pattern = true) :
    search tree options onlyDirectories pattern = do
      let directories ← heads options tree pattern
      let found ← directories.mapM
        (stepIn options onlyDirectories tree (Path.split pattern).2)
      return found.flatten := by
  by_cases hhead : (Path.split pattern).1 = []
  · have hheads : heads options tree pattern = .ok [[]] := by simp [heads, hhead, hasMagic]
    have hjoin : ∀ names : List Path, names.map (Path.join []) = names := fun names =>
      List.map_id'' (fun name => by simp [Path.join]) names
    rw [search_name options onlyDirectories tree hm hhead, hheads]
    cases hstep : step tree options onlyDirectories (options.root.join.getD [])
        (Path.split pattern).2 with
    | error fault => simp [stepIn, Path.joinNonempty, hstep, bind, Except.bind]
    | ok names =>
      simp [stepIn, Path.joinNonempty, hstep, hjoin, bind, Except.bind, pure, Except.pure]
  · exact search_path options onlyDirectories tree hm hhead

theorem plain_sublist (tree : FileTree) (root path : Path) :
    (plain tree root path).Sublist [path] := by
  rw [plain]
  dsimp only
  generalize (if (Path.split path).2.isEmpty then _ else _ : Bool) = exists?
  cases exists? with
  | false => exact List.nil_sublist _
  | true => exact .refl _

theorem dropEmpty_sublist (found : List Path) : (dropEmpty found).Sublist found := by
  unfold dropEmpty
  split
  · exact List.sublist_cons_self ..
  · exact .refl _

section Search

variable (hproper : tree.root.IsProper) (hslash : tree.root.SlashFree)
include hproper hslash

theorem AllWays.further (hm : hasMagic pattern = true)
    (h : AllWays tree options true (Path.split pattern).1 ways) :
    AllWays tree options onlyDirectories pattern (ways.flatMap fun way =>
      (stepNames tree options onlyDirectories way.2 (Path.split pattern).2).map fun name =>
        (way.1 ++ [name], Path.join way.2 name)) := by
  have hnames : ∀ directory,
      (stepNames tree options onlyDirectories directory (Path.split pattern).2).Nodup := fun _ =>
    (stepNames_standsFor hproper hslash (Path.slash_notMem_split pattern)).1
  refine ⟨?_, fun way => ⟨fun hway => ?_, fun hway => ?_⟩⟩
  -- Ways that part before the last component stay apart, and so do those that part there.
  · rw [List.map_flatMap, List.nodup_flatMap]
    simp only [List.map_map, Function.comp_def]
    refine ⟨fun way _ => (hnames way.2).map fun name name' heq => ?_, ?_⟩
    · simpa using heq
    · refine (List.pairwise_map.mp h.1).imp fun hne => List.disjoint_left.mpr fun own hl hr => ?_
      obtain ⟨name, -, rfl⟩ := List.mem_map.mp hl
      obtain ⟨name', -, heq⟩ := List.mem_map.mp hr
      exact hne (List.append_inj' heq rfl).1.symm
  · obtain ⟨start, hstart, hway⟩ := List.mem_flatMap.mp hway
    obtain ⟨name, hname, rfl⟩ := List.mem_map.mp hway
    exact .further hm ((h.2 start).mp hstart) hname
  · obtain ⟨before, directory, name, hchoices, hpath, hway, hname⟩ := hway.of_magic hm
    exact List.mem_flatMap.mpr ⟨(before, directory), (h.2 _).mpr hway,
      List.mem_map.mpr ⟨name, hname, (Prod.ext hchoices hpath).symm⟩⟩

/-- What is found is where all ways lead. -/
theorem exists_allWays_search (onlyDirectories : Bool) (pattern : Path) (found : List Path)
    (hm : hasMagic pattern = true)
    (h : search tree options onlyDirectories pattern = .ok found) :
    ∃ ways, AllWays tree options onlyDirectories pattern ways ∧ ways.map Prod.snd = found := by
  rw [search_magic hm] at h
  obtain ⟨directories, hdirectories, h⟩ := exists_of_bind_eq_ok h
  obtain ⟨lists, hlists, h⟩ := exists_of_bind_eq_ok h
  obtain rfl := Except.ok.inj h
  have hheads : ∃ ways, AllWays tree options true (Path.split pattern).1 ways ∧
      ways.map Prod.snd = directories := by
    unfold heads at hdirectories
    dsimp only at hdirectories
    split at hdirectories
    · rename_i hand
      exact exists_allWays_search true _ directories hand.2 hdirectories
    · rename_i hnot
      have hfixed : hasMagic (Path.split pattern).1 = false := by
        simpa [Path.split_ne_self hm] using hnot
      exact ⟨_, allWays_fixed hfixed, Except.ok.inj hdirectories⟩
  obtain ⟨ways, hways, rfl⟩ := hheads
  refine ⟨_, hways.further hproper hslash hm, ?_⟩
  rw [flatten_mapM_stepIn hlists, List.map_flatMap, List.flatMap_map]
  simp [Function.comp_def]
termination_by pattern.length
decreasing_by exact Path.length_split_fst_lt (Path.split_ne_self hm)

theorem glob_cases (h : glob tree options pattern = .ok found) :
    hasMagic pattern = false ∧ found.Sublist [pattern] ∨
      ∃ ways, AllWays tree options false pattern ways ∧
        (found = ways.map Prod.snd ∨ found = dropEmpty (ways.map Prod.snd)) := by
  rw [glob_eq] at h
  obtain ⟨all, hall, hfound⟩ := exists_of_bind_eq_ok h
  obtain rfl := Except.ok.inj hfound
  cases hm : hasMagic pattern with
  | true =>
    obtain ⟨ways, hways, rfl⟩ := exists_allWays_search hproper hslash false pattern all hm hall
    refine .inr ⟨ways, hways, ?_⟩
    split
    · exact .inr rfl
    · exact .inl rfl
  | false =>
    rw [search_plain options false tree hm] at hall
    obtain rfl := Except.ok.inj hall
    have hplain := plain_sublist tree (options.root.join.getD []) pattern
    refine .inl ⟨rfl, ?_⟩
    split
    · exact (dropEmpty_sublist _).trans hplain
    · exact hplain

theorem search_nil_cons {rest : List Path}
    (h : search tree options false pattern = .ok ([] :: rest)) :
    [] ∉ rest ∧ (pattern = [] ∨ options.recursive = true ∧ ['*', '*'] <+: pattern) := by
  cases hm : hasMagic pattern with
  | true =>
    obtain ⟨ways, hways, heq⟩ := exists_allWays_search hproper hslash false pattern _ hm h
    obtain ⟨way, hway, hnil⟩ := List.mem_map.mp (heq ▸ List.mem_cons_self ..)
    exact ⟨hways.nil_notMem_tail heq, ((hways.2 way).mp hway).of_nil hproper hslash hnil⟩
  | false =>
    rw [search_plain options false tree hm] at h
    have hsub := plain_sublist tree (options.root.join.getD []) pattern
    rw [Except.ok.inj h, List.sublist_singleton] at hsub
    obtain ⟨rfl, rfl⟩ := List.cons.inj (hsub.resolve_left (List.cons_ne_nil _ _))
    exact ⟨List.not_mem_nil, .inl rfl⟩

/-- The empty path is found at most once, in front of all others, and then it is left out. -/
theorem glob_eq_filter (options : GlobOptions) (pattern : Path) :
    glob tree options pattern =
      (search tree options false pattern).map (List.filter (!·.isEmpty)) := by
  have hself : ∀ {paths : List Path}, [] ∉ paths → paths.filter (!·.isEmpty) = paths :=
    fun hnil => List.filter_eq_self.mpr fun path hpath => by
      simpa using fun heq : path = [] => hnil (heq ▸ hpath)
  rw [glob_eq]
  cases hsearch : search tree options false pattern with
  | error fault => rfl
  | ok found =>
    refine congrArg Except.ok ?_
    by_cases hnil : [] ∈ found
    · obtain ⟨rest, rfl⟩ :=
        List.head?_eq_some_iff.mp (emptyFirst_search hproper false pattern found hsearch hnil)
      obtain ⟨hrest, hgiven⟩ := search_nil_cons hproper hslash hsearch
      rw [if_pos, dropEmpty, List.filter_cons_of_neg (by simp), hself hrest]
      rcases hgiven with rfl | ⟨hr, hdeep⟩
      · rfl
      · have htake := List.prefix_iff_eq_take.mp hdeep
        simp only [List.length_cons, List.length_nil] at htake
        simp [hr, ← htake]
    · rw [hself hnil, dropEmpty_of_notMem hnil, ite_self]

theorem exists_search_of_glob (h : glob tree options pattern = .ok found) :
    ∃ all, search tree options false pattern = .ok all ∧ found = all.filter (!·.isEmpty) := by
  rw [glob_eq_filter hproper hslash] at h
  cases hsearch : search tree options false pattern with
  | error fault =>
    rw [hsearch] at h
    cases h
  | ok all =>
    rw [hsearch] at h
    exact ⟨all, rfl, (Except.ok.inj h).symm⟩

theorem ne_nil_of_mem_glob (h : glob tree options pattern = .ok found) (hpath : path ∈ found) :
    path ≠ [] := by
  obtain ⟨all, -, rfl⟩ := exists_search_of_glob hproper hslash h
  simpa using (List.mem_filter.mp hpath).2

/-- A path is found twice if it is led to on two ways, and only then. -/
theorem nodup_glob_iff (h : glob tree options pattern = .ok found) :
    found.Nodup ↔ OneWay tree options pattern := by
  obtain ⟨hm, hsub⟩ | ⟨ways, hways, rfl | rfl⟩ := glob_cases hproper hslash h
  · have hone : OneWay tree options pattern :=
      (allWays_fixed hm).nodup_iff.mp (List.nodup_singleton pattern)
    exact iff_of_true ((List.nodup_singleton pattern).sublist hsub) hone
  · exact hways.nodup_iff
  · exact hways.nodup_dropEmpty_iff

theorem exists_way_of_mem_glob (h : glob tree options pattern = .ok found) (hpath : path ∈ found) :
    ∃ choices, Way tree options false pattern choices path := by
  obtain ⟨hm, hsub⟩ | ⟨ways, hways, hfound⟩ := glob_cases hproper hslash h
  · obtain rfl := List.mem_singleton.mp (hsub.subset hpath)
    exact ⟨[], .fixed hm⟩
  · have hmem : path ∈ ways.map Prod.snd := by
      rcases hfound with rfl | rfl
      · exact hpath
      · exact (dropEmpty_sublist _).subset hpath
    obtain ⟨way, hway, rfl⟩ := List.mem_map.mp hmem
    exact ⟨way.1, (hways.2 way).mp hway⟩

end Search

end Glob

end SchemaLoom
