import SchemaLoom.Proofs.FileTree.Steps

/-! Where the paths that match a pattern lead. Joined onto the directory that was searched in, each of
them leads to what was found there, be it a link that leads nowhere, unless it gets too long. The one
exception is a pattern for any number of directories if it is not asked first whether there is a
directory: it matches the path of anything with a slash. -/

namespace SchemaLoom

namespace FileTree

variable {tree : FileTree} {root : FileNode} {links : Nat} {place : Spot} {names : List Path}
  {path : Path} {stop : Nat × Spot}

theorem walkStep_entry (h : place.here.WellNamed) {e : Path × FileNode}
    (he : e ∈ place.here.entries) :
    walkStep place e.1 = .ok ⟨place.here :: place.trail, e.2⟩ := by
  have hname := (h.entries e he).1
  have hchild := h.child?_of_mem he
  have hdirectory : place.here.isDirectory = true := by
    generalize place.here = here at he
    cases here with
    | directory _ => rfl
    | _ => cases he
  simp [walkStep, hdirectory, hname.nonempty, hname.notHere, hname.notAbove, hname.short, hchild]

/-- An entry is reached, though it may be a link that leads nowhere. -/
theorem exists_walk_entry (h : place.here.WellNamed) {e : Path × FileNode}
    (he : e ∈ place.here.entries) (root : FileNode) (links : Nat) :
    ∃ stop, walk root false links place (Path.components e.1) = .ok stop := by
  have hname : Path.components e.1 = [e.1] := by
    rw [Path.components_eq_splitOn, List.splitOn_eq_singleton (h.entries e he).1.slashFree]
  have hstep := walkStep_entry h he
  rw [hname]
  cases htarget : e.2.target? with
  | none => exact ⟨_, by rw [walk_cons_of_node hstep htarget, walk]⟩
  | some target => exact ⟨_, walk_last_link hstep htarget⟩

/-- Only a link leads further than to itself. -/
theorem walk_follows_of_node (h : walk root false links place names = .ok stop)
    (hnode : stop.2.here.target? = none) : walk root true links place names = .ok stop := by
  have hon : ∀ rest : List Path, ¬(!true && rest.isEmpty) = true := by simp
  fun_induction walk root false links place names with
  | case1 links place => rw [walk, h]
  | case2 _ _ _ _ _ _ => cases h
  | case3 links place name rest next hstep hnext ih =>
    rw [walk_cons_of_node hstep hnext]
    exact ih h
  | case4 links place name rest next hstep target hlink hlast =>
    obtain rfl := Except.ok.inj h
    rw [hlink] at hnode
    cases hnode
  | case5 _ _ _ _ _ _ _ _ => cases h
  | case6 place name rest next hstep target hlink _ links ih =>
    rw [walk_cons_of_link hstep hlink (hon rest), if_neg (by omega)]
    exact ih h

theorem arrive_follows_of_node (h : tree.arrive false path = .ok stop)
    (hnode : stop.2.here.target? = none) : tree.arrive true path = .ok stop := by
  obtain ⟨begun, hbegun, hwalk⟩ := exists_of_bind_eq_ok h
  rw [arrive, hbegun]
  exact walk_follows_of_node hwalk hnode

/-- What is behind a link is only there if the link is. -/
theorem exists_arrive_of_follows (h : tree.arrive true path = .ok stop) :
    ∃ own, tree.arrive false path = .ok own := by
  cases harrive : tree.arrive false path with
  | ok own => exact ⟨own, rfl⟩
  | error fault => simp [arrive_follows_of_error harrive] at h

end FileTree

namespace Glob

open FileTree

variable {tree : FileTree} {options : GlobOptions} {includeHidden onlyDirectories : Bool}
  {depth : Nat} {directory component name pattern path : Path}

theorem exists_arrive_of_isDirectory (h : tree.isDirectory directory = true) :
    ∃ stop, tree.arrive false (Path.join directory []) = .ok stop := by
  obtain ⟨entries, hlookup⟩ := FileTree.isDirectory_iff.mp h
  obtain ⟨stop, harrive, hhere⟩ := arrive_of_resolve hlookup
  have hdirectory : stop.2.here.isDirectory = true := by rw [hhere]; rfl
  refine ⟨stop, ?_⟩
  rw [arrive_join (by simp), harrive]
  change walk tree.root false stop.1 stop.2 [[]] = _
  rw [walk_cons_of_node (by rw [walkStep_nil, if_pos hdirectory])
    (FileNode.target?_of_isDirectory hdirectory), walk]

section Named

variable (hnamed : tree.root.WellNamed)
include hnamed

theorem exists_arrive_of_mem_listing (h : name ∈ listing tree onlyDirectories directory) :
    ∃ stop, tree.arrive false (Path.join directory name) = .ok stop := by
  have hname := isFileName_of_mem_listing hnamed h
  obtain ⟨e, he, -, rfl⟩ := mem_listing_iff.mp h
  unfold entriesAt at he
  split at he
  · rename_i node hlookup
    have hnode : node.WellNamed := keeps_resolve (fun _ _ _ hnode hchild => hnode.child? hchild)
      hnamed hlookup
    obtain ⟨stop, harrive, rfl⟩ := arrive_of_resolve hlookup
    have hdirectory : tree.arrive true directory = .ok stop := by
      by_cases hnil : directory = []
      · rw [if_pos (by simpa using hnil), arrive_here] at harrive
        rwa [hnil]
      · rwa [if_neg (by simpa using hnil)] at harrive
    rw [arrive_join hname.head?_ne, hdirectory]
    exact exists_walk_entry hnode he tree.root stop.1
  · cases he

theorem exists_arrive_of_mem_descendants
    (h : path ∈ descendants tree includeHidden onlyDirectories depth directory) :
    ∃ stop, tree.arrive false (Path.join directory path) = .ok stop := by
  induction depth generalizing directory path with
  | zero => cases h
  | succ depth ih =>
    obtain ⟨name, hname, -, rfl | ⟨rest, hrest, rfl⟩⟩ := mem_descendants_succ_iff.mp h
    · exact exists_arrive_of_mem_listing hnamed hname
    · have hne : rest ≠ [] := fun hnil =>
        nil_notMem_descendants _ hnamed.isProper _ _ _ (hnil ▸ hrest)
      rw [Path.joinNonempty_eq_join hne, Path.join_join (head?_of_mem_descendants hnamed hrest)]
      exact ih hrest

/-- What a component leads to is there. Only the directory itself need not be, if the component
stands for any number of directories and is not asked first whether there is one. -/
theorem StepsTo.exists_arrive
    (h : StepsTo tree options onlyDirectories directory component name)
    (hsomewhere : name = [] → component = [] ∨ directory ≠ [] ∧ options.asksFirst = true) :
    ∃ stop, tree.arrive false (Path.join directory name) = .ok stop := by
  cases h with
  | here _ hfound => exact exists_arrive_of_isDirectory hfound
  | itself _ hne hfound =>
    obtain ⟨node, hresolve⟩ := FileTree.contains_iff.mp hfound
    obtain ⟨stop, harrive, -⟩ := arrive_of_resolve hresolve
    exact ⟨stop, by rwa [Path.joinNonempty_eq_join hne] at harrive⟩
  | entry _ _ _ hname _ => exact exists_arrive_of_mem_listing hnamed hname
  | none _ hc _ hnone =>
    obtain ⟨hne, hasks⟩ := (hsomewhere rfl).resolve_left (by simp [hc])
    exact exists_arrive_of_isDirectory (by simpa [hne, hasks] using hnone)
  | deep _ _ _ hpath => exact exists_arrive_of_mem_descendants hnamed hpath

end Named

section Found

variable (hnamed : tree.root.WellNamed)
include hnamed

theorem StepsTo.eq_of_nil
    (h : StepsTo tree options onlyDirectories directory component name) (hnil : name = []) :
    component = [] ∨ options.recursive = true ∧ component = ['*', '*'] := by
  cases h with
  | here hc _ => exact .inl hc
  | itself _ _ _ => exact .inl hnil
  | entry _ _ _ hname _ => exact absurd hnil (isFileName_of_mem_listing hnamed hname).nonempty
  | none hr hc _ _ => exact .inr ⟨hr, hc⟩
  | deep hr hc _ _ => exact .inr ⟨hr, hc⟩

theorem Way.exists_arrive {choices : List Path} (hm : hasMagic pattern = true)
    (h : Way tree options onlyDirectories pattern choices path) (hne : path ≠ [])
    (hends : options.asksFirst = false → options.recursive = true →
      (Path.split pattern).2 = ['*', '*'] → path.getLast? ≠ some '/') :
    '\x00' ∉ Path.join (options.root.join.getD []) path ∧
      ∃ stop, tree.arrive false (Path.join (options.root.join.getD []) path) = .ok stop := by
  obtain ⟨before, directory, name, -, rfl, -, hname⟩ := h.of_magic hm
  have hhead := (standsFor_of_mem hnamed.isProper hnamed.slashFree hname).head?_ne
  have hstep := mem_stepNames_iff.mp hname
  have hnull := hstep.nullFree hnamed (Path.slash_notMem_split pattern)
  rw [Path.join_join hhead]
  refine ⟨fun hmem => (Path.mem_or_mem_of_mem_join (by decide) hmem).elim hnull.1 hnull.2,
    hstep.exists_arrive hnamed fun hnil => ?_⟩
  have hdirectory : directory ≠ [] := fun hdirectory => hne (by rw [hnil, hdirectory]; rfl)
  refine (hstep.eq_of_nil hnamed hnil).imp_right fun ⟨hr, hdeep⟩ => ⟨fun hjoined => ?_, ?_⟩
  · exact hdirectory (List.eq_nil_of_sublist_nil (hjoined ▸ Path.sublist_joinNonempty ..))
  · refine (Bool.eq_false_or_eq_true _).resolve_right fun hasks => hends hasks hr hdeep ?_
    rw [hnil]
    exact Path.getLast?_join_nil hdirectory

omit hnamed in
theorem exists_arrive_of_mem_plain {root : Path} (h : name ∈ plain tree root path)
    (hne : path ≠ []) : '\x00' ∉ Path.join root path ∧
      ∃ stop, tree.arrive false (Path.join root path) = .ok stop := by
  obtain ⟨-, ⟨hname, hfound⟩ | ⟨-, hfound⟩⟩ := mem_plain_iff.mp h
  · obtain ⟨entries, hlookup⟩ := FileTree.isDirectory_iff.mp hfound
    obtain ⟨hnull, -, hjoin⟩ := askable_of_resolve hlookup
    obtain ⟨stop, harrive, hhere⟩ := arrive_of_resolve hlookup
    obtain ⟨hfirst, n, hslashes, -⟩ := Path.exists_slashes hname hne
    have hpath : Path.join root path =
        Path.joinNonempty root (Path.split path).1 ++ List.replicate n '/' := by
      rw [Path.joinNonempty_eq_join hfirst, ← Path.join_append hfirst, ← hslashes]
    rw [hpath]
    exact ⟨by simp [hnull],
      exists_arrive_of_follows (arrive_append_slashes hjoin harrive (by rw [hhere]; rfl) n)⟩
  · obtain ⟨node, hresolve⟩ := FileTree.contains_iff.mp hfound
    obtain ⟨stop, harrive, -⟩ := arrive_of_resolve hresolve
    rw [Path.joinNonempty_eq_join hne] at hresolve harrive
    exact ⟨(askable_of_resolve hresolve).1, stop, harrive⟩

/-- Joined onto the directory that was searched in, every path found leads to what was found. -/
theorem exists_arrive_of_mem_glob {found : List Path} (h : glob tree options pattern = .ok found)
    (hpath : path ∈ found)
    (hends : options.asksFirst = false → options.recursive = true →
      (Path.split pattern).2 = ['*', '*'] → path.getLast? ≠ some '/') :
    '\x00' ∉ Path.join (options.root.join.getD []) path ∧
      ∃ stop, tree.arrive false (Path.join (options.root.join.getD []) path) = .ok stop := by
  have hne := ne_nil_of_mem_glob hnamed.isProper hnamed.slashFree h hpath
  obtain ⟨all, hsearch, rfl⟩ := exists_search_of_glob hnamed.isProper hnamed.slashFree h
  have hpath := List.mem_of_mem_filter hpath
  cases hm : hasMagic pattern with
  | true =>
    obtain ⟨ways, hways, rfl⟩ := exists_allWays_search hnamed.isProper hnamed.slashFree false
      pattern all hm hsearch
    obtain ⟨way, hway, rfl⟩ := List.mem_map.mp hpath
    exact ((hways.2 way).mp hway).exists_arrive hnamed hm hne hends
  | false =>
    rw [search_plain options false tree hm] at hsearch
    obtain rfl := Except.ok.inj hsearch
    obtain rfl := (mem_plain_iff.mp hpath).1
    exact exists_arrive_of_mem_plain hpath hne

end Found

end Glob

end SchemaLoom
