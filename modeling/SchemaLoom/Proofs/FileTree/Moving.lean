import Mathlib.Data.List.Perm.Subperm
import SchemaLoom.Proofs.FileTree.Inside

/-! Matching a pattern in a directory from elsewhere, and matching it there with the directory as the
one where relative paths begin. The same paths are found, each as often, except for those that get out
of reach once they are joined onto the directory. -/

namespace SchemaLoom

namespace Path

variable {pattern : Path}

/-- Slashes that end the first part of a path are dropped, so only a last component can be empty. -/
theorem split_split_ne_nil (h : hasMagic (split pattern).1 = true) :
    (split (split pattern).1).2 ≠ [] := by
  obtain ⟨-, hsplit⟩ | ⟨base, name, -, hsplit⟩ := split_cases pattern
  · rw [hsplit] at h
    cases h
  rw [hsplit] at h ⊢
  dsimp only at h ⊢
  cases hall : base.all (· == '/') with
  | true =>
    rw [hall, if_pos rfl] at h
    obtain ⟨c, hc, hmagic⟩ := List.any_eq_true.mp h
    have hslash : c = '/' := by
      rcases List.mem_append.mp hc with hc | hc
      · simpa using List.all_eq_true.mp hall c hc
      · simpa using hc
    rw [hslash] at hmagic
    cases hmagic
  | false =>
    rw [if_neg (by simp)]
    have hne := trimSlashes_ne_nil hall
    obtain ⟨-, hcut⟩ | ⟨before, last, hbefore, -, hcut⟩ := cut_cases (trimSlashes base)
    · simpa [split, hcut] using hne
    · intro hnil
      obtain rfl : last = [] := by simpa [split, hcut] using hnil
      have hlast : (trimSlashes base).getLast hne = '/' := by simp [hbefore]
      have hkept := List.rdropWhile_last_not (· == '/') base hne
      exact hkept (beq_iff_eq.mpr hlast)

end Path

namespace GlobOptions

/-- The options for a search in a directory. -/
def within (options : GlobOptions) (directory : Path) : GlobOptions :=
  { options with root := some (some directory) }

end GlobOptions

namespace Glob

variable {tree : FileTree} {options : GlobOptions} {onlyDirectories : Bool}
  {base directory component name pattern path : Path} {choices : List Path}

section Directory

variable (hbase : tree.isDirectory base = true) (hnamed : tree.root.WellNamed)
  (hdirectory : directory.head? ≠ some '/')
include hbase hnamed hdirectory

/-- What a component leads to from elsewhere it leads to from within. Only the directory itself has
no path from within. -/
theorem StepsTo.inside (hcomponent : '/' ∉ component) (hne : directory ≠ [] ∨ component ≠ [])
    (h : StepsTo tree options onlyDirectories (Path.joinNonempty base directory) component name) :
    StepsTo (tree.moveTo base) options onlyDirectories directory component name := by
  have hnull : '\x00' ∉ Path.joinNonempty base directory → '\x00' ∉ directory := fun hnull hmem =>
    hnull ((Path.sublist_joinNonempty ..).subset hmem)
  cases h with
  | here hnil hfound =>
    exact .here hnil (isDirectory_inside hfound (hne.resolve_right (not_not_intro hnil)))
  | itself hm hcomponentNe hfound =>
    have hhead : component.head? ≠ some '/' := fun hhead => hcomponent (List.mem_of_head? hhead)
    rw [Path.joinNonempty_assoc hdirectory hhead] at hfound
    refine .itself hm hcomponentNe (contains_inside hfound fun hnil => hcomponentNe ?_)
    exact List.eq_nil_of_sublist_nil (hnil ▸ Path.sublist_joinNonempty ..)
  | entry hm hshallow hownNull hname hmatches =>
    exact .entry hm hshallow (hnull hownNull) (mem_listing_inside hbase hnamed hdirectory hname)
      hmatches
  | none hr hc hownNull hnone =>
    refine .none hr hc (hnull hownNull) ?_
    by_cases hnil : directory = []
    · simp [hnil]
    · have hjoined := Path.joinNonempty_ne_nil (askable_of_isDirectory hbase).2.1 directory
      simp only [Bool.or_eq_true, List.isEmpty_iff, hjoined, or_false] at hnone
      simp only [Bool.or_eq_true]
      exact hnone.imp .inl fun hfound => isDirectory_inside hfound hnil
  | deep hr hc hownNull hpath =>
    exact .deep hr hc (hnull hownNull) (mem_descendants_inside hbase hnamed hdirectory hpath)

/-- What a component leads to from within it leads to from elsewhere, unless that is out of reach. -/
theorem StepsTo.joined
    (h : StepsTo (tree.moveTo base) options onlyDirectories directory component name)
    (hname : name.head? ≠ some '/')
    (hdirectoryReach : ¬ tree.IsOutOfReach true (Path.joinNonempty base directory))
    (hreach : name ≠ [] → ¬ tree.IsOutOfReach onlyDirectories
      (Path.joinNonempty base (Path.joinNonempty directory name))) :
    StepsTo tree options onlyDirectories (Path.joinNonempty base directory) component name := by
  obtain ⟨hbaseNull, hbaseNe, -⟩ := askable_of_isDirectory hbase
  have hnull : '\x00' ∉ directory → '\x00' ∉ Path.joinNonempty base directory := fun hnull hmem =>
    (Path.mem_or_mem_of_mem_joinNonempty (by decide) hmem).elim hbaseNull hnull
  have hinside := hnamed.moveTo base
  cases h with
  | here hnil hfound => exact .here hnil (isDirectory_joined hbase hfound hdirectoryReach)
  | itself hm hne hfound =>
    refine .itself hm hne ?_
    rw [Path.joinNonempty_assoc hdirectory hname]
    exact contains_joined hbase hfound fun hout => hreach hne (hout.mono (by simp))
  | entry hm hshallow hownNull hown hmatches =>
    exact .entry hm hshallow (hnull hownNull) (mem_listing_joined hbase hnamed hdirectory hown
      (hreach (isFileName_of_mem_listing hinside hown).nonempty)) hmatches
  | none hr hc hownNull hnone =>
    refine .none hr hc (hnull hownNull) ?_
    by_cases hnil : directory = []
    · simp [hnil, hbase]
    · simp only [Bool.or_eq_true, List.isEmpty_iff, hnil, or_false] at hnone
      simp only [Bool.or_eq_true]
      exact hnone.imp .inl fun hfound => isDirectory_joined hbase hfound hdirectoryReach
  | deep hr hc hownNull hpath =>
    have hne : name ≠ [] := fun hnil =>
      nil_notMem_descendants _ hinside.isProper _ _ _ (hnil ▸ hpath)
    exact .deep hr hc (hnull hownNull)
      (mem_descendants_joined hbase hnamed hdirectory hpath (hreach hne))

end Directory

theorem mem_stepNames_within_iff :
    name ∈ stepNames tree (options.within base) onlyDirectories directory component ↔
      StepsTo tree options onlyDirectories (Path.joinNonempty base directory) component name := by
  rw [mem_stepNames_iff, ← mem_step_iff, ← mem_step_iff]
  exact .rfl

theorem mem_stepNames_of_none (hroot : options.root = none) :
    name ∈ stepNames tree options onlyDirectories directory component ↔
      StepsTo tree options onlyDirectories directory component name := by
  rw [mem_stepNames_iff, hroot]
  simp

section Ways

variable (hnamed : tree.root.WellNamed) (hbase : tree.isDirectory base = true)
  (hroot : options.root = none) (hrelative : pattern.head? ≠ some '/')
include hnamed hbase hroot hrelative

theorem Way.inside (hne : path ≠ [] ∨ (Path.split pattern).2 ≠ [])
    (h : Way tree (options.within base) onlyDirectories pattern choices path) :
    Way (tree.moveTo base) options onlyDirectories pattern choices path := by
  induction h with
  | fixed hm => exact .fixed hm
  | @further _ pattern choices directory name hm hway hname ih =>
    have hhead : (Path.split pattern).1.head? ≠ some '/' := fun hhead =>
      hrelative ((Path.head?_split pattern).mp hhead)
    have hdirectory : directory.head? ≠ some '/' := fun h =>
      hhead ((hway.head?_iff hnamed.isProper hnamed.slashFree).mp h)
    -- Only the whole pattern may end in a slash, which is found for the directory itself.
    have hbefore : Way (tree.moveTo base) options true (Path.split pattern).1 choices
        directory := by
      cases hm : hasMagic (Path.split pattern).1 with
      | true => exact ih hhead (.inr (Path.split_split_ne_nil hm))
      | false =>
        obtain ⟨rfl, rfl⟩ := hway.of_plain hm
        exact .fixed hm
    rw [mem_stepNames_within_iff] at hname
    have hsomewhere : directory ≠ [] ∨ (Path.split pattern).2 ≠ [] := by
      refine hne.elim (fun hne => ?_) .inr
      by_contra hnot
      obtain ⟨rfl, hnil⟩ := by simpa using hnot
      cases hname with
      | here _ _ => exact hne rfl
      | itself _ hcomponent _ => exact hcomponent hnil
      | entry hm _ _ _ _ => simp [hnil, hasMagic] at hm
      | none _ hc _ _ => simp [hnil] at hc
      | deep _ hc _ _ => simp [hnil] at hc
    refine .further hm hbefore ((mem_stepNames_of_none hroot).mpr ?_)
    exact hname.inside hbase hnamed hdirectory (Path.slash_notMem_split pattern) hsomewhere

theorem Way.joined (h : Way (tree.moveTo base) options onlyDirectories pattern choices path)
    (hreach : ¬ tree.IsOutOfReach onlyDirectories (Path.joinNonempty base path)) :
    Way tree (options.within base) onlyDirectories pattern choices path := by
  have hinside := hnamed.moveTo base
  induction h with
  | fixed hm => exact .fixed hm
  | @further onlyDirectories pattern _ directory name hm hway hname ih =>
    have hhead : (Path.split pattern).1.head? ≠ some '/' := fun hhead =>
      hrelative ((Path.head?_split pattern).mp hhead)
    have hdirectory : directory.head? ≠ some '/' := fun h =>
      hhead ((hway.head?_iff hinside.isProper hinside.slashFree).mp h)
    have hnameHead := (standsFor_of_mem hinside.isProper hinside.slashFree hname).head?_ne
    -- The path goes on from the directory, so that one is in reach as well.
    have hbefore : ¬ tree.IsOutOfReach true (Path.joinNonempty base directory) := fun hout => by
      by_cases hnil : directory = []
      · rw [hnil, Path.joinNonempty_nil_right] at hout
        exact (askable_of_isDirectory hbase).2.2 hout
      · have hjoin : Path.join directory name ≠ [] := fun h => hnil (join_eq_nil h).1
        rw [Path.joinNonempty_eq_join hjoin, Path.join_join hnameHead] at hreach
        exact hreach (hout.join hnameHead onlyDirectories)
    have hstep : name ≠ [] → ¬ tree.IsOutOfReach onlyDirectories
        (Path.joinNonempty base (Path.joinNonempty directory name)) := fun hne => by
      rwa [Path.joinNonempty_eq_join hne directory]
    rw [mem_stepNames_of_none hroot] at hname
    exact .further hm (ih hhead hbefore) (mem_stepNames_within_iff.mpr
      (hname.joined hbase hnamed hdirectory hnameHead hbefore hstep))

end Ways

section Plain

theorem mem_plain_inside (h : name ∈ plain tree base path) (hne : path ≠ []) :
    name ∈ plain (tree.moveTo base) [] path := by
  rw [mem_plain_iff] at h ⊢
  simp only [Path.joinNonempty_nil_left]
  refine ⟨h.1, h.2.imp (fun ⟨hnil, hfound⟩ => ⟨hnil, ?_⟩) fun ⟨hname, hfound⟩ =>
    ⟨hname, contains_inside hfound hne⟩⟩
  refine isDirectory_inside hfound fun hfirst => hne ?_
  rwa [Path.split_eq_of_fst_nil hfirst] at hnil

/-- A path that ends in slashes goes on from what comes before them. -/
theorem outOfReach_of_split (hrelative : path.head? ≠ some '/') (hname : (Path.split path).2 = [])
    (hne : path ≠ [])
    (h : tree.IsOutOfReach true (Path.joinNonempty base (Path.split path).1)) :
    tree.IsOutOfReach false (Path.joinNonempty base path) := by
  obtain ⟨hfirst, n, hslashes, hsome⟩ := Path.exists_slashes hname hne
  have hpath : Path.joinNonempty base path =
      Path.joinNonempty base (Path.split path).1 ++ List.replicate n '/' := by
    rw [Path.joinNonempty_eq_join hne, Path.joinNonempty_eq_join hfirst,
      ← Path.join_append hfirst, ← hslashes]
  obtain ⟨n, rfl⟩ := Nat.exists_eq_succ_of_ne_zero fun hzero => hrelative (hsome hzero)
  have hfirstNe : Path.joinNonempty base (Path.split path).1 ≠ [] := by
    rw [Path.joinNonempty_eq_join hfirst]
    exact Path.join_ne_nil hfirst base
  rw [hpath, List.replicate_succ]
  exact h.append_slash hfirstNe _ false

variable (hbase : tree.isDirectory base = true) (hrelative : path.head? ≠ some '/')
include hbase hrelative

theorem mem_plain_joined (h : name ∈ plain (tree.moveTo base) [] path) (hne : path ≠ [])
    (hreach : ¬ tree.IsOutOfReach false (Path.joinNonempty base path)) :
    name ∈ plain tree base path := by
  rw [mem_plain_iff] at h ⊢
  simp only [Path.joinNonempty_nil_left] at h
  exact ⟨h.1, h.2.imp
    (fun ⟨hnil, hfound⟩ => ⟨hnil, isDirectory_joined hbase hfound fun hout =>
      hreach (outOfReach_of_split hrelative hnil hne hout)⟩)
    fun ⟨hname, hfound⟩ => ⟨hname, contains_joined hbase hfound hreach⟩⟩

end Plain

/-- What is missing from a list of different items if only some of the others are in it. -/
theorem exists_missing {found own : List α} {left : α → Prop} (hfound : found.Nodup)
    (hown : own.Nodup) (hsub : ∀ a ∈ found, a ∈ own) (hkept : ∀ a ∈ own, ¬ left a → a ∈ found) :
    ∃ missing, (found ++ missing).Perm own ∧ ∀ a ∈ missing, left a := by
  obtain ⟨kept, hperm, hkeptSub⟩ := hfound.subperm hsub
  obtain ⟨missing, hmissing⟩ := hkeptSub.exists_perm_append
  have hall : (found ++ missing).Perm own := (hperm.symm.append_right missing).trans hmissing.symm
  refine ⟨missing, hall, fun a ha => by_contra fun h => ?_⟩
  have hmem := hkept a (hall.mem_iff.mp (List.mem_append_right _ ha)) h
  exact (List.nodup_append.mp (hall.nodup_iff.mpr hown)).2.2 a hmem a ha rfl

theorem glob_within_of_error (hnamed : tree.root.WellNamed) (hroot : options.root = none)
    {fault : GlobFault}
    (h : glob (tree.moveTo base) options pattern = .error fault) :
    glob tree (options.within base) pattern = .error fault := by
  rw [glob_eq_filter hnamed.isProper hnamed.slashFree]
  have hinside := hnamed.moveTo base
  rw [glob_eq_filter hinside.isProper hinside.slashFree] at h
  cases hown : search (tree.moveTo base) options false pattern with
  | ok own =>
    rw [hown] at h
    cases h
  | error own =>
    rw [hown] at h
    obtain rfl : own = fault := Except.error.inj h
    obtain rfl := fault_search false pattern hown
    cases hfound : search tree (options.within base) false pattern with
    | error other =>
      rw [fault_search false pattern hfound]
      rfl
    | ok found =>
      have hok : ∃ own, search (tree.moveTo base) options false pattern = .ok own :=
        exists_search_of_search hnamed hinside (by simp [hroot]) false false pattern hfound
      obtain ⟨own, hok⟩ := hok
      cases hown.symm.trans hok

section Search

variable (hnamed : tree.root.WellNamed) (hbase : tree.isDirectory base = true)
  (hroot : options.root = none) (hrelative : pattern.head? ≠ some '/')
include hnamed hbase hroot hrelative

theorem search_within {own found : List Path}
    (hown : search (tree.moveTo base) options false pattern = .ok own)
    (hfound : search tree (options.within base) false pattern = .ok found) :
    ∃ missing, (found.filter (!·.isEmpty) ++ missing).Perm (own.filter (!·.isEmpty)) ∧
      ∀ path ∈ missing, tree.IsOutOfReach false (Path.joinNonempty base path) := by
  cases hm : hasMagic pattern with
  | true =>
    have hinside := hnamed.moveTo base
    obtain ⟨ways, hways, rfl⟩ := exists_allWays_search hinside.isProper hinside.slashFree
      false pattern own hm hown
    obtain ⟨others, hothers, rfl⟩ := exists_allWays_search hnamed.isProper hnamed.slashFree
      false pattern found hm hfound
    have hmissing : ∃ missing, (others.filter (!·.2.isEmpty) ++ missing).Perm
          (ways.filter (!·.2.isEmpty)) ∧
        ∀ way ∈ missing, tree.IsOutOfReach false (Path.joinNonempty base way.2) := by
      refine exists_missing (hothers.1.of_map.filter _) (hways.1.of_map.filter _)
        (fun way hway => ?_) (fun way hway hreach => ?_)
      · rw [List.mem_filter, hothers.2] at hway
        rw [List.mem_filter, hways.2]
        refine ⟨hway.1.inside hnamed hbase hroot hrelative (.inl ?_), hway.2⟩
        simpa using hway.2
      · rw [List.mem_filter, hways.2] at hway
        rw [List.mem_filter, hothers.2]
        exact ⟨hway.1.joined hnamed hbase hroot hrelative hreach, hway.2⟩
    obtain ⟨missing, hperm, hout⟩ := hmissing
    refine ⟨missing.map Prod.snd, ?_, List.forall_mem_map.mpr hout⟩
    rw [List.filter_map, List.filter_map, ← List.map_append]
    exact hperm.map Prod.snd
  | false =>
    rw [search_plain _ _ _ hm, hroot] at hown
    obtain rfl : plain (tree.moveTo base) [] pattern = own := Except.ok.inj hown
    rw [search_plain _ _ _ hm] at hfound
    obtain rfl : plain tree base pattern = found := Except.ok.inj hfound
    refine exists_missing (((List.nodup_singleton pattern).sublist (plain_sublist ..)).filter _)
      (((List.nodup_singleton pattern).sublist (plain_sublist ..)).filter _)
      (fun path hpath => ?_) (fun path hpath hreach => ?_)
    · rw [List.mem_filter] at hpath ⊢
      obtain rfl := (mem_plain_iff.mp hpath.1).1
      exact ⟨mem_plain_inside hpath.1 (by simpa using hpath.2), hpath.2⟩
    · rw [List.mem_filter] at hpath ⊢
      obtain rfl := (mem_plain_iff.mp hpath.1).1
      exact ⟨mem_plain_joined hbase hrelative hpath.1 (by simpa using hpath.2) hreach, hpath.2⟩

/-- What is found from within is found from elsewhere, except for what gets out of reach. -/
theorem glob_within {own : List Path} (h : glob (tree.moveTo base) options pattern = .ok own) :
    ∃ found missing, glob tree (options.within base) pattern = .ok found ∧
      (found ++ missing).Perm own ∧ (∀ path ∈ own, path ≠ [] ∧ path.head? ≠ some '/') ∧
      ∀ path ∈ missing, tree.IsOutOfReach false (Path.join base path) := by
  have hinside := hnamed.moveTo base
  have hrelativePaths : ∀ path ∈ own, path.head? ≠ some '/' := fun path hpath hhead => by
    obtain ⟨choices, hway⟩ := exists_way_of_mem_glob hinside.isProper hinside.slashFree h hpath
    exact hrelative ((hway.head?_iff hinside.isProper hinside.slashFree).mp hhead)
  have hne : ∀ path ∈ own, path ≠ [] := fun path hpath =>
    ne_nil_of_mem_glob hinside.isProper hinside.slashFree h hpath
  obtain ⟨all, hsearch, rfl⟩ := exists_search_of_glob hinside.isProper hinside.slashFree h
  have hfound : ∃ found, search tree (options.within base) false pattern = .ok found :=
    have hnull : '\x00' ∉ (options.within base).root.join.getD [] :=
      (askable_of_isDirectory hbase).1
    exists_search_of_search hinside hnamed hnull false false pattern hsearch
  obtain ⟨found, hfound⟩ := hfound
  obtain ⟨missing, hperm, hout⟩ := search_within hnamed hbase hroot hrelative hsearch hfound
  refine ⟨_, missing, ?_, hperm, fun path hpath => ⟨hne path hpath, hrelativePaths path hpath⟩,
    fun path hpath => ?_⟩
  · rw [glob_eq_filter hnamed.isProper hnamed.slashFree, hfound]
    rfl
  · have hmem := hperm.mem_iff.mp (List.mem_append_right _ hpath)
    rw [← Path.joinNonempty_eq_join (hne path hmem)]
    exact hout path hpath

end Search

end Glob

end SchemaLoom
