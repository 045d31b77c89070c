import SchemaLoom.Proofs.FileTree.Names
import SchemaLoom.Proofs.FileTree.Searching
import SchemaLoom.Proofs.FileTree.Walking

/-! What a component of a pattern stands for in a directory. It stands for nothing twice, and for a
single name unless it is one for any number of directories. -/

namespace SchemaLoom

namespace FileNode

/-- No name in the node has a slash. -/
inductive SlashFree : FileNode → Prop where
  | file (bytes : List UInt8) : SlashFree (.file bytes)
  | link (target : Path) : SlashFree (.link target)
  | directory {entries : List (Path × FileNode)} :
    (∀ e ∈ entries, '/' ∉ e.1) → (∀ e ∈ entries, e.2.SlashFree) → SlashFree (.directory entries)

variable {node : FileNode}

theorem SlashFree.entries (h : node.SlashFree) : ∀ e ∈ node.entries, '/' ∉ e.1 ∧ e.2.SlashFree := by
  cases h with
  | file _ => simp [FileNode.entries]
  | link _ => simp [FileNode.entries]
  | directory hnames hnodes => exact fun e he => ⟨hnames e he, hnodes e he⟩

end FileNode

namespace Glob

section Descendants

variable {tree : FileTree} {includeHidden onlyDirectories : Bool} {depth : Nat} {base name : Path}

/-- Different paths without redundant slashes, none of them empty. -/
def AllPlain (paths : List Path) : Prop :=
  paths.Nodup ∧ ∀ path ∈ paths, path ≠ [] ∧ Path.IsPlain path

/-- A name, and all paths that begin with it and go on with other ones. -/
theorem allPlain_cons (hslash : '/' ∉ name) (hne : name ≠ []) {paths : List Path}
    (hplain : AllPlain paths) :
    AllPlain (name :: paths.map (Path.joinNonempty name)) ∧
      ∀ own ∈ name :: paths.map (Path.joinNonempty name), own.names.head? = some name := by
  obtain ⟨hnd, hplain⟩ := hplain
  have hnames : ∀ {own : Path}, own ∈ paths →
      (Path.joinNonempty name own).names = name :: own.names :=
    fun hown => Path.names_joinNonempty hslash hne (hplain _ hown).2
  refine ⟨⟨List.nodup_cons.mpr ⟨?_, ?_⟩, ?_⟩, ?_⟩
  · intro hm
    obtain ⟨own, hown, heq⟩ := List.mem_map.mp hm
    have hsame := (hnames hown).symm.trans (heq ▸ Path.names_eq_self hslash hne)
    exact (hplain own hown).2.names_ne_nil (hplain own hown).1 (List.cons.inj hsame).2
  · refine (List.nodup_map_iff_inj_on hnd).mpr fun own hown other hother heq => ?_
    have hsame := (hnames hown).symm.trans (heq ▸ hnames hother)
    exact (hplain own hown).2.eq_of_names_eq (hplain other hother).2 (List.cons.inj hsame).2
  · intro own hown
    rcases List.mem_cons.mp hown with rfl | hown
    · exact ⟨hne, Path.isPlain_name hslash hne⟩
    · obtain ⟨rest, hrest, rfl⟩ := List.mem_map.mp hown
      exact ⟨Path.joinNonempty_ne_nil hne rest,
        Path.isPlain_joinNonempty hslash hne (hplain rest hrest).2⟩
  · intro own hown
    rcases List.mem_cons.mp hown with rfl | hown
    · simp [Path.names_eq_self hslash hne]
    · obtain ⟨rest, hrest, rfl⟩ := List.mem_map.mp hown
      simp [hnames hrest]

variable (hproper : tree.root.IsProper) (hslash : tree.root.SlashFree)

include hslash in
theorem slashFree_of_mem_listing (h : name ∈ listing tree onlyDirectories base) : '/' ∉ name := by
  obtain ⟨node, hnode, hentries⟩ :=
    keeps_entriesAt (fun node child name hnode hchild => by
      obtain ⟨e, he, rfl⟩ := Option.map_eq_some_iff.mp hchild
      exact (hnode.entries e (List.mem_of_find?_eq_some he)).2) hslash
      (.directory (by simp) (by simp)) base
  obtain ⟨e, he, -, rfl⟩ := mem_listing_iff.mp h
  exact (hnode.entries e (hentries ▸ he)).1

include hproper hslash

theorem descendants_plain (includeHidden onlyDirectories : Bool) (depth : Nat) (base : Path) :
    AllPlain (descendants tree includeHidden onlyDirectories depth base) := by
  induction depth generalizing base with
  | zero => exact ⟨.nil, by simp [descendants]⟩
  | succ depth ih =>
    have hlisting : (listing tree onlyDirectories base).Nodup :=
      (proper_entriesAt hproper base).1.sublist (listing_sublist tree onlyDirectories base)
    have hentry := fun name (hname : name ∈ listing tree onlyDirectories base) =>
      allPlain_cons (slashFree_of_mem_listing hslash hname)
        (fun hnil => nil_notMem_listing onlyDirectories hproper base (hnil ▸ hname))
        (ih (Path.joinNonempty base name))
    refine ⟨List.nodup_flatMap.mpr
      ⟨fun name hname => (hentry name (List.mem_of_mem_filter hname)).1.1, ?_⟩, ?_⟩
    -- Paths below different entries differ in their first name.
    · refine (hlisting.filter _).imp_of_mem fun hname hother hne => ?_
      refine List.disjoint_left.mpr fun own hown hsame => hne ?_
      have hfirst := (hentry _ (List.mem_of_mem_filter hname)).2 own hown
      rw [(hentry _ (List.mem_of_mem_filter hother)).2 own hsame] at hfirst
      exact (Option.some.inj hfirst).symm
    · intro own hown
      obtain ⟨name, hname, hown⟩ := List.mem_flatMap.mp hown
      exact (hentry name (List.mem_of_mem_filter hname)).1.2 own hown

end Descendants

/-- What a component of a pattern may stand for: itself, a name, or any number of names. -/
inductive StandsFor (options : GlobOptions) (component : Path) : Path → Prop where
  | itself : hasMagic component = false → '/' ∉ component → StandsFor options component component
  | name {name : Path} : hasMagic component = true → '/' ∉ name → name ≠ [] →
    StandsFor options component name
  | names {path : Path} : hasMagic component = true → options.recursive = true →
    component = ['*', '*'] → Path.IsPlain path → StandsFor options component path

namespace StandsFor

variable {options : GlobOptions} {component name other : Path}

theorem head?_ne (h : StandsFor options component name) : name.head? ≠ some '/' := by
  cases h with
  | itself _ hslash => exact fun hhead => hslash (List.mem_of_head? hhead)
  | name _ hslash _ => exact fun hhead => hslash (List.mem_of_head? hhead)
  | names _ _ _ hplain => exact hplain.head?_ne

theorem length_names_eq (hsingle : options.recursive = false ∨ component ≠ ['*', '*'])
    (h : StandsFor options component name) (h' : StandsFor options component other) :
    name.names.length = other.names.length := by
  cases h with
  | itself hm _ =>
    cases h' with
    | itself _ _ => rfl
    | name hm' _ _ => simp [hm] at hm'
    | names hm' _ _ _ => simp [hm] at hm'
  | name hm hslash hne =>
    cases h' with
    | itself hm' _ => simp [hm'] at hm
    | name _ hslash' hne' => simp [Path.names_eq_self, hslash, hne, hslash', hne']
    | names _ hr hc _ => simp [hr, hc] at hsingle
  | names _ hr hc _ => simp [hr, hc] at hsingle

theorem isPlain (h : StandsFor options component name) (hm : hasMagic component = true) :
    name.IsPlain := by
  cases h with
  | itself hm' _ => simp [hm'] at hm
  | name _ hslash hne => exact Path.isPlain_name hslash hne
  | names _ _ _ hplain => exact hplain

theorem eq_self (h : StandsFor options component name) (hm : hasMagic component = false) :
    name = component := by
  cases h with
  | itself _ _ => rfl
  | name hm' _ _ => simp [hm] at hm'
  | names hm' _ _ _ => simp [hm] at hm'

theorem eq_of_names_eq (h : StandsFor options component name)
    (h' : StandsFor options component other) (heq : name.names = other.names) : name = other := by
  cases hm : hasMagic component with
  | false => rw [h.eq_self hm, h'.eq_self hm]
  | true => exact (h.isPlain hm).eq_of_names_eq (h'.isPlain hm) heq

end StandsFor

variable {tree : FileTree} {options : GlobOptions} {onlyDirectories : Bool}
  {path component : Path} {found : List Path}

section Step

variable (hproper : tree.root.IsProper) (hslash : tree.root.SlashFree)
include hproper hslash

theorem matching_standsFor (hm : hasMagic component = true)
    (h : matching tree options onlyDirectories path component = .ok found) :
    found.Nodup ∧ ∀ name ∈ found, StandsFor options component name := by
  obtain ⟨_, -, hfound⟩ := exists_of_bind_eq_ok h
  obtain rfl := Except.ok.inj hfound
  have hlisting : (listing tree onlyDirectories path).Nodup :=
    (proper_entriesAt hproper path).1.sublist (listing_sublist tree onlyDirectories path)
  refine ⟨hlisting.filter _, fun name hname => ?_⟩
  have hname := List.mem_of_mem_filter hname
  exact .name hm (slashFree_of_mem_listing hslash hname) fun hnil =>
    nil_notMem_listing onlyDirectories hproper path (hnil ▸ hname)

theorem below_standsFor (hm : hasMagic component = true) (hr : options.recursive = true)
    (hc : component = ['*', '*']) (h : below tree options onlyDirectories path = .ok found) :
    found.Nodup ∧ ∀ name ∈ found, StandsFor options component name := by
  obtain ⟨_, -, hfound⟩ := exists_of_bind_eq_ok h
  obtain rfl := Except.ok.inj hfound
  obtain ⟨hnd, hplain⟩ :=
    descendants_plain hproper hslash options.includeHidden onlyDirectories maxDepth path
  have hbelow : ∀ name ∈ descendants tree options.includeHidden onlyDirectories maxDepth path,
      StandsFor options component name := fun name hname => .names hm hr hc (hplain name hname).2
  split
  · exact ⟨List.nodup_cons.mpr ⟨fun hnil => (hplain [] hnil).1 rfl, hnd⟩,
      List.forall_mem_cons.mpr ⟨.names hm hr hc Path.isPlain_nil, hbelow⟩⟩
  · exact ⟨hnd, hbelow⟩

theorem step_standsFor (hcomponent : '/' ∉ component)
    (h : step tree options onlyDirectories path component = .ok found) :
    found.Nodup ∧ ∀ name ∈ found, StandsFor options component name := by
  unfold step at h
  split at h
  · rename_i hm
    have hm : hasMagic component = false := by simpa using hm
    obtain rfl := Except.ok.inj h
    unfold exactly
    dsimp only
    generalize (if component.isEmpty then _ else _ : Bool) = exists?
    cases exists? with
    | false => exact ⟨.nil, by simp⟩
    | true => exact ⟨List.nodup_singleton _, List.forall_mem_singleton.mpr (.itself hm hcomponent)⟩
  rename_i hm
  have hm : hasMagic component = true := by simpa using hm
  split at h
  · rename_i hdeep
    simp only [Bool.and_eq_true, decide_eq_true_eq] at hdeep
    exact below_standsFor hproper hslash hm hdeep.1 hdeep.2 h
  · exact matching_standsFor hproper hslash hm h

end Step

end Glob

end SchemaLoom
