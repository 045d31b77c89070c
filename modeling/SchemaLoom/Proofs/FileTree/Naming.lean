import SchemaLoom.Proofs.FileTree.Standing

/-! Trees in which all files and directories are called what they may be called. -/

namespace SchemaLoom

/-- What a file or a directory may be called. -/
structure Path.IsFileName (name : Path) : Prop where
  nonempty : name ≠ []
  slashFree : '/' ∉ name
  nullFree : '\x00' ∉ name
  notHere : name ≠ ['.']
  notAbove : name ≠ ['.', '.']
  short : Path.isTooLongName name = false

instance (name : Path) : Decidable name.IsFileName :=
  decidable_of_iff (name ≠ [] ∧ '/' ∉ name ∧ '\x00' ∉ name ∧ name ≠ ['.'] ∧ name ≠ ['.', '.'] ∧
      Path.isTooLongName name = false)
    ⟨fun ⟨h₁, h₂, h₃, h₄, h₅, h₆⟩ => ⟨h₁, h₂, h₃, h₄, h₅, h₆⟩,
      fun ⟨h₁, h₂, h₃, h₄, h₅, h₆⟩ => ⟨h₁, h₂, h₃, h₄, h₅, h₆⟩⟩

theorem Path.IsFileName.head?_ne {name : Path} (h : name.IsFileName) : name.head? ≠ some '/' :=
  fun hhead => h.slashFree (List.mem_of_head? hhead)

namespace FileNode

/-- In each directory all entries have names that they may have, and no two have the same. -/
inductive WellNamed : FileNode → Prop where
  | file (bytes : List UInt8) : WellNamed (.file bytes)
  | link (target : Path) : WellNamed (.link target)
  | directory {entries : List (Path × FileNode)} :
    (entries.map Prod.fst).Nodup → (∀ e ∈ entries, e.1.IsFileName) →
    (∀ e ∈ entries, e.2.WellNamed) → WellNamed (.directory entries)

variable {node : FileNode}

namespace WellNamed

theorem isProper (h : node.WellNamed) : node.IsProper := by
  induction h with
  | file bytes => exact .file bytes
  | link target => exact .link target
  | @directory entries hnd hnames _ ih =>
    refine .directory hnd (fun hnil => ?_) ih
    obtain ⟨e, he, hname⟩ := List.mem_map.mp hnil
    exact (hnames e he).nonempty hname

theorem slashFree (h : node.WellNamed) : node.SlashFree := by
  induction h with
  | file bytes => exact .file bytes
  | link target => exact .link target
  | directory _ hnames _ ih => exact .directory (fun e he => (hnames e he).slashFree) ih

theorem entries (h : node.WellNamed) : ∀ e ∈ node.entries, e.1.IsFileName ∧ e.2.WellNamed := by
  cases h with
  | file _ => simp [FileNode.entries]
  | link _ => simp [FileNode.entries]
  | directory _ hnames hnodes => exact fun e he => ⟨hnames e he, hnodes e he⟩

/-- No other entry is found for the name of an entry. -/
theorem child?_of_mem (h : node.WellNamed) {e : Path × FileNode} (he : e ∈ node.entries) :
    node.child? e.1 = some e.2 := by
  have hfound := (find?_key_eq_some_iff h.isProper.entries.1).mpr ⟨he, rfl⟩
  rw [child?, hfound]
  rfl

theorem child? (h : node.WellNamed) {name : Path} {child : FileNode}
    (hchild : node.child? name = some child) : child.WellNamed := by
  obtain ⟨e, he, rfl⟩ := Option.map_eq_some_iff.mp hchild
  exact (h.entries e (List.mem_of_find?_eq_some he)).2

end WellNamed

end FileNode

/-- It does not matter which directory relative paths begin in. -/
theorem FileNode.WellNamed.moveTo {tree : FileTree} (h : tree.root.WellNamed) (directory : Path) :
    (tree.moveTo directory).root.WellNamed := h

namespace Glob

section Named

variable {tree : FileTree} {includeHidden onlyDirectories : Bool} {depth : Nat}
  {base path name : Path} (hnamed : tree.root.WellNamed)
include hnamed

theorem exists_wellNamed (path : Path) :
    ∃ node : FileNode, node.WellNamed ∧ entriesAt tree path = node.entries :=
  keeps_entriesAt (fun _ _ _ hnode hchild => hnode.child? hchild) hnamed
    (.directory (by simp) (by simp) (by simp)) path

theorem isFileName_of_mem_listing (h : name ∈ listing tree onlyDirectories base) :
    name.IsFileName := by
  obtain ⟨node, hnode, hentries⟩ := exists_wellNamed hnamed base
  obtain ⟨e, he, -, rfl⟩ := mem_listing_iff.mp h
  exact (hnode.entries e (hentries ▸ he)).1

theorem head?_of_mem_descendants
    (h : path ∈ descendants tree includeHidden onlyDirectories depth base) :
    path.head? ≠ some '/' :=
  ((descendants_plain hnamed.isProper hnamed.slashFree _ _ depth base).2 path h).2.head?_ne

theorem nullFree_of_mem_descendants
    (h : path ∈ descendants tree includeHidden onlyDirectories depth base) : '\x00' ∉ path := by
  induction depth generalizing base path with
  | zero => cases h
  | succ depth ih =>
    obtain ⟨name, hname, -, hpath⟩ := mem_descendants_succ_iff.mp h
    have hnull := (isFileName_of_mem_listing hnamed hname).nullFree
    rcases hpath with rfl | ⟨rest, hrest, rfl⟩
    · exact hnull
    · exact fun hmem =>
        (Path.mem_or_mem_of_mem_joinNonempty (by decide) hmem).elim hnull (ih hrest)

theorem descendants_add (extra : Nat) (hdeep : 4096 ≤ depth + Path.byteSize base) :
    descendants tree includeHidden onlyDirectories (depth + extra) base =
      descendants tree includeHidden onlyDirectories depth base := by
  induction depth generalizing base with
  | zero =>
    have hlong : Path.isTooLong base = true := by
      rw [Path.isTooLong, decide_eq_true_eq]
      omega
    have hnone : entriesAt tree base = [] := entriesAt_of_outOfReach (.inl hlong) fun hnil => by
      rw [hnil] at hlong
      cases hlong
    cases extra with
    | zero => rfl
    | succ extra => simp [descendants, listing, hnone]
  | succ depth ih =>
    rw [show depth + 1 + extra = depth + extra + 1 by omega, descendants, descendants]
    refine List.flatMap_congr fun name hname => ?_
    have hfile := isFileName_of_mem_listing hnamed (List.mem_of_mem_filter hname)
    have hlonger := Path.byteSize_lt_joinNonempty hfile.nonempty hfile.head?_ne base
    rw [ih (by omega)]

/-- Going deeper finds nothing more, for a path has a byte for each name. -/
theorem descendants_maxDepth_add (extra : Nat) :
    descendants tree includeHidden onlyDirectories (maxDepth + extra) base =
      descendants tree includeHidden onlyDirectories maxDepth base :=
  descendants_add hnamed extra (Nat.le_add_right ..)

end Named

end Glob

end SchemaLoom
