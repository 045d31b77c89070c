import SchemaLoom.FileTree.Basic
import SchemaLoom.FileTree.Wildcard

/-! Finding the paths in a file tree that match a pattern. -/

namespace SchemaLoom

structure GlobOptions where
  recursive : Bool := true
  includeHidden : Bool := false
  /-- The directory to search in. It may be given as none, which is still given. -/
  root : Option (Option Path) := none
  /-- Whether any number of directories is none only in something that is a directory. Releases
  differ in whether that is asked first. -/
  asksFirst : Bool := true

inductive GlobFault where
  /-- The directory to search in is given twice. -/
  | rootTwice
  /-- The path of a directory has a null character. -/
  | nullCharacter
deriving DecidableEq

def GlobFault.message : GlobFault → String
  | .rootTwice => "glob.glob() got multiple values for keyword argument 'root_dir'"
  | .nullCharacter => "embedded null byte"

def isHidden (name : Path) : Bool := name.head? = some '.'

def isMagicChar (c : Char) : Bool := c == '*' || c == '?' || c == '['

/-- Whether a pattern is more than a path. -/
def hasMagic (pattern : Path) : Bool := pattern.any isMagicChar

namespace Path

theorem length_trimSlashes_le (path : Path) : (trimSlashes path).length ≤ path.length := by
  unfold trimSlashes
  rw [List.length_reverse]
  exact Nat.le_trans (List.dropWhile_sublist _).length_le (by simp)

theorem length_split_fst_le (path : Path) : (split path).1.length ≤ path.length := by
  unfold split
  have hcut : (cut path).1.length ≤ path.length := by simp [cut]
  dsimp only
  split
  · exact hcut
  · exact Nat.le_trans (length_trimSlashes_le _) hcut

/-- The first part of a path is shorter than the path unless it is the whole path. -/
theorem length_split_fst_lt {path : Path} (h : (split path).1 ≠ path) :
    (split path).1.length < path.length := by
  refine Nat.lt_of_le_of_ne (length_split_fst_le path) fun heq => h ?_
  have hcut : (cut path).1.length ≤ path.length := by simp [cut]
  revert heq
  unfold split
  dsimp only
  split
  · intro heq
    rw [cut] at heq ⊢
    simp only [List.length_take] at heq
    exact List.take_of_length_le (by omega)
  · intro heq
    have htrim := length_trimSlashes_le (cut path).1
    have hlen : (trimSlashes (cut path).1).length = (cut path).1.length := by omega
    have hsub : (trimSlashes (cut path).1).Sublist (cut path).1 := by
      have := (List.dropWhile_sublist (· == '/') (l := (cut path).1.reverse)).reverse
      simpa [trimSlashes] using this
    rw [hsub.eq_of_length hlen]
    have hfull : (cut path).1.length = path.length := by omega
    rw [cut] at hfull ⊢
    simp only [List.length_take] at hfull
    exact List.take_of_length_le (by omega)

end Path

namespace Glob

/-- No question can be asked about a path with a null character. -/
def checkPath (path : Path) : Except GlobFault Unit :=
  if path.contains '\x00' then .error .nullCharacter else .ok ()

/-- The entries of a directory to be searched, the empty path standing for the working directory. A
path that leads to no directory is searched in vain. -/
def entriesAt (tree : FileTree) (path : Path) : List (Path × FileNode) :=
  match tree.lookup (if path.isEmpty then ['.'] else path) with
  | .ok node => node.entries
  | .error _ => []

/-- Whether an entry of a directory is one itself, or a link to one. -/
def isDirectoryEntry (tree : FileTree) (path : Path) (e : Path × FileNode) : Bool :=
  e.2.isDirectory || (e.2.target?.isSome && tree.isDirectory (Path.joinNonempty path e.1))

/-- The names in a directory, in the order in which they are listed. -/
def listing (tree : FileTree) (onlyDirectories : Bool) (path : Path) : List Path :=
  ((entriesAt tree path).filter fun e =>
    !onlyDirectories || isDirectoryEntry tree path e).map Prod.fst

/-- The paths below a directory down to some depth, level by level down each name. -/
def descendants (tree : FileTree) (includeHidden onlyDirectories : Bool) : Nat → Path → List Path
  | 0, _ => []
  | depth + 1, path =>
    ((listing tree onlyDirectories path).filter fun name =>
      includeHidden || !isHidden name).flatMap fun name =>
        name :: (descendants tree includeHidden onlyDirectories depth
          (Path.joinNonempty path name)).map (Path.joinNonempty name)

/-- No path leads deeper, for it has a byte for each name. -/
def maxDepth : Nat := 4096

/-- The paths that a pattern for any number of directories stands for below a directory, that
directory itself being the empty path. -/
def below (tree : FileTree) (options : GlobOptions) (onlyDirectories : Bool) (path : Path) :
    Except GlobFault (List Path) := do
  checkPath path
  let here :=
    if !options.asksFirst || path.isEmpty || tree.isDirectory path then [[]] else []
  return here ++ descendants tree options.includeHidden onlyDirectories maxDepth path

/-- The names in a directory that match a pattern. Hidden ones have to be asked for. -/
def matching (tree : FileTree) (options : GlobOptions) (onlyDirectories : Bool)
    (path pattern : Path) : Except GlobFault (List Path) := do
  checkPath path
  return (listing tree onlyDirectories path).filter fun name =>
    (options.includeHidden || isHidden pattern || !isHidden name)
      && Wildcard.matchesName pattern name

/-- A name without magic, if it exists in a directory. The empty name asks for a directory. -/
def exactly (tree : FileTree) (directory name : Path) : List Path :=
  let found :=
    if name.isEmpty then tree.isDirectory directory
    else tree.contains (Path.joinNonempty directory name)
  if found then [name] else []

/-- A path without magic, if it exists. -/
def plain (tree : FileTree) (root path : Path) : List Path :=
  let (directory, name) := Path.split path
  let found :=
    if name.isEmpty then tree.isDirectory (Path.joinNonempty root directory)
    else tree.contains (Path.joinNonempty root path)
  if found then [path] else []

/-- What the last component of a pattern stands for in a directory. -/
def step (tree : FileTree) (options : GlobOptions) (onlyDirectories : Bool)
    (directory name : Path) : Except GlobFault (List Path) :=
  if !hasMagic name then .ok (exactly tree directory name)
  else if options.recursive && name = ['*', '*'] then below tree options onlyDirectories directory
  else matching tree options onlyDirectories directory name

/-- The paths that match a pattern, in the order in which they are found. -/
def search (tree : FileTree) (options : GlobOptions) (onlyDirectories : Bool) (pattern : Path) :
    Except GlobFault (List Path) :=
  let root := options.root.join.getD []
  if !hasMagic pattern then .ok (plain tree root pattern)
  else
    let head := (Path.split pattern).1
    let name := (Path.split pattern).2
    if head.isEmpty then step tree options onlyDirectories root name
    else do
      let directories ←
        if head ≠ pattern ∧ hasMagic head then search tree options true head else .ok [head]
      let found ← directories.mapM fun directory => do
        let names ← step tree options onlyDirectories (Path.joinNonempty root directory) name
        return names.map (Path.join directory)
      return found.flatten
termination_by pattern.length
decreasing_by
  rename_i h
  exact Path.length_split_fst_lt h.1

/-- A pattern that begins with any number of directories matches the directory where the search
begins, which has no path of its own. -/
def glob (tree : FileTree) (options : GlobOptions) (pattern : Path) :
    Except GlobFault (List Path) := do
  let found ← search tree options false pattern
  if pattern.isEmpty || (options.recursive && pattern.take 2 = ['*', '*']) then
    match found with
    | [] :: rest => return rest
    | _ => return found
  else return found

end Glob

end SchemaLoom
