import SchemaLoom.FileTree.Path

/-! Trees of files, directories and symbolic links, and what a path leads to in them. -/

namespace SchemaLoom

/-- A file with its bytes, a directory with its entries in the order in which they are listed, or a
symbolic link to a path. -/
inductive FileNode where
  | file (bytes : List UInt8)
  | directory (entries : List (Path × FileNode))
  | link (target : Path)

namespace FileNode

def isDirectory : FileNode → Bool
  | .directory _ => true
  | _ => false

def entries : FileNode → List (Path × FileNode)
  | .directory entries => entries
  | _ => []

def target? : FileNode → Option Path
  | .link target => some target
  | _ => none

theorem eq_link_of_target? {node : FileNode} {target : Path} (h : node.target? = some target) :
    node = .link target := by
  cases node with
  | link own => rw [Option.some.inj h]
  | _ => cases h

theorem target?_of_isDirectory {node : FileNode} (h : node.isDirectory = true) :
    node.target? = none := by
  cases node with
  | directory entries => rfl
  | _ => cases h

def child? (name : Path) (node : FileNode) : Option FileNode :=
  (node.entries.find? (·.1 = name)).map Prod.snd

end FileNode

/-- Why a path leads nowhere. -/
inductive PathFault where
  | notFound
  | notDirectory
  | tooLong
  | tooManyLinks
  | nullCharacter
deriving DecidableEq

namespace Path

def byteSize (path : Path) : Nat := path.foldr (fun c size => c.utf8Size + size) 0

/-- Paths have less than 4096 bytes. -/
def isTooLong (path : Path) : Bool := 4096 ≤ byteSize path

/-- Names of files and directories have at most 255 bytes. -/
def isTooLongName (name : Path) : Bool := 255 < byteSize name

end Path

/-- A node that was walked to, and the nodes passed on the way, so that the walk can go back up. -/
structure Spot where
  trail : List FileNode
  here : FileNode

/-- All directories, files and links, and the names that lead from the root to the directory where
relative paths begin. -/
structure FileTree where
  root : FileNode
  workdir : List Path

namespace FileTree

/-- One step of a walk. It may lead to a link. -/
def walkStep (place : Spot) (name : Path) : Except PathFault Spot :=
  if !place.here.isDirectory then .error .notDirectory
  else if name.isEmpty || name = ['.'] then .ok place
  else if name = ['.', '.'] then
    match place.trail with
    | [] => .ok place
    | parent :: trail => .ok ⟨trail, parent⟩
  else if Path.isTooLongName name then .error .tooLong
  else
    match place.here.child? name with
    | some child => .ok ⟨place.here :: place.trail, child⟩
    | none => .error .notFound

/-- Where the target of a link begins that was found in a place. -/
def origin (root : FileNode) (place : Spot) (target : Path) : Spot :=
  if target.head? = some '/' then ⟨[], root⟩ else place

/-- A walk that may follow some number of links, with the number that is left at its end. All links
are followed but for one in the last place, which may be asked for itself. -/
def walk (root : FileNode) (follows : Bool) (links : Nat) (place : Spot) :
    List Path → Except PathFault (Nat × Spot)
  | [] => .ok (links, place)
  | name :: rest =>
    match walkStep place name with
    | .error fault => .error fault
    | .ok next =>
      match next.here.target? with
      | none => walk root follows links next rest
      | some target =>
        if !follows && rest.isEmpty then .ok (links, next)
        else
          match links with
          | 0 => .error .tooManyLinks
          | links + 1 =>
            walk root follows links (origin root place target) (Path.components target ++ rest)
termination_by names => (links, names.length)

/-- The links that may be followed on the way along one path. -/
def maxLinks : Nat := 40

/-- Names are entered one after another, each as a path of its own. -/
def enter (root : FileNode) (place : Spot) : List Path → Except PathFault Spot
  | [] => .ok place
  | name :: rest => do
    let (_, next) ← walk root true maxLinks place [name]
    enter root next rest

/-- Where the walk along a path begins. -/
def start (tree : FileTree) (path : Path) : Except PathFault Spot :=
  if path.head? = some '/' then .ok ⟨[], tree.root⟩
  else enter tree.root ⟨[], tree.root⟩ tree.workdir

/-- The place that a path leads to, with the number of links that might still have been followed. -/
def arrive (tree : FileTree) (follows : Bool) (path : Path) : Except PathFault (Nat × Spot) := do
  walk tree.root follows maxLinks (← tree.start path) (Path.components path)

/-- What a path leads to, or the link itself that it leads to. -/
def resolve (tree : FileTree) (follows : Bool) (path : Path) : Except PathFault FileNode :=
  if path.contains '\x00' then .error .nullCharacter
  else if Path.isTooLong path then .error .tooLong
  else if path.isEmpty then .error .notFound
  else (tree.arrive follows path).map fun (_, place) => place.here

/-- What a path leads to. -/
def lookup (tree : FileTree) (path : Path) : Except PathFault FileNode := tree.resolve true path

/-- Whether there is anything with a path, be it a link that leads nowhere. -/
def contains (tree : FileTree) (path : Path) : Bool := (tree.resolve false path).isOk

def isDirectory (tree : FileTree) (path : Path) : Bool :=
  match tree.lookup path with
  | .ok node => node.isDirectory
  | .error _ => false

end FileTree

end SchemaLoom
