import SchemaLoom.FileTree.Basic
import SchemaLoom.Text.Lines
import SchemaLoom.Text.Utf8

/-! Reading the files of a tree as text. -/

namespace SchemaLoom

inductive ReadFault where
  | unreachable (fault : PathFault) (path : Path)
  | isDirectory (path : Path)
  | undecodable (fault : Utf8Fault)
deriving DecidableEq

def ReadFault.message : ReadFault → String
  | .unreachable .notFound path =>
    "[Errno 2] No such file or directory: " ++ quoted (String.ofList path)
  | .unreachable .notDirectory path =>
    "[Errno 20] Not a directory: " ++ quoted (String.ofList path)
  | .unreachable .tooManyLinks path =>
    "[Errno 40] Too many levels of symbolic links: " ++ quoted (String.ofList path)
  | .unreachable .tooLong path => "[Errno 36] File name too long: " ++ quoted (String.ofList path)
  | .unreachable .nullCharacter _ => "embedded null byte"
  | .isDirectory path => "[Errno 21] Is a directory: " ++ quoted (String.ofList path)
  | .undecodable fault => fault.message

namespace FileTree

/-- The text of the file with a path, whatever newlines are used in it. -/
def read (tree : FileTree) (path : Path) : Except ReadFault String :=
  match tree.lookup path with
  | .error fault => .error (.unreachable fault path)
  | .ok (.file bytes) =>
    match Utf8.decode bytes with
    | .error fault => .error (.undecodable fault)
    | .ok text => .ok (String.ofList (unifyNewlines text))
  | .ok _ => .error (.isDirectory path)

/-- Read files one after another, up to the first that cannot be read. -/
def readAll (tree : FileTree) (paths : List Path) : Except ReadFault (List String) :=
  paths.mapM tree.read

end FileTree

end SchemaLoom
