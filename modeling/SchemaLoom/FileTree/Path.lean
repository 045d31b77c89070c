/-! Paths as texts: taking them apart and joining them. -/

namespace SchemaLoom

abbrev Path := List Char

namespace Path

def trimSlashes (path : Path) : Path := (path.reverse.dropWhile (· == '/')).reverse

/-- The part up to and with the last slash, and the part after it. -/
def cut (path : Path) : Path × Path :=
  let tail := (path.reverse.takeWhile (· != '/')).reverse
  (path.take (path.length - tail.length), tail)

/-- The part before the last slash, and the part after it. Slashes that end the first part are
dropped unless it has nothing else. -/
def split (path : Path) : Path × Path :=
  let (head, tail) := cut path
  (if head.all (· == '/') then head else trimSlashes head, tail)

/-- A path that goes on with another one. An absolute path does not go on from anything. -/
def join (base path : Path) : Path :=
  if path.head? = some '/' then path
  else if base.isEmpty || base.getLast? = some '/' then base ++ path
  else base ++ '/' :: path

/-- The same, but an empty path adds nothing. -/
def joinNonempty (base path : Path) : Path :=
  if base.isEmpty || path.isEmpty then base ++ path else join base path

def components : Path → List Path
  | [] => [[]]
  | c :: rest =>
    match components rest with
    | [] => [[c]]
    | part :: parts => if c = '/' then [] :: part :: parts else (c :: part) :: parts

/-- The path of a directory without redundant slashes and dots. Two leading slashes, but not more,
are kept. -/
def normalize (path : Path) : Path :=
  let slashes := (path.takeWhile (· == '/')).length
  let root := if slashes = 0 then [] else if slashes = 2 then ['/', '/'] else ['/']
  let parts := (components path).filter fun part => !part.isEmpty && part != ['.']
  let body := List.intercalate ['/'] parts
  if root.isEmpty && body.isEmpty then ['.'] else root ++ body

end Path

end SchemaLoom
