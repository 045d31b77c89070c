import SchemaLoom.Document.Tree
import SchemaLoom.Document.Token

/-! Showing a place in a document together with the lines around it. -/

namespace SchemaLoom

def padLeft (width : Nat) (text : List Char) : List Char :=
  List.replicate (width - text.length) ' ' ++ text

/-- Lines with labels before them. A line that is missing is left out, with its label. -/
def labelled (lines : List (String × Option (List Char))) : List (List Char) :=
  let shown := lines.filterMap fun (label, line) => line.map fun text => (label.toList, text)
  let width := (shown.map (·.1.length)).foldl max 0
  shown.map fun (label, text) =>
    padLeft width label ++ (if text.isEmpty then [] else ' ' :: text)

def chunks (size : Nat) : Nat → List Char → List (List Char)
  | 0, _ => []
  | _ + 1, [] => []
  | n + 1, text => text.take size :: chunks size n (text.drop size)

/-- Longer lines are broken up, into pieces of eighty characters. -/
def maxShownLength : Nat := 120

def pointer (column : Nat) : List Char := padLeft column ['^']

def Location.place (location : Location) : Nat × Nat :=
  lineColumn location.body.toList location.start

/-- The line and column of a location, and a picture of it. -/
def Location.excerpt (location : Location) : String :=
  let (line, column) := location.place
  let lines := splitLines location.body.toList
  let current := (lines[line - 1]?).getD []
  let number (n : Nat) : String := toString n ++ " |"
  let shown :=
    if current.length > maxShownLength then
      let pieces := chunks 80 current.length current
      let i := column / 80
      (number line, pieces[0]?) :: ((pieces.take (i + 1)).drop 1).map (fun p => ("|", some p))
        ++ [("|", some (pointer (column % 80))), ("|", pieces[i + 1]?)]
    else
      [(number (line - 1), if line > 1 then lines[line - 2]? else none),
       (number line, some current), ("|", some (pointer column)),
       (number (line + 1), lines[line]?)]
  "GraphQL request:" ++ toString line ++ ":" ++ toString column ++ "\n"
    ++ String.ofList (joinLines (labelled shown))

end SchemaLoom
