/-! Suggestions of known names for a name that is not known. -/

namespace SchemaLoom

/-- The least of the values of a cell's neighbours: a deletion, an insertion, a substitution, or an
exchange of two characters. -/
def editCell (up left diagonal : Nat) (exchange : Option Nat) (same : Bool) : Nat :=
  let best := min (min (up + 1) (left + 1)) (if same then diagonal else diagonal + 1)
  match exchange with
  | none => best
  | some cell => min best (cell + 1)

/-- One row of the table of edit distances. `older` is the row two above, from the cell two columns
back, and is used where the last two characters of both texts are exchanged. -/
def editRow (a : Char) (previousA : Option Char) (left : Nat) (previousB : Option Char) :
    List Char → List Nat → List Nat → List Nat
  | b :: bs, diagonal :: up :: ups, older =>
    let exchange :=
      if previousA == some b && previousB == some a then older.head? else none
    let cell := editCell up left diagonal exchange (a == b)
    let older := if previousB.isSome then older.drop 1 else older
    cell :: editRow a previousA cell (some b) bs (up :: ups) older
  | _, _, _ => []

/-- The last row of the table, from the two rows before the first of the characters given. -/
def editRows (b : List Char) :
    Nat → Option Char → List Char → List Nat → List Nat → List Nat
  | _, _, [], row, _ => row
  | i, previous, a :: as, row, older =>
    editRows b (i + 1) (some a) as ((i + 1) :: editRow a previous (i + 1) none b row older) row

/-- The least number of insertions, deletions, substitutions and exchanges of neighbours that turn
one text into the other, no place being edited twice. -/
def editDistance (a b : List Char) : Nat :=
  ((editRows b 0 none a (List.range (b.length + 1)) []).getLast?).getD 0

def lowerCase (text : String) : List Char := text.toList.map Char.toLower

/-- A difference in case alone counts as one edit. -/
def nameDistance (input option : String) : Nat :=
  if input == option then 0
  else if lowerCase input == lowerCase option then 1
  else editDistance (lowerCase option) (lowerCase input)

/-- A piece of a name for ordering: a run of digits counts as a number. -/
inductive NameChunk where
  | text (run : List Char)
  | number (value : Nat) (run : List Char)
deriving DecidableEq

/-- Prefix a character to the chunks of a name, which alternate and begin with a text. -/
def NameChunk.push (c : Char) : List NameChunk → List NameChunk
  | .text run :: .number value digits :: rest =>
    if c.isDigit then
      if run.isEmpty then
        let digits := c :: digits
        .text [] :: .number (digits.foldl (fun n d => 10 * n + (d.toNat - '0'.toNat)) 0) digits
          :: rest
      else
        .text [] :: .number (c.toNat - '0'.toNat) [c] :: .text run :: .number value digits :: rest
    else .text (c :: run) :: .number value digits :: rest
  | .text run :: rest =>
    if c.isDigit then .text [] :: .number (c.toNat - '0'.toNat) [c] :: .text run :: rest
    else .text (c :: run) :: rest
  | chunks => chunks

def nameChunks (name : String) : List NameChunk :=
  name.toList.foldr NameChunk.push [.text []]

def compareRuns : List Char → List Char → Ordering
  | [], [] => .eq
  | [], _ :: _ => .lt
  | _ :: _, [] => .gt
  | a :: as, b :: bs => (compare a b).then (compareRuns as bs)

def NameChunk.compare : NameChunk → NameChunk → Ordering
  | .text a, .text b => compareRuns a b
  | .number m a, .number n b => (Ord.compare m n).then (compareRuns a b)
  | .text _, .number _ _ => .lt
  | .number _ _, .text _ => .gt

def compareChunks : List NameChunk → List NameChunk → Ordering
  | [], [] => .eq
  | [], _ :: _ => .lt
  | _ :: _, [] => .gt
  | a :: as, b :: bs => (a.compare b).then (compareChunks as bs)

/-- Numbers within names are ordered by value. -/
def compareNames (a b : String) : Ordering := compareChunks (nameChunks a) (nameChunks b)

/-- More than this many edits make a suggestion useless: two fifths of the name, and one more. -/
def suggestionLimit (input : String) : Nat := input.length * 2 / 5 + 1

/-- The options close to the input, the closest first. -/
def suggestions (input : String) (options : List String) : List String :=
  let close := options.eraseDups.filter fun option =>
    nameDistance input option ≤ suggestionLimit input
  close.mergeSort fun a b =>
    ((compare (nameDistance input a) (nameDistance input b)).then (compareNames a b)).isLE

def enquote (name : String) : String := "'" ++ name ++ "'"

/-- The question that follows a message about an unknown name. At most five names are offered. -/
def didYouMean (names : List String) : String :=
  match (names.take 5).map enquote with
  | [] => ""
  | [a] => " Did you mean " ++ a ++ "?"
  | [a, b] => " Did you mean " ++ a ++ " or " ++ b ++ "?"
  | options =>
    " Did you mean " ++ String.intercalate ", " options.dropLast ++ ", or "
      ++ (options.getLast?).getD "" ++ "?"

end SchemaLoom
