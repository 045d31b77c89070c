/-! Patterns for names: `*`, `?` and sets of characters in brackets. -/

namespace SchemaLoom

inductive Wildcard where
  | literal (c : Char)
  | anyOne
  | anyRun
  | among (negated : Bool) (ranges : List (Char × Char))
  | nothing
deriving DecidableEq, Repr

namespace Wildcard

/-- The characters up to the bracket that closes a set, and what follows it. A bracket that comes
first belongs to the set. -/
def setBody? (text : List Char) : Option (List Char × List Char) :=
  let (mark, text) := if text.head? = some '!' then (['!'], text.drop 1) else ([], text)
  let (first, text) := if text.head? = some ']' then ([']'], text.drop 1) else ([], text)
  let body := text.takeWhile (· != ']')
  match text.drop body.length with
  | [] => none
  | _ :: rest => some (mark ++ first ++ body, rest)

/-- Cut a set at the hyphens that make ranges: at least `skip` characters stand before the next
one, and two between any two. -/
def cutRanges (skip : Nat) : List Char → List (List Char)
  | [] => [[]]
  | c :: rest =>
    if skip = 0 ∧ c = '-' then [] :: cutRanges 2 rest
    else
      match cutRanges (skip - 1) rest with
      | [] => [[c]]
      | chunk :: chunks => (c :: chunk) :: chunks

/-- A hyphen that ends a set stands for itself. -/
def closeLast : List (List Char) → List (List Char)
  | [chunk, []] => [chunk ++ ['-']]
  | chunk :: chunks => chunk :: closeLast chunks
  | [] => []

/-- Whether the range between two chunks is empty, its first character being after its last. -/
def isEmptyRange (a b : List Char) : Bool :=
  match a.getLast?, b.head? with
  | some x, some y => decide (y < x)
  | _, _ => false

/-- Leave out empty ranges, the last ones first. -/
def dropEmptyRanges : List (List Char) → List (List Char)
  | [] => []
  | chunk :: chunks =>
    match dropEmptyRanges chunks with
    | [] => [chunk]
    | next :: rest =>
      if isEmptyRange chunk next then (chunk.dropLast ++ next.drop 1) :: rest
      else chunk :: next :: rest

/-- A character of a set, or the hyphen of a range. -/
inductive SetItem where
  | char (c : Char)
  | hyphen

def SetItem.toChar : SetItem → Char
  | .char c => c
  | .hyphen => '-'

def setItems (chunks : List (List Char)) : List SetItem :=
  List.intercalate [.hyphen] (chunks.map (List.map .char))

def setRanges : List SetItem → List (Char × Char)
  | a :: .hyphen :: b :: rest => (a.toChar, b.toChar) :: setRanges rest
  | a :: rest => (a.toChar, a.toChar) :: setRanges rest
  | [] => []

/-- The set that is written between brackets. -/
def ofSet (body : List Char) : Wildcard :=
  let skip := if body.head? = some '!' then 2 else 1
  let chunks :=
    if body.contains '-' then dropEmptyRanges (closeLast (cutRanges skip body)) else [body]
  match setItems chunks with
  | [] => .nothing
  | [.char '!'] => .anyOne
  | .char '!' :: items => .among true (setRanges items)
  | items => .among false (setRanges items)

/-- The elements of a pattern. An opening bracket that is not closed stands for itself. -/
def parse (fuel : Nat) : List Char → List Wildcard
  | [] => []
  | c :: rest =>
    match fuel with
    | 0 => []
    | fuel + 1 =>
      if c = '*' then .anyRun :: parse fuel rest
      else if c = '?' then .anyOne :: parse fuel rest
      else if c = '[' then
        match setBody? rest with
        | some (body, rest) => ofSet body :: parse fuel rest
        | none => .literal '[' :: parse fuel rest
      else .literal c :: parse fuel rest

def ofPattern (pattern : List Char) : List Wildcard := parse pattern.length pattern

def isAmong (ranges : List (Char × Char)) (c : Char) : Bool :=
  ranges.any fun (first, last) => first ≤ c && c ≤ last

/-- Whether an element that stands for one character stands for this one. -/
def takes (c : Char) : Wildcard → Bool
  | .literal d => c == d
  | .anyOne => true
  | .anyRun => false
  | .among negated ranges => isAmong ranges c != negated
  | .nothing => false

def fits : List Wildcard → List Char → Bool
  | [], name => name.isEmpty
  | .anyRun :: pattern, [] => fits pattern []
  | .anyRun :: pattern, c :: name => fits pattern (c :: name) || fits (.anyRun :: pattern) name
  | _ :: _, [] => false
  | w :: pattern, c :: name => w.takes c && fits pattern name
termination_by pattern name => pattern.length + name.length

/-- For each place of a list whether anything holds there or later. -/
def hereOrLater : List Bool → List Bool
  | [] => []
  | here :: later =>
    let rest := hereOrLater later
    (here || rest.headD false) :: rest

/-- Whether a pattern matches each end of a name, from the whole name to the empty end. No end is
tried twice with the same pattern. -/
def matchedEnds (name : List Char) : List Wildcard → List Bool
  | [] => name.map (fun _ => false) ++ [true]
  | .anyRun :: pattern => hereOrLater (matchedEnds name pattern)
  | w :: pattern =>
    List.zipWith (fun c rest => w.takes c && rest) name (matchedEnds name pattern).tail ++ [false]

theorem matchedEnds_nil (pattern : List Wildcard) : matchedEnds [] pattern = [fits pattern []] := by
  induction pattern with
  | nil => simp [matchedEnds, fits]
  | cons w pattern ih => cases w <;> simp [matchedEnds, fits, hereOrLater, ih]

theorem matchedEnds_cons (c : Char) (name : List Char) (pattern : List Wildcard) :
    matchedEnds (c :: name) pattern = fits pattern (c :: name) :: matchedEnds name pattern := by
  induction pattern generalizing c name with
  | nil => simp [matchedEnds, fits]
  | cons w pattern ih =>
    cases w with
    | anyRun =>
      induction name generalizing c with
      | nil => simp [matchedEnds, fits, hereOrLater, ih, matchedEnds_nil]
      | cons d name ihn =>
        have h := ihn d
        simp only [matchedEnds] at h
        simp only [matchedEnds, ih c, hereOrLater, h, List.headD_cons]
        simp only [fits]
    | _ => cases name <;> simp [matchedEnds, fits, ih, matchedEnds_nil]

theorem headD_matchedEnds (name : List Char) (pattern : List Wildcard) :
    (matchedEnds name pattern).headD false = fits pattern name := by
  cases name <;> simp [matchedEnds_nil, matchedEnds_cons]

/-- Whether a pattern matches a whole name. -/
def matchesName (pattern name : List Char) : Bool :=
  (matchedEnds name (ofPattern pattern)).headD false

theorem matchesName_eq_fits (pattern name : List Char) :
    matchesName pattern name = fits (ofPattern pattern) name := headD_matchedEnds _ _

end Wildcard

end SchemaLoom
