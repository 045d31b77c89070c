import SchemaLoom.Text.Decimal
import SchemaLoom.Text.Quoted

/-! Version numbers such as `1.0.0rc2`: three numbers and an optional stage of development. -/

namespace SchemaLoom

structure Version where
  major : Int
  minor : Int
  micro : Int
  level : String
  serial : Int
deriving DecidableEq, Repr

inductive VersionFault where
  | malformed (text : String)
  | tooManyDigits (count : Nat)
deriving DecidableEq

def VersionFault.message : VersionFault → String
  | .malformed text => "Invalid version: " ++ quoted text
  | .tooManyDigits count =>
    "Exceeds the limit (4300 digits) for integer string conversion: value has " ++ toString count
      ++ " digits; use sys.set_int_max_str_digits() to increase the limit"

namespace Version

/-- No number may be written with more digits than this. -/
def maxDigits : Nat := 4300

/-- A non-empty run of digits at the start of a text, and what follows it. -/
def digitRun? (text : List Char) : Option (List Char × List Char) :=
  match text.takeWhile isDecimal with
  | [] => none
  | digits => some (digits, text.dropWhile isDecimal)

def dot? : List Char → Option (List Char)
  | '.' :: rest => some rest
  | _ => none

/-- A version ends with the text or before its one final line feed. -/
def atEnd (text : List Char) : Bool := text == [] || text == ['\n']

/-- The stages with the letters that stand for them. -/
def stage? : List Char → Option (String × List Char)
  | 'a' :: rest => some ("alpha", rest)
  | 'b' :: rest => some ("beta", rest)
  | 'r' :: 'c' :: rest => some ("candidate", rest)
  | _ => none

/-- The stage and serial number that end a version text, no stage meaning a final version. -/
def suffix? (text : List Char) : Option (String × List Char) :=
  if atEnd text then some ("final", ['0'])
  else do
    let (level, rest) ← stage? text
    let (serial, rest) ← digitRun? rest
    if atEnd rest then some (level, serial) else none

/-- The digits of a version, not yet read as numbers. -/
structure Spelling where
  major : List Char
  minor : List Char
  micro : List Char
  level : String
  serial : List Char

def spelling? (text : List Char) : Option Spelling := do
  let (major, rest) ← digitRun? text
  let (minor, rest) ← digitRun? (← dot? rest)
  let (micro, rest) ← digitRun? (← dot? rest)
  let (level, serial) ← suffix? rest
  some ⟨major, minor, micro, level, serial⟩

def number (digits : List Char) : Except VersionFault Int :=
  if digits.length ≤ maxDigits then .ok (decimalValue digits)
  else .error (.tooManyDigits digits.length)

def ofText (text : String) : Except VersionFault Version :=
  match spelling? text.toList with
  | none => .error (.malformed text)
  | some s => do
    return ⟨← number s.major, ← number s.minor, ← number s.micro, s.level, ← number s.serial⟩

/-- The letters that stand for a stage; a stage without letters of its own is cut to its first. -/
def stageLetters (level : String) : String :=
  if level == "candidate" then "rc" else String.ofList (level.toList.take 1)

def toText (v : Version) : String :=
  let numbers := toString v.major ++ "." ++ toString v.minor ++ "." ++ toString v.micro
  if v.level == "final" then numbers else numbers ++ stageLetters v.level ++ toString v.serial

def current : Version := ⟨1, 0, 0, "final", 0⟩

end Version

end SchemaLoom
