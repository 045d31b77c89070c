import SchemaLoom.Entries
import SchemaLoom.Text.Quoted

/-! Nested values as they are found in resolver maps, and their deep merge. -/

namespace SchemaLoom

/-- A value in a resolver map. A scalar type is given by its name and the functions it was made
with. -/
inductive Value where
  | null
  | boolean (b : Bool)
  | integer (n : Int)
  | text (s : String)
  | list (items : List Value)
  | mapping (entries : List (String × Value))
  | function (name : String)
  | scalarType (name : String) (functions : List (String × Value))
deriving Repr, Inhabited

namespace Value

def isMapping : Value → Bool
  | .mapping _ => true
  | _ => false

def isCallable : Value → Bool
  | .function _ => true
  | _ => false

/-- Empty and zero values count as none where a value is optional. -/
def isTruthy : Value → Bool
  | .null => false
  | .boolean b => b
  | .integer n => n ≠ 0
  | .text s => s ≠ ""
  | .list items => !items.isEmpty
  | .mapping entries => !entries.isEmpty
  | .function _ => true
  | .scalarType _ _ => true

/-- What a value is called in messages about its kind. -/
def kindName : Value → String
  | .null => "NoneType"
  | .boolean _ => "bool"
  | .integer _ => "int"
  | .text _ => "str"
  | .list _ => "list"
  | .mapping _ => "dict"
  | .function _ => "function"
  | .scalarType _ _ => "GraphQLScalarType"

mutual

/-- A value as it is shown in messages. -/
def display : Value → String
  | .null => "None"
  | .boolean b => if b then "True" else "False"
  | .integer n => toString n
  | .text s => quoted s
  | .list items => "[" ++ String.intercalate ", " (displayItems items) ++ "]"
  | .mapping entries => "\x7b" ++ String.intercalate ", " (displayEntries entries) ++ "\x7d"
  | .function name => "<function " ++ name ++ ">"
  | .scalarType name _ => "<GraphQLScalarType " ++ quoted name ++ ">"

def displayItems : List Value → List String
  | [] => []
  | v :: vs => v.display :: displayItems vs

def displayEntries : List (String × Value) → List String
  | [] => []
  | (key, v) :: entries => (quoted key ++ ": " ++ v.display) :: displayEntries entries

end

/-- The entries of a mapping. Other values have none. -/
def entries : Value → List (String × Value)
  | .mapping entries => entries
  | _ => []

end Value

/-- Merge entries into others. Where both have a mapping under a key, these are merged in turn;
anything else replaces what was there. -/
def deepMerge (target : List (String × Value)) :
    List (String × Value) → List (String × Value)
  | [] => target
  | (key, .mapping source) :: rest =>
    let below := ((Entries.get? key target).map Value.entries).getD []
    deepMerge (Entries.set key (.mapping (deepMerge below source)) target) rest
  | (key, value) :: rest => deepMerge (Entries.set key value target) rest

end SchemaLoom
