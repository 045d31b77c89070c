import SchemaLoom.Document.Lexer
import SchemaLoom.Schema.Standard
import SchemaLoom.Value

/-! Making scalar types from a name and functions. -/

namespace SchemaLoom

inductive NameFault where
  | empty
  | badCharacter (name : String)
  | badStart (name : String)
deriving DecidableEq, Repr

def NameFault.message : NameFault → String
  | .empty => "Expected name to be a non-empty string."
  | .badCharacter name =>
    "Names must only contain [_a-zA-Z0-9] but " ++ quoted name ++ " does not."
  | .badStart name => "Names must start with [_a-zA-Z] but " ++ quoted name ++ " does not."

/-- A name begins like a name token and goes on like one. How it goes on is looked at first. -/
def checkName (name : String) : Except NameFault Unit :=
  match name.toList with
  | [] => .error .empty
  | c :: rest =>
    if !rest.all isNameContinue then .error (.badCharacter name)
    else if !isNameStart c then .error (.badStart name)
    else .ok ()

inductive ScalarFault where
  | reserved (name : String)
  | badName (fault : NameFault)
  | serializer (name : String)
  | parsers (name : String)
deriving DecidableEq, Repr

def ScalarFault.message : ScalarFault → String
  | .reserved name => "Redefinition of reserved type " ++ quoted name
  | .badName fault => fault.message
  | .serializer name =>
    name ++ " must provide 'serialize' as a function."
      ++ " If this custom Scalar is also used as an input type,"
      ++ " ensure 'parse_value' and 'parse_literal' functions are also provided."
  | .parsers name => name ++ " must provide both 'parse_value' and 'parse_literal' as functions."

/-- The function under a key. An absent value counts as none. -/
def functionAt? (key : String) (functions : List (String × Value)) : Option Value :=
  (Entries.get? key functions).filter fun
    | .null => false
    | _ => true

/-- Make a scalar type. Serializers are functions, and literals are parsed only by types that parse
values as well, both by functions. -/
def makeScalarType (name : String) (functions : List (String × Value)) :
    Except ScalarFault Value := do
  if standardTypeNames.contains name then throw (.reserved name)
  (checkName name).mapError .badName
  unless (functionAt? "serialize" functions).all Value.isCallable do throw (.serializer name)
  if let some literal := functionAt? "parse_literal" functions then
    unless literal.isCallable && (functionAt? "parse_value" functions).any Value.isCallable do
      throw (.parsers name)
  return .scalarType name functions

end SchemaLoom
