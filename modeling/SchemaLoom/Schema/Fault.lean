import SchemaLoom.Document.Printer
import SchemaLoom.Document.Token
import SchemaLoom.Text.Suggestion

/-! What can be wrong with a document that is to define a schema. -/

namespace SchemaLoom

def Place.words (p : Place) : String :=
  String.ofList (p.name.toList.map fun c => if c = '_' then ' ' else c.toLower)

def TypeKind.words : TypeKind → String
  | .scalar => "scalar"
  | .object => "object"
  | .interface => "interface"
  | .union => "union"
  | .enum => "enum"
  | .inputObject => "input object"

/-- Faults found by looking at a document alone. The lists of names are suggestions. -/
inductive SchemaFault where
  | severalSchemas
  | severalOperationTypes (operation : Operation)
  | severalTypes (name : Name)
  | severalEnumValues (type value : Name)
  | severalFields (type field : Name)
  | severalArgumentDefinitions (owner : String) (argument : Name)
  | severalDirectives (name : Name)
  | unknownType (name : Name) (instead : List Name)
  | unknownDirective (name : Name)
  | misplacedDirective (name : Name) (place : Place)
  | repeatedDirective (name : Name)
  | otherKindExtended (kind : TypeKind) (name : Name)
  | unknownTypeExtended (name : Name) (instead : List Name)
  | unknownArgument (argument directive : Name) (instead : List Name)
  | repeatedArgument (name : Name)
  | repeatedInputField (name : Name)
  | missingArgument (directive argument : Name) (type : TypeRef)
deriving DecidableEq, Repr

def SchemaFault.message : SchemaFault → String
  | .severalSchemas => "Must provide only one schema definition."
  | .severalOperationTypes operation =>
    "There can be only one " ++ operation.name ++ " type in schema."
  | .severalTypes name => "There can be only one type named '" ++ name ++ "'."
  | .severalEnumValues type value =>
    "Enum value '" ++ type ++ "." ++ value ++ "' can only be defined once."
  | .severalFields type field => "Field '" ++ type ++ "." ++ field ++ "' can only be defined once."
  | .severalArgumentDefinitions owner argument =>
    "Argument '" ++ owner ++ "(" ++ argument ++ ":)' can only be defined once."
  | .severalDirectives name => "There can be only one directive named '@" ++ name ++ "'."
  | .unknownType name instead => "Unknown type '" ++ name ++ "'." ++ didYouMean instead
  | .unknownDirective name => "Unknown directive '@" ++ name ++ "'."
  | .misplacedDirective name place =>
    "Directive '@" ++ name ++ "' may not be used on " ++ place.words ++ "."
  | .repeatedDirective name =>
    "The directive '@" ++ name ++ "' can only be used once at this location."
  | .otherKindExtended kind name =>
    "Cannot extend non-" ++ kind.words ++ " type '" ++ name ++ "'."
  | .unknownTypeExtended name instead =>
    "Cannot extend type '" ++ name ++ "' because it is not defined." ++ didYouMean instead
  | .unknownArgument argument directive instead =>
    "Unknown argument '" ++ argument ++ "' on directive '@" ++ directive ++ "'."
      ++ didYouMean instead
  | .repeatedArgument name => "There can be only one argument named '" ++ name ++ "'."
  | .repeatedInputField name => "There can be only one input field named '" ++ name ++ "'."
  | .missingArgument directive argument type =>
    "Directive '@" ++ directive ++ "' argument '" ++ argument ++ "' of type '" ++ type.print
      ++ "' is required, but it was not provided."

end SchemaLoom
