import SchemaLoom.Document.Excerpt
import SchemaLoom.Document.Kind
import SchemaLoom.Schema.Fault

/-! Why no schema can be built from a document. -/

namespace SchemaLoom

/-- What is wrong with an argument of a directive that tells something about a schema. -/
inductive ArgumentProblem where
  | missing (type : TypeRef)
  | null (type : TypeRef)
  | invalid (value : Literal)
deriving Repr

/-- The parts of a type that may refer to other types. -/
inductive TypePart where
  | interfaces
  | fields
  | members
deriving DecidableEq, Repr

def TypePart.words : TypePart → String
  | .interfaces => "interfaces"
  | .fields => "fields"
  | .members => "types"

/-- Why no schema can be built from a document. -/
inductive BuildFault where
  /-- The document breaks rules. -/
  | faulty (faults : List SchemaFault)
  | unknownType (name : Name)
  | fieldNotOutput
  | argumentNotInput
  | inputFieldNotInput
  | defaultNotInput (type : Name)
  | notInterfaces (type : Name)
  | notObjects (type : Name)
  /-- An enum type is extended as if it were of another kind. -/
  | enumExtendedAs (other : TypeKind)
  /-- A type of some kind is extended as if it were of another kind. -/
  | extendedAsOther (name : Name) (kind : TypeKind)
  | badArgument (name : Name) (problem : ArgumentProblem) (location : Option Location)
  /-- The default values of an input type depend on themselves. -/
  | endlessDefaults (type : Name)
  /-- The cause was met while a part of a type was looked at. -/
  | within (type : Name) (part : TypePart) (cause : BuildFault)
deriving Repr

namespace BuildFault

def argumentMessage (name : Name) : ArgumentProblem → String
  | .missing type =>
    "Argument '" ++ name ++ "' of required type '" ++ type.print ++ "' was not provided."
  | .null type =>
    "Argument '" ++ name ++ "' of non-null type '" ++ type.print ++ "' must not be null."
  | .invalid value => "Argument '" ++ name ++ "' has invalid value " ++ value.print ++ "."

/-- Note where a fault was met. Defaults that depend on themselves are met everywhere on the way. -/
def metWithin (type : Name) (part : TypePart) : BuildFault → BuildFault
  | .endlessDefaults name => .endlessDefaults name
  | cause => .within type part cause

/-- The place of a fault. It is lost when the fault is met within a type. -/
def location? : BuildFault → Option Location
  | .badArgument _ _ location => location
  | _ => none

/-- What a fault is, without its place. The place of a cause is shown before it is lost. -/
def message : BuildFault → String
  | .faulty faults => String.intercalate "\n\n" (faults.map SchemaFault.message)
  | .unknownType name => "Unknown type: '" ++ name ++ "'."
  | .fieldNotOutput => "Field type must be an output type."
  | .argumentNotInput => "Argument type must be a GraphQL input type."
  | .inputFieldNotInput => "Input field type must be a GraphQL input type."
  | .defaultNotInput type => "Unexpected input type: " ++ type ++ "."
  | .notInterfaces type =>
    type ++ " interfaces must be specified as a collection of GraphQLInterfaceType instances."
  | .notObjects type =>
    type ++ " types must be specified as a collection of GraphQLObjectType instances."
  | .enumExtendedAs other =>
    "'" ++ nodeName other.extensionName ++ "' object has no attribute 'values'"
  | .extendedAsOther name kind =>
    name ++ " extension AST nodes must be specified as a collection of "
      ++ nodeName kind.extensionName ++ " instances."
  | .badArgument name problem _ => argumentMessage name problem
  | .endlessDefaults type =>
    type ++ " fields cannot be resolved. maximum recursion depth exceeded"
  | .within type part cause =>
    type ++ " " ++ part.words ++ " cannot be resolved. " ++ cause.message
      ++ (cause.location?.map fun location => "\n\n" ++ location.excerpt).getD ""

end BuildFault

end SchemaLoom
