import SchemaLoom.Document.Tree

/-! The names of the kinds of nodes in a document. -/

namespace SchemaLoom

def TypeKind.kindName : TypeKind → String
  | .scalar => "scalar_type"
  | .object => "object_type"
  | .interface => "interface_type"
  | .union => "union_type"
  | .enum => "enum_type"
  | .inputObject => "input_object_type"

/-- The kind of the extensions of a kind of type. -/
def TypeKind.extensionName (kind : TypeKind) : String := kind.kindName ++ "_extension"

def Definition.kindName : Definition → String
  | .operation _ => "operation_definition"
  | .fragment _ => "fragment_definition"
  | .schema _ => "schema_definition"
  | .schemaExtension _ => "schema_extension"
  | .type d => d.kind.kindName ++ "_definition"
  | .typeExtension d => d.kind.extensionName
  | .directive _ => "directive_definition"

/-- The words of a name that are separated by underscores. -/
def nameWords : List Char → List (List Char)
  | [] => [[]]
  | c :: rest =>
    match nameWords rest with
    | [] => [[c]]
    | word :: words => if c = '_' then [] :: word :: words else (c :: word) :: words

def capitalize : List Char → List Char
  | [] => []
  | c :: rest => c.toUpper :: rest

/-- The kind of a node as it is called in messages about parts that it lacks. -/
def nodeName (kindName : String) : String :=
  String.ofList ((nameWords kindName.toList).flatMap capitalize) ++ "Node"

end SchemaLoom
