import SchemaLoom.Schema.Type

/-! The types and directives that every schema has without defining them. -/

namespace SchemaLoom

def standardScalars : List Name := ["String", "Int", "Float", "Boolean", "ID"]

def requiredRef (name : Name) : TypeRef := .nonNull (.named name)

/-- A list of values that are all given. -/
def listRef (name : Name) : TypeRef := .list (requiredRef name)

def plainField (name : Name) (type : TypeRef) : Field := ⟨name, type, none, none, []⟩

/-- A field that can be asked for deprecated elements as well. -/
def deprecableField (name : Name) (type : TypeRef) : Field :=
  let default := some (.boolean false)
  ⟨name, type, none, none, [⟨"includeDeprecated", .named "Boolean", default, default, none, none⟩]⟩

def objectType (name : Name) (fields : List Field) : NamedType := ⟨name, none, .object [] fields⟩

def enumType (name : Name) (values : List Name) : NamedType :=
  ⟨name, none, .enum (values.map (⟨·, none, none⟩))⟩

/-- The types by which a schema describes itself, without their descriptions. -/
def introspectionTypes : List NamedType :=
  [objectType "__Schema"
    [plainField "description" (.named "String"),
     plainField "types" (.nonNull (listRef "__Type")),
     plainField "queryType" (requiredRef "__Type"),
     plainField "mutationType" (.named "__Type"),
     plainField "subscriptionType" (.named "__Type"),
     plainField "directives" (.nonNull (listRef "__Directive"))],
   objectType "__Directive"
    [plainField "name" (requiredRef "String"),
     plainField "description" (.named "String"),
     plainField "isRepeatable" (requiredRef "Boolean"),
     plainField "locations" (.nonNull (listRef "__DirectiveLocation")),
     deprecableField "args" (.nonNull (listRef "__InputValue")),
     plainField "isDeprecated" (requiredRef "Boolean"),
     plainField "deprecationReason" (.named "String")],
   enumType "__DirectiveLocation"
    ["QUERY", "MUTATION", "SUBSCRIPTION", "FIELD", "FRAGMENT_DEFINITION", "FRAGMENT_SPREAD",
     "INLINE_FRAGMENT", "VARIABLE_DEFINITION", "SCHEMA", "SCALAR", "OBJECT", "FIELD_DEFINITION",
     "ARGUMENT_DEFINITION", "INTERFACE", "UNION", "ENUM", "ENUM_VALUE", "INPUT_OBJECT",
     "INPUT_FIELD_DEFINITION", "DIRECTIVE_DEFINITION"],
   objectType "__Type"
    [plainField "kind" (requiredRef "__TypeKind"),
     plainField "name" (.named "String"),
     plainField "description" (.named "String"),
     plainField "specifiedByURL" (.named "String"),
     deprecableField "fields" (listRef "__Field"),
     plainField "interfaces" (listRef "__Type"),
     plainField "possibleTypes" (listRef "__Type"),
     deprecableField "enumValues" (listRef "__EnumValue"),
     deprecableField "inputFields" (listRef "__InputValue"),
     plainField "ofType" (.named "__Type"),
     plainField "isOneOf" (.named "Boolean")],
   objectType "__Field"
    [plainField "name" (requiredRef "String"),
     plainField "description" (.named "String"),
     deprecableField "args" (.nonNull (listRef "__InputValue")),
     plainField "type" (requiredRef "__Type"),
     plainField "isDeprecated" (requiredRef "Boolean"),
     plainField "deprecationReason" (.named "String")],
   objectType "__InputValue"
    [plainField "name" (requiredRef "String"),
     plainField "description" (.named "String"),
     plainField "type" (requiredRef "__Type"),
     plainField "defaultValue" (.named "String"),
     plainField "isDeprecated" (requiredRef "Boolean"),
     plainField "deprecationReason" (.named "String")],
   objectType "__EnumValue"
    [plainField "name" (requiredRef "String"),
     plainField "description" (.named "String"),
     plainField "isDeprecated" (requiredRef "Boolean"),
     plainField "deprecationReason" (.named "String")],
   enumType "__TypeKind"
    ["SCALAR", "OBJECT", "INTERFACE", "UNION", "ENUM", "INPUT_OBJECT", "LIST", "NON_NULL"]]

/-- The types that a document cannot define anew. -/
def standardTypes : List NamedType :=
  standardScalars.map (⟨·, none, .scalar none⟩) ++ introspectionTypes

def standardType? (name : Name) : Option NamedType := standardTypes.find? (·.name = name)

def standardTypeNames : List Name := standardTypes.map NamedType.name

def directiveArgument (name : Name) (type : TypeRef) (default : Option Literal) :
    InputValueDefinition :=
  ⟨none, name, type, default, []⟩

def standardDirectives : List DirectiveDefinition :=
  [⟨none, "include", [directiveArgument "if" (requiredRef "Boolean") none], false,
     [.field, .fragmentSpread, .inlineFragment], none⟩,
   ⟨none, "skip", [directiveArgument "if" (requiredRef "Boolean") none], false,
     [.field, .fragmentSpread, .inlineFragment], none⟩,
   ⟨none, "deprecated",
     [directiveArgument "reason" (.named "String")
       (some (.string ⟨"No longer supported", false⟩))], false,
     [.fieldDefinition, .argumentDefinition, .inputFieldDefinition, .enumValue], none⟩,
   ⟨none, "specifiedBy", [directiveArgument "url" (requiredRef "String") none], false,
     [.scalar], none⟩,
   ⟨none, "oneOf", [], false, [.inputObject], none⟩]

end SchemaLoom
